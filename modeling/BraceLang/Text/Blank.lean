import BraceLang.Text.Ranges

/-!
# Blank characters

The characters that separate words: the control characters from tab to carriage return and from file separator to unit
separator, the space, and the separators of the character database.
-/

namespace BraceLang

def blankRanges : CodeRanges :=
  [(9, 13), (28, 32), (133, 133), (160, 160), (5760, 5760), (8192, 8202), (8232, 8233), (8239, 8239), (8287, 8287),
    (12288, 12288)]

def isBlank (c : Char) : Bool := blankRanges.holds c.toNat

/-- Whether `c` is one of the four control characters that separate files, groups, records and units. -/
def isInformationSeparator (c : Char) : Bool := 28 ≤ c.toNat && c.toNat ≤ 31

def dropStart (p : Char → Bool) (s : List Char) : List Char := s.dropWhile p

def dropEnd (p : Char → Bool) (s : List Char) : List Char := (s.reverse.dropWhile p).reverse

def trimEnd (s : List Char) : List Char := dropEnd isBlank s

def trim (s : String) : String := String.ofList (dropEnd isBlank (dropStart isBlank s.toList))

def isBlankText (s : String) : Bool := !s.toList.isEmpty && s.toList.all isBlank

end BraceLang
