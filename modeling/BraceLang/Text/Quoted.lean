import BraceLang.Text.Printable

/-!
# Quoted text

Text between quotes, on one line. Single quotes are used unless the text has a single quote and no double quote.
-/

namespace BraceLang

def hexDigit (n : Nat) : Char :=
  if n < 10 then Char.ofNat ('0'.toNat + n) else Char.ofNat ('a'.toNat + (n - 10))

def hexDigits : Nat → Nat → List Char
  | 0, _ => []
  | width + 1, n => hexDigits width (n / 16) ++ [hexDigit (n % 16)]

def numberEscape (n : Nat) : List Char :=
  if n ≤ 0xff then '\\' :: 'x' :: hexDigits 2 n
  else if n ≤ 0xffff then '\\' :: 'u' :: hexDigits 4 n
  else '\\' :: 'U' :: hexDigits 8 n

def escapeChar (printable : Char → Bool) (mark c : Char) : List Char :=
  if c = mark ∨ c = '\\' then ['\\', c]
  else if c = '\n' then ['\\', 'n']
  else if c = '\r' then ['\\', 'r']
  else if c = '\t' then ['\\', 't']
  else if printable c then [c]
  else numberEscape c.toNat

def quoteMark (s : List Char) : Char :=
  if s.contains '\'' && !s.contains '"' then '"' else '\''

/-- `s` between quotes, where `printable` says which characters stand for themselves. -/
def quoteWith (printable : Char → Bool) (s : List Char) : List Char :=
  quoteMark s :: (s.flatMap (escapeChar printable (quoteMark s)) ++ [quoteMark s])

def quoted (s : String) : String := String.ofList (quoteWith isPrintable s.toList)

def unquoted (s : String) : String :=
  let cs := s.toList
  if 2 ≤ cs.length && ((cs.head? == some '"' && cs.getLast? == some '"') ||
      (cs.head? == some '\'' && cs.getLast? == some '\'')) then String.ofList (cs.drop 1).dropLast
  else s

def bracketed (items : List String) : String := "[" ++ String.intercalate ", " items ++ "]"

def optionalText : Option String → String
  | none => "None"
  | some s => s

def optionalQuoted : Option String → String
  | none => "None"
  | some s => quoted s

def truthText (b : Bool) : String := if b then "True" else "False"

end BraceLang
