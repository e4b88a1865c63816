import BraceLang.Text.Blank
import BraceLang.Text.Digit

/-!
# Numerals

The values of written numbers.
-/

namespace BraceLang

/-- A number with finitely many decimals: `digits * 10 ^ exponent`, with a sign. -/
structure Decimal where
  negative : Bool
  digits : Nat
  exponent : Int
  deriving DecidableEq, Repr

namespace Numeral

def isMargin (c : Char) : Bool := isBlank c && !isInformationSeparator c

def body (s : String) : List Char := dropEnd isMargin (dropStart isMargin s.toList)

def sign : List Char → Bool × List Char
  | '-' :: cs => (true, cs)
  | '+' :: cs => (false, cs)
  | cs => (false, cs)

/-- The digits of a run in which single underscores may stand between two digits. -/
def digits? : List Char → Option (List Char)
  | [] => none
  | [c] => if isDecimalDigit c then some [c] else none
  | c :: '_' :: cs => if isDecimalDigit c then (digits? cs).map (c :: ·) else none
  | c :: cs => if isDecimalDigit c then (digits? cs).map (c :: ·) else none

def digitsOrNone? (cs : List Char) : Option (List Char) := if cs.isEmpty then some [] else digits? cs

/-- A list up to an element that a test accepts, and what follows that element if there is one. -/
def splitAt? (p : Char → Bool) (cs : List Char) : List Char × Option (List Char) :=
  match cs.dropWhile (!p ·) with
  | [] => (cs, none)
  | _ :: rest => (cs.takeWhile (!p ·), some rest)

def integer? (s : String) : Option Int :=
  let (negative, cs) := sign (body s)
  (digits? cs).map fun ds => if negative then -(numeralValue ds : Int) else numeralValue ds

/-- An integer is read from no more digits than these. -/
def maxDigits : Nat := 4300

/-- The digits that a text starts with, behind its sign. -/
def leadingDigits (s : String) : List Char :=
  (digits? ((sign (body s)).2.takeWhile fun c => isDecimalDigit c || c = '_')).getD []

def exponent? : Option (List Char) → Option Int
  | none => some 0
  | some cs =>
    let (negative, cs) := sign cs
    (digits? cs).map fun ds => if negative then -(numeralValue ds : Int) else numeralValue ds

def decimal? (s : String) : Option Decimal := do
  let (negative, cs) := sign (body s)
  let (front, power) := splitAt? (fun c => c = 'e' || c = 'E') cs
  let (whole, fraction) := splitAt? (· = '.') front
  let whole ← digitsOrNone? whole
  let fraction ← digitsOrNone? (fraction.getD [])
  let power ← exponent? power
  if whole.isEmpty && fraction.isEmpty then none
  else some ⟨negative, numeralValue (whole ++ fraction), power - fraction.length⟩

end Numeral

end BraceLang
