import BraceLang.Number.Binary

/-!
# The shortest text of a number

A binary number is written with the fewest decimal digits that read back as the same number; of two candidates the
nearer one is taken, and of two equally near ones the even one.
-/

namespace BraceLang

namespace Binary

def decimalExponent (num den : Nat) : Int :=
  if den ≤ num then (digitCount (num / den) : Int) - 1
  else
    let count := digitCount (den / num)
    if den ≤ num * Nat.pow 10 (count - 1) then -((count : Int) - 1) else -(count : Int)

/-- The candidate with the given number of digits that reads back as `b`, for a number `b` with the given quotient. -/
def candidate? (b : Binary) (num den : Nat) (count : Nat) : Option (Nat × Int) :=
  let grid := decimalExponent num den - count + 1
  let (n, d) := if 0 ≤ grid then (num, den * Nat.pow 10 grid.toNat) else (num * Nat.pow 10 (-grid).toNat, den)
  let low := n / d
  let reads (c : Nat) : Bool := ofDecimal c grid = b
  let twice := 2 * (n % d)
  let nearer := if twice < d then low else if d < twice then low + 1 else if low % 2 = 0 then low else low + 1
  let other := if nearer = low then low + 1 else low
  if reads nearer then some (nearer, grid) else if reads other then some (other, grid) else none

def dropZeros : Nat → Nat → Int → Nat × Int
  | 0, digits, exponent => (digits, exponent)
  | n + 1, digits, exponent =>
    if digits ≠ 0 && digits % 10 = 0 then dropZeros n (digits / 10) (exponent + 1) else (digits, exponent)

def shortest (significand : Nat) (exponent : Int) : Nat × Int :=
  let (num, den) := scale significand 1 exponent
  let found := (List.range 17).findSome? fun k => candidate? (finite significand exponent) num den (k + 1)
  let (digits, power) := found.getD (0, 0)
  dropZeros 20 digits power

def zeros (n : Nat) : String := String.ofList (List.replicate n '0')

def exponentText (e : Int) : String :=
  let digits := toString e.natAbs
  "e" ++ (if e < 0 then "-" else "+") ++ zeros (2 - digits.length) ++ digits

def decimalText (digits : Nat) (exponent : Int) : String :=
  let ds := toString digits
  let point : Int := ds.length + exponent
  if -4 < point && point ≤ 16 then
    if point ≤ 0 then "0." ++ zeros (-point).toNat ++ ds
    else if (ds.length : Int) ≤ point then ds ++ zeros (point.toNat - ds.length) ++ ".0"
    else String.ofList (ds.toList.take point.toNat) ++ "." ++ String.ofList (ds.toList.drop point.toNat)
  else
    let fraction := String.ofList (ds.toList.drop 1)
    String.ofList (ds.toList.take 1) ++ (if fraction.isEmpty then "" else "." ++ fraction) ++ exponentText (point - 1)

def text : Binary → String
  | infinite => "inf"
  | finite 0 _ => "0.0"
  | finite significand exponent =>
    let (digits, power) := shortest significand exponent
    decimalText digits power

end Binary

def Real64.text (x : Real64) : String := (if x.negative then "-" else "") ++ x.magnitude.text

end BraceLang
