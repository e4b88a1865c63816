import BraceLang.Number.Numeral

/-!
# Binary numbers of 64 bits

The nearest binary number of a decimal one: a significand of at most 53 bits times a power of two that is not below `2
^ (-1074)`.
-/

namespace BraceLang

/-- A binary number of 64 bits that is not negative: `significand * 2 ^ exponent`, or beyond all of these. -/
inductive Binary where
  | finite (significand : Nat) (exponent : Int)
  | infinite
  deriving DecidableEq, Repr

namespace Binary

def roundDiv (num den : Nat) : Nat :=
  let quotient := num / den
  let twice := 2 * (num % den)
  if twice < den then quotient
  else if den < twice then quotient + 1
  else if quotient % 2 = 0 then quotient else quotient + 1

/-- A quotient of whole numbers times a power of two, as numerator and denominator. -/
def scale (num den : Nat) (power : Int) : Nat × Nat :=
  if 0 ≤ power then (num * Nat.pow 2 power.toNat, den) else (num, den * Nat.pow 2 (-power).toNat)

def exponentOf (num den : Nat) : Int :=
  let guess : Int := (num.log2 : Int) - den.log2 - 52
  let (n, d) := scale num den (-guess)
  if Nat.pow 2 53 ≤ n / d then guess + 1 else if n / d < Nat.pow 2 52 then guess - 1 else guess

def nearest (num den : Nat) : Binary :=
  let exponent := max (exponentOf num den) (-1074)
  let (n, d) := scale num den (-exponent)
  let significand := roundDiv n d
  let (significand, exponent) :=
    if significand = Nat.pow 2 53 then (Nat.pow 2 52, exponent + 1) else (significand, exponent)
  if 971 < exponent then infinite else finite significand exponent

def digitCount (n : Nat) : Nat := (Nat.toDigits 10 n).length

def ofPower (digits : Nat) (exponent : Int) : Nat × Nat :=
  if 0 ≤ exponent then (digits * Nat.pow 10 exponent.toNat, 1) else (digits, Nat.pow 10 (-exponent).toNat)

/-- The nearest binary number of `digits * 10 ^ exponent`.  Numbers far outside the range are not computed. -/
def ofDecimal (digits : Nat) (exponent : Int) : Binary :=
  if digits = 0 || digitCount digits + exponent < -330 then finite 0 0
  else if 310 < digitCount digits + exponent then infinite
  else
    let (num, den) := ofPower digits exponent
    nearest num den

end Binary

structure Real64 where
  negative : Bool
  magnitude : Binary
  deriving DecidableEq, Repr

def Decimal.toReal64 (d : Decimal) : Real64 := ⟨d.negative, Binary.ofDecimal d.digits d.exponent⟩

end BraceLang
