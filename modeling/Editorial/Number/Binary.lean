/-!
# Binary fractions

Numbers of 64-bit binary floating point in exact form: a sign, a whole mantissa below 2^53 and a
power of two from -1074 to 971, or an infinity, or no number. `ofDecimal` rounds a decimal fraction
to the nearest such number, a tie going to the even mantissa. Everything is computed with whole
numbers.
-/

namespace Editorial.Number

/-- A number of 64-bit binary floating point. A finite one is `± mantissa * 2 ^ exponent`. -/
inductive Binary where
  | finite (negative : Bool) (mantissa : Nat) (exponent : Int)
  | infinite (negative : Bool)
  | nan
  deriving DecidableEq, Repr, Inhabited

/-- The quotient of two natural numbers rounded to the nearest whole number, a tie going to the even
one. -/
def roundDiv (num den : Nat) : Nat :=
  let quotient := num / den
  let twice := 2 * (num % den)
  if twice < den ∨ (twice = den ∧ quotient % 2 = 0) then quotient else quotient + 1

/-- The fraction `num / den` divided by a power of two, again as a fraction. -/
def scaleDown (num den : Nat) (power : Int) : Nat × Nat :=
  if 0 ≤ power then (num, den * Nat.pow 2 power.toNat)
  else (num * Nat.pow 2 (-power).toNat, den)

namespace Binary

/-- The number of bits of a full mantissa. -/
def mantissaBits : Nat := 53

/-- The least power of two of a finite number. -/
def minExponent : Int := -1074

/-- The greatest power of two of a finite number. -/
def maxExponent : Int := 971

/-- The finite number of that sign that is zero. -/
def signedZero (negative : Bool) : Binary := .finite negative 0 minExponent

/-- The number nearest to `± num / den`. -/
def ofFraction (negative : Bool) (num den : Nat) : Binary :=
  if num = 0 then signedZero negative
  else
    let estimate : Int := (num.log2 : Int) - den.log2 - mantissaBits
    let (n, d) := scaleDown num den estimate
    let exact := if n / d < Nat.pow 2 mantissaBits then estimate else estimate + 1
    let exponent := max exact minExponent
    let (n, d) := scaleDown num den exponent
    let mantissa := roundDiv n d
    let (mantissa, exponent) :=
      if mantissa = Nat.pow 2 mantissaBits then (Nat.pow 2 (mantissaBits - 1), exponent + 1)
      else (mantissa, exponent)
    if exponent > maxExponent then .infinite negative else .finite negative mantissa exponent

/-- The number nearest to `± digits * 10 ^ power`. A fraction far outside the range is not
computed: it is infinite or zero. -/
def ofDecimal (negative : Bool) (digits : Nat) (power : Int) : Binary :=
  let magnitude := (Nat.toDigits 10 digits).length + power
  if digits = 0 ∨ magnitude < -330 then signedZero negative
  else if magnitude > 330 then .infinite negative
  else if 0 ≤ power then ofFraction negative (digits * Nat.pow 10 power.toNat) 1
  else ofFraction negative digits (Nat.pow 10 (-power).toNat)

/-- The number nearest to a whole number. -/
def ofInt (n : Int) : Binary :=
  ofFraction (n < 0) n.natAbs 1

/-- The magnitude of a finite number as a fraction. -/
def fraction (mantissa : Nat) (exponent : Int) : Nat × Nat :=
  scaleDown mantissa 1 (-exponent)

/-- The whole number that remains when the fraction of a finite number is dropped. -/
def truncate (negative : Bool) (mantissa : Nat) (exponent : Int) : Int :=
  let (n, d) := fraction mantissa exponent
  if negative then -((n / d : Nat) : Int) else (n / d : Nat)

end Binary

end Editorial.Number
