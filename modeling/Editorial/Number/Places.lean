import Editorial.Number.Shortest

/-!
# Decimal places

Binary fractions written with a given number of decimal places: `fixed` without an exponent,
`scientific` with one digit in front of the point and an exponent, and `general` with a number of
leading digits, in whichever of the two ways is the shorter one. What is written is the exact value
rounded once, a tie going to the even digit. All of them write the magnitude; the sign stands apart.
-/

namespace Editorial.Number.Binary

/-- A number of units of `10 ^ -places` with a point in front of the last `places` digits. Without
decimal places there is a point only where `point` asks for it. -/
def pointed (places : Nat) (point : Bool) (units : Nat) : List Char :=
  let digits := Nat.toDigits 10 units
  let digits := List.replicate (places + 1 - digits.length) '0' ++ digits
  let whole := digits.take (digits.length - places)
  if places = 0 ∧ point = false then whole
  else whole ++ '.' :: digits.drop (digits.length - places)

/-- The number of units of `10 ^ power` that is nearest to a fraction. -/
def nearestUnits (num den : Nat) (power : Int) : Nat :=
  if 0 ≤ power then roundDiv num (den * Nat.pow 10 power.toNat)
  else roundDiv (num * Nat.pow 10 (-power).toNat) den

/-- A fraction as one digit with `places` decimal places, in units of the last of them, and the
exponent of ten. -/
def significand (places num den : Nat) : Nat × Int :=
  if num = 0 then (0, 0)
  else
    let e := leadingPower num den
    let units := nearestUnits num den (e - places)
    if units = Nat.pow 10 (places + 1) then (Nat.pow 10 places, e + 1) else (units, e)

/-- A fraction with decimal places and without an exponent. -/
def fixedDigits (places : Nat) (point : Bool) (num den : Nat) : List Char :=
  pointed places point (nearestUnits num den (-(places : Int)))

/-- A fraction with one digit in front of the point, decimal places and an exponent. -/
def scientificDigits (places : Nat) (point : Bool) (num den : Nat) : List Char :=
  let (units, e) := significand places num den
  pointed places point units ++ 'e' :: exponentText e

/-- Digits with a point without the zeros at the end, and without the point if it ends them then. -/
def trimZeros (digits : List Char) : List Char :=
  let kept := (digits.reverse.dropWhile (· = '0')).reverse
  if kept.getLast? = some '.' then kept.dropLast else kept

/-- More leading digits than a binary fraction has. -/
def enoughDigits : Nat := 1100

/-- A fraction with a number of leading digits. `full` keeps the zeros at the end. -/
def generalDigits (leading : Nat) (full : Bool) (num den : Nat) : List Char :=
  let leading := max 1 (if full then leading else min leading enoughDigits)
  let (units, e) := significand (leading - 1) num den
  let shown (places : Nat) (units : Nat) : List Char :=
    if full then pointed places true units
    else if places = 0 then pointed 0 false units
    else trimZeros (pointed places false units)
  if -4 ≤ e ∧ e < leading then shown (leading - 1 - e).toNat units
  else shown (leading - 1) units ++ 'e' :: exponentText e

/-- The magnitude of a number, given how that of a finite one is written. -/
def magnitudeText (digits : (num den : Nat) → List Char) : Binary → List Char
  | .finite _ mantissa exponent =>
      let (num, den) := fraction mantissa exponent
      digits num den
  | .infinite _ => "inf".toList
  | .nan => "nan".toList

/-- Whether a number has a minus in front. -/
def isNegative : Binary → Bool
  | .finite negative _ _ => negative
  | .infinite negative => negative
  | .nan => false

/-- The text of a number rounded to a whole one. -/
def wholeText (x : Binary) : String :=
  signText x.isNegative ++ String.ofList (x.magnitudeText (fixedDigits 0 false))

end Editorial.Number.Binary
