import Editorial.Number.Binary
import Editorial.Number.Numeral

/-!
# Shortest decimal text

The decimal text of a binary fraction is the shortest one that reads back as the same number, and of
those the nearest. `shortest` finds its digits in exact arithmetic: a decimal with `k` digits lies
in the interval of reals that round to the number exactly if one of the number's two neighbours on
the grid of `k` digits does. `Binary.text` lays the digits out.
-/

namespace Editorial.Number

/-- The decimal `digits * 10 ^ power`. -/
structure Decimal where
  digits : Nat
  power : Int
  deriving DecidableEq, Repr

namespace Binary

/-- The exponent `e` with `10 ^ e ≤ num / den < 10 ^ (e + 1)`, for a positive fraction. -/
def leadingPower (num den : Nat) : Int :=
  if den ≤ num then ((Nat.toDigits 10 (num / den)).length : Int) - 1
  else
    let places := (Nat.toDigits 10 (den / num)).length - 1
    if den ≤ num * Nat.pow 10 places then -(places : Int) else -(places : Int) - 1

/-- A decimal as a fraction. -/
def decimalFraction (x : Decimal) : Nat × Nat :=
  if 0 ≤ x.power then (x.digits * Nat.pow 10 x.power.toNat, 1)
  else (x.digits, Nat.pow 10 (-x.power).toNat)

/-- Whether `x` lies among the reals that round to the positive number
`mantissa * 2 ^ exponent`. The ends of that interval belong to it for an even mantissa; below a
power of two the interval reaches half as far. -/
def roundsTo (mantissa : Nat) (exponent : Int) (x : Decimal) : Bool :=
  let (n, d) := decimalFraction x
  let (low, unit) := scaleDown
    (if mantissa = Nat.pow 2 (mantissaBits - 1) ∧ minExponent < exponent then 4 * mantissa - 1
     else 4 * mantissa - 2) 4 (-exponent)
  let (high, _) := scaleDown (4 * mantissa + 2) 4 (-exponent)
  if mantissa % 2 = 0 then low * d ≤ n * unit && n * unit ≤ high * d
  else low * d < n * unit && n * unit < high * d

/-- The neighbours of `num / den` among the multiples of `10 ^ power`, the lower one first. -/
def neighbours (num den : Nat) (power : Int) : Decimal × Decimal :=
  let lower := if 0 ≤ power then num / (den * Nat.pow 10 power.toNat)
    else num * Nat.pow 10 (-power).toNat / den
  (⟨lower, power⟩, ⟨lower + 1, power⟩)

/-- Twice the distance from `num / den` to the lower neighbour, compared with the grid: whether the
lower neighbour is the nearer one, an exact tie going to the even one. -/
def lowerIsNearer (num den : Nat) (lower : Decimal) : Bool :=
  let (n, d) := if 0 ≤ lower.power then (num, den * Nat.pow 10 lower.power.toNat)
    else (num * Nat.pow 10 (-lower.power).toNat, den)
  roundDiv n d == lower.digits

/-- The first hit among the grids with `k`, `k + 1`, … digits. -/
def searchGrids (mantissa : Nat) (exponent : Int) (num den : Nat) (leading : Int) :
    List Nat → Option Decimal
  | [] => none
  | k :: more =>
      let (lower, upper) := neighbours num den (leading - k)
      match roundsTo mantissa exponent lower, roundsTo mantissa exponent upper with
      | true, true => some (if lowerIsNearer num den lower then lower else upper)
      | true, false => some lower
      | false, true => some upper
      | false, false => searchGrids mantissa exponent num den leading more

/-- A decimal without trailing zeros among its digits; `fuel` bounds their number. -/
def dropZeros : Nat → Decimal → Decimal
  | 0, x => x
  | fuel + 1, x =>
      if x.digits ≠ 0 ∧ x.digits % 10 = 0 then dropZeros fuel ⟨x.digits / 10, x.power + 1⟩ else x

/-- The shortest decimal that reads back as the positive number `mantissa * 2 ^ exponent`, and of
those the nearest. Seventeen digits always suffice. -/
def shortest (mantissa : Nat) (exponent : Int) : Decimal :=
  let (num, den) := fraction mantissa exponent
  let leading := leadingPower num den
  match searchGrids mantissa exponent num den leading (List.range 17) with
  | some x => dropZeros 18 x
  | none => ⟨mantissa, 0⟩

/-- The sign of a number as text. -/
def signText (negative : Bool) : String := if negative then "-" else ""

/-- Digits laid out without an exponent: a point, and at least one digit on either side of it. -/
def positional (digits : List Char) (power : Int) : List Char :=
  if 0 ≤ power then digits ++ List.replicate power.toNat '0' ++ ['.', '0']
  else
    let places := (-power).toNat
    if places < digits.length then
      digits.take (digits.length - places) ++ '.' :: digits.drop (digits.length - places)
    else '0' :: '.' :: (List.replicate (places - digits.length) '0' ++ digits)

/-- An exponent of ten as text: a sign and at least two digits. -/
def exponentText (e : Int) : List Char :=
  let digits := Nat.toDigits 10 e.natAbs
  (if e < 0 then '-' else '+') :: (if digits.length < 2 then '0' :: digits else digits)

/-- Digits laid out with one digit before the point and an exponent. -/
def scientific (digits : List Char) (e : Int) : List Char :=
  match digits with
  | [] => []
  | [d] => d :: 'e' :: exponentText e
  | d :: more => d :: '.' :: (more ++ 'e' :: exponentText e)

/-- The digits of a decimal laid out: without an exponent from `10 ^ -4` up to below `10 ^ 16`. -/
def layOut (x : Decimal) : String :=
  let digits := Nat.toDigits 10 x.digits
  let e := x.power + digits.length - 1
  String.ofList (if -4 ≤ e ∧ e < 16 then positional digits x.power else scientific digits e)

/-- The text of a number. -/
def text : Binary → String
  | .finite negative mantissa exponent =>
      signText negative ++ (if mantissa = 0 then "0.0" else layOut (shortest mantissa exponent))
  | .infinite negative => signText negative ++ "inf"
  | .nan => "nan"

end Binary

end Editorial.Number
