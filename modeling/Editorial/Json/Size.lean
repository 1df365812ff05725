import Editorial.Json.Basic

/-!
# Comparing values

Where values lie among the numbers, and when two values count as equal: numbers of whatever notation
by size, the truth values being one and zero, and everything else by form.
-/

namespace Editorial.Json

open Number

/-- Where a number lies among the numbers. -/
inductive Size where
  /-- Below all others. -/
  | least
  | fraction (num : Int) (den : Nat)
  /-- Above all others. -/
  | greatest
  /-- Nowhere. -/
  | unknown

/-- Whether one number lies below another. -/
def Size.below : Size → Size → Bool
  | fraction p q, fraction r t => p * t < r * q
  | least, fraction .. | least, greatest | fraction .., greatest => true
  | _, _ => false

/-- Whether two numbers lie at one place. -/
def Size.same : Size → Size → Bool
  | fraction p q, fraction r t => p * t == r * q
  | least, least | greatest, greatest | unknown, unknown => true
  | _, _ => false

/-- Where a value lies among the numbers, if it is a number; the truth values are one and zero. -/
def size? : Json → Option Size
  | int n => some (.fraction n 1)
  | bool b => some (.fraction (if b then 1 else 0) 1)
  | float (.finite negative mantissa exponent) =>
      let (num, den) := Binary.fraction mantissa exponent
      some (.fraction (if negative then -num else num) den)
  | float (.infinite negative) => some (if negative then .least else .greatest)
  | float .nan => some .unknown
  | _ => none

/-- Whether two values count as equal. -/
def same (a b : Json) : Bool :=
  match a.size?, b.size? with
  | some x, some y => x.same y
  | none, none => a == b
  | _, _ => false

/-- Whether a value can be looked up among others: arrays and objects cannot. -/
def isKey : Json → Bool
  | array _ | object _ => false
  | _ => true

end Editorial.Json
