import Editorial.Json.Literal

/-!
# Whole numbers from JSON values

Ids arrive as numbers or as numerals. `whole` is the generous reading: it truncates fractions and
counts the truth values as one and zero. `Json.asIndex?` is the strict one: nothing but a whole
number.
-/

namespace Editorial

open Number Text

/-- Why a value denotes no whole number. -/
inductive NotWhole where
  /-- A text that is no numeral. -/
  | numeral (e : NumeralError)
  /-- The value that is no number. -/
  | nan
  /-- An infinity. -/
  | infinite
  /-- A value that is neither a number nor a text. -/
  | shape (v : Json)
  deriving Repr

namespace Json

/-- The whole number that a value denotes. -/
def whole : Json → Except NotWhole Int
  | int n => .ok n
  | bool b => .ok (if b then 1 else 0)
  | float (.finite negative mantissa exponent) => .ok (Binary.truncate negative mantissa exponent)
  | float .nan => .error .nan
  | float (.infinite _) => .error .infinite
  | text (.whole s) => (readInteger s).mapError NotWhole.numeral
  | text (.torn ps) => .error (.numeral (notANumeral (.torn ps)))
  | v => .error (.shape v)

/-- The whole number that a value is. -/
def asIndex? : Json → Option Int
  | int n => some n
  | _ => none

/-! ### Lemmas -/

theorem asIndex?_eq_some_iff {v : Json} {n : Int} : v.asIndex? = some n ↔ v = int n := by
  cases v <;> simp [asIndex?]

end Json

end Editorial
