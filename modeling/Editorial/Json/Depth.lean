import Editorial.Json.Basic

/-!
# Depth of values

How deep arrays and objects are nested in a value.
-/

namespace Editorial.Json

open Text

mutual

/-- How deep arrays and objects are nested. -/
def depth : Json → Nat
  | array items => itemsDepth items + 1
  | object fields => fieldsDepth fields + 1
  | _ => 0

/-- The depth of the deepest of some values. -/
def itemsDepth : List Json → Nat
  | [] => 0
  | v :: vs => max v.depth (itemsDepth vs)

/-- The depth of the deepest value of some fields. -/
def fieldsDepth : List (Wording × Json) → Nat
  | [] => 0
  | (_, v) :: fs => max v.depth (fieldsDepth fs)

end

end Editorial.Json
