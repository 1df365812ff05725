import Editorial.Number.Binary
import Editorial.Text.Piece

/-!
# JSON values

Values as they arrive in requests and are kept in event payloads. A number written without point or
exponent is a whole number of any size, any other number a binary fraction. The fields of an object
keep their order, and no two of them have the same name when they come from the reader. A missing
field reads as null. Half characters may stand in texts and in the names of fields.
-/

namespace Editorial

open Number Text

/-- A JSON value. -/
inductive Json where
  | null
  | bool (b : Bool)
  | int (n : Int)
  | float (x : Binary)
  | text (w : Wording)
  | array (items : List Json)
  | object (fields : List (Wording × Json))
  deriving Repr, BEq, Inhabited

namespace Json

/-- The fields of an object. -/
abbrev Fields := List (Wording × Json)

/-- The value of a field, if there is one of that name. -/
def find? (fields : Fields) (name : Wording) : Option Json :=
  fields.lookup name

/-- The value of a field; a missing one reads as null. -/
def field (fields : Fields) (name : Wording) : Json :=
  (find? fields name).getD null

/-- Sets a field: a field of that name keeps its place and gets the new value, otherwise the field
is added at the end. -/
def put (fields : Fields) (name : Wording) (value : Json) : Fields :=
  if (find? fields name).isSome then
    fields.map fun f => if f.1 = name then (name, value) else f
  else fields ++ [(name, value)]

/-- Fields with further fields behind them. -/
def extend (fields more : Fields) : Fields := fields ++ more

/-- An object from fields of which a later one replaces an earlier one of the same name. -/
def ofFields (fields : Fields) : Json :=
  object (fields.foldl (fun acc f => put acc f.1 f.2) [])

/-- An ordinary text. -/
def ofText (s : String) : Json := text s

/-- A value that may be absent, null when it is. -/
def ofOption {α : Type} (f : α → Json) : Option α → Json
  | none => null
  | some a => f a

/-- An array of whole numbers. -/
def ofInts (ns : List Int) : Json := array (ns.map int)

/-- An array of texts. -/
def ofTexts (ss : List String) : Json := array (ss.map ofText)

/-- What stands in an array; in any other value there is nothing. -/
def items : Json → List Json
  | array items => items
  | _ => []

/-- A field of an object; in any other value it is missing. -/
def member (v : Json) (name : String) : Json :=
  match v with
  | object fields => field fields name
  | _ => null

/-- Whether a value is null. -/
def isNull : Json → Bool
  | null => true
  | _ => false

/-- Whether a value counts as given: null, false, zero and everything empty do not. -/
def isGiven : Json → Bool
  | null => false
  | bool b => b
  | int n => n ≠ 0
  | float (.finite _ mantissa _) => mantissa ≠ 0
  | float _ => true
  | text w => !w.pieces.isEmpty
  | array items => !items.isEmpty
  | object fields => !fields.isEmpty

end Json

end Editorial
