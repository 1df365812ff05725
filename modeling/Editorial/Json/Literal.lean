import Editorial.Json.Basic
import Editorial.Number.Shortest
import Editorial.Text.Quoted

/-!
# Values inside messages

How a JSON value is shown inside a message: texts quoted, `None`, `True` and `False` for null and
the truth values, lists in brackets and objects in braces. `plain` shows a text without quotes.
-/

namespace Editorial.Json

open Number Text

/-- The word for a truth value. -/
def truthWord (b : Bool) : String := if b then "True" else "False"

mutual

/-- A value as it is shown inside a message. -/
def literal : Json → String
  | null => "None"
  | bool b => truthWord b
  | int n => integerText n
  | float x => x.text
  | text w => quoted w
  | array items => "[" ++ literalItems items ++ "]"
  | object fields => "\x7b" ++ literalFields fields ++ "\x7d"

/-- The items of a list, separated by commas. -/
def literalItems : List Json → String
  | [] => ""
  | [v] => literal v
  | v :: vs => literal v ++ ", " ++ literalItems vs

/-- The fields of an object, separated by commas. -/
def literalFields : List (Wording × Json) → String
  | [] => ""
  | [(k, v)] => quoted k ++ ": " ++ literal v
  | (k, v) :: fs => quoted k ++ ": " ++ literal v ++ ", " ++ literalFields fs

end

/-- A value inside running text: a text as it is, any other value as its literal. -/
def plain : Json → String
  | text w => w.shown
  | v => literal v

end Editorial.Json
