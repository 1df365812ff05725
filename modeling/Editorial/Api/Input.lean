import Editorial.Failure
import Editorial.Store.Row

/-!
# Values taken from requests

How ids are read from the fields of a request body and from the header that names the acting user.
A field holds a whole number or its digits; initial assignments are an object or a list of pairs,
with ids in any form that denotes a whole number.
-/

namespace Editorial.Api

open Json Number Text

/-! ### Single numbers -/

/-- Whether a text consists of digits, blanks around them aside. -/
def isDigits (s : String) : Bool :=
  let digits := (strip s).toList
  !digits.isEmpty && digits.all isDigit

/-- The whole number that a value of a field stands for: a whole number itself, or a text of digits.
A text of digits that is no numeral, because some digit of it has no place value, is a failure. -/
def wholeNumber? : Json → Except Failure (Option Int)
  | .int n => .ok (some n)
  | .text (.whole s) =>
      if isDigits s then
        match readInteger s with
        | .ok n => .ok (some n)
        | .error e => .error (.notWhole (.numeral e))
      else .ok none
  | _ => .ok none

/-- The whole number in a field. -/
def wholeField (fields : Fields) (name : String) : Except Failure (Option Int) :=
  wholeNumber? (field fields name)

/-- The user whom the user header names, if it names one. -/
def userOfHeader? (header : Option String) : Option Int :=
  let header := strip (header.getD "")
  if header.isEmpty then none
  else
    match readInteger header with
    | .ok n => some n
    | .error _ => none

/-! ### Initial assignments -/

/-- The two parts of a value that has exactly two: an array, a text, by character, or an object, by
field name. -/
def pair? : Json → Option (Json × Json)
  | .array [a, b] => some (a, b)
  | .text w =>
      match w.pieces with
      | [a, b] => some (.text (.ofPieces [a]), .text (.ofPieces [b]))
      | _ => none
  | .object [a, b] => some (.text a.1, .text b.1)
  | _ => none

/-- The pairs that a value lists, each if it is one: the fields of an object or the items of an
array. The items of a text are its characters, none of which is a pair. -/
def pairs? : Json → Option (List (Option (Json × Json)))
  | .null => some []
  | .object fields => some (fields.map fun f => some (.text f.1, f.2))
  | .array items => some (items.map pair?)
  | .text w => some (w.pieces.map fun _ => none)
  | _ => none

/-- The whole number that an id denotes, nothing if it denotes none. An infinite number is a
failure. -/
def idOf? (v : Json) : Except Failure (Option Int) :=
  match v.whole with
  | .ok n => .ok (some n)
  | .error .infinite => .error (.notWhole .infinite)
  | .error _ => .ok none

/-- Puts users in slots pair by pair, a later pair for a slot replacing an earlier one; nothing when
some item is no pair of ids. The result is in ascending order of slots. -/
def assignAll (seats : List Seat) :
    List (Option (Json × Json)) → Except Failure (Option (List Seat))
  | [] => .ok (some seats)
  | none :: _ => .ok none
  | some (slot, user) :: rest => do
      match ← idOf? user with
      | none => return none
      | some user =>
          match ← idOf? slot with
          | none => return none
          | some slot => assignAll (Draft.putSeat slot user seats) rest

/-- The initial assignments that a value stands for, in ascending order of slots. -/
def assignments (v : Json) : Except Failure (Option (List Seat)) :=
  match pairs? v with
  | none => .ok none
  | some pairs => assignAll [] pairs

/-! ### Lemmas -/

theorem wholeNumber?_int (n : Int) : wholeNumber? (.int n) = .ok (some n) := rfl

end Editorial.Api
