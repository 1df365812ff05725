import Editorial.Failure
import Editorial.Json.Size
import Editorial.Ordered.Arrange
import Editorial.Store.Row

/-!
# Placements

Who is to sit where when a draft is begun. Placements come as pairs of values for a slot and a user.
Of several pairs for one slot the last one counts (`Placement.ofPairs`). They are examined in
ascending order of the slots (`Placement.inOrder`), which not every two values have: numbers are
ordered by size, texts by characters, and nothing else. What number a value denotes is only asked
when its pair is examined.
-/

namespace Editorial

open Number

/-- A user who is to sit in a slot, both as given. -/
structure Placement where
  slot : Json
  user : Json

namespace Placement

/-- The placement that asks for a seat. -/
def ofSeat (seat : Seat) : Placement := ⟨.int seat.slot, .int seat.user⟩

/-- Whether one value for a slot comes before another: numbers by size, texts by characters. -/
def before (a b : Json) : Except Failure Bool :=
  match a.size?, b.size? with
  | some x, some y => .ok (x.below y)
  | none, none =>
      match a, b with
      | .text s, .text t => .ok (s.before t)
      | _, _ => .error (.unordered a b)
  | _, _ => .error (.unordered a b)

/-- Adds a placement; one for the same slot keeps its place and gets the new user. -/
def put (placements : List Placement) (new : Placement) : List Placement :=
  if placements.any fun p => p.slot.same new.slot then
    placements.map fun p => if p.slot.same new.slot then { p with user := new.user } else p
  else placements ++ [new]

/-- The placements that pairs ask for, in the order in which the slots first occur. -/
def ofPairs (pairs : List (Json × Json)) : Except Failure (List Placement) :=
  match pairs.find? fun p => !p.1.isKey with
  | some p => .error (.incomparable p.1)
  | none => .ok ((pairs.map fun p => ⟨p.1, p.2⟩).foldl put [])

/-- The placements in the order in which they are examined. -/
def inOrder (placements : List Placement) : Except Failure (List Placement) :=
  Ordered.arrange (fun a b => before a.slot b.slot) placements

/-! ### Lemmas -/

theorem inOrder_perm {placements ordered : List Placement}
    (h : inOrder placements = .ok ordered) : ordered.Perm placements :=
  Ordered.arrange_perm h

end Placement

end Editorial
