/-!
# Searching with comparisons that may fail

Where an element belongs in a sorted list is found out by asking of single elements whether they
come ahead of it. The question may fail, and then so does the search; which elements are asked is
therefore fixed. `placeFor` halves a stretch of the list. `search` begins at some element and goes
on in growing leaps before it halves what it has leapt over.
-/

namespace Editorial.Ordered

variable {α ε : Type}

/-- The place between `low` and `low + width` behind all elements that come ahead. -/
def placeFor (ahead : α → Except ε Bool) (l : List α) (low : Nat) :
    (width : Nat) → Except ε Nat
  | 0 => .ok low
  | width + 1 =>
      match l[low + (width + 1) / 2]? with
      | none => .ok low
      | some b => do
          if ← ahead b then
            placeFor ahead l (low + (width + 1) / 2 + 1) (width - (width + 1) / 2)
          else placeFor ahead l low ((width + 1) / 2)
termination_by width => width

/-- Leaps from `next` on as long as the test succeeds, each more than twice as far from the origin
as the one before and none as far as the limit: the distance last reached, and the one where the
leaps end. -/
def leaps (test : Nat → Except ε Bool) (limit last next : Nat) : Except ε (Nat × Nat) :=
  if next < limit then do
    if ← test next then leaps test limit next (2 * next + 1) else return (last, next)
  else .ok (last, limit)
termination_by limit - next

/-- Whether the element at an index comes ahead. -/
def isAheadAt (ahead : α → Except ε Bool) (l : List α) (index : Nat) : Except ε Bool :=
  match l[index]? with
  | some a => ahead a
  | none => .ok false

/-- The place behind all elements that come ahead, looked for from an index on. -/
def search (ahead : α → Except ε Bool) (l : List α) (index : Nat) : Except ε Nat := do
  if ← isAheadAt ahead l index then
    let (last, next) ← leaps (fun n => isAheadAt ahead l (index + n)) (l.length - index) 0 1
    placeFor ahead l (index + last + 1) (next - last - 1)
  else
    let (last, next) ← leaps (fun n => (isAheadAt ahead l (index - n)).map not) (index + 1) 0 1
    placeFor ahead l (index + 1 - next) (next - last - 1)

end Editorial.Ordered
