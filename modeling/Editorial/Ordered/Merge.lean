import Editorial.Ordered.Search

/-!
# Merging with comparisons that may fail

Two neighbouring runs of sorted elements are merged (`mergeRuns`). What of them is in its place
already is left alone. The rest is merged from the end at which the shorter run lies away
(`Direction`), element by element as long as the runs take turns, and in leaps as soon as one of
them has come first often enough; how often that is depends on how well leaping has paid so far
(`patience`). The result consists of the same elements (`mergeRuns_perm`).
-/

namespace Editorial.Ordered

variable {α ε : Type}

/-- From which end two runs are merged. -/
inductive Direction where
  /-- From the first elements on; the left run is not the longer one. -/
  | upward
  /-- From the last elements on; the right run is the shorter one. -/
  | downward
  deriving DecidableEq, Repr

/-- Two runs of which some elements have been merged. -/
structure Merging (α : Type) where
  /-- The elements merged so far, last one first. -/
  placed : List α
  /-- What is left of the left run, beginning with the next element. -/
  left : List α
  /-- What is left of the right run, beginning with the next element. -/
  right : List α

namespace Merging

/-- Takes the next elements of the left run. -/
def takeLeft (m : Merging α) (n : Nat) : Merging α :=
  { m with placed := (m.left.take n).reverse ++ m.placed, left := m.left.drop n }

/-- Takes the next elements of the right run. -/
def takeRight (m : Merging α) (n : Nat) : Merging α :=
  { m with placed := (m.right.take n).reverse ++ m.placed, right := m.right.drop n }

/-- All elements. -/
def elements (m : Merging α) : List α := m.placed ++ (m.left ++ m.right)

end Merging

namespace Direction

/-- The direction for runs of those lengths. -/
def of (left right : Nat) : Direction := if left ≤ right then upward else downward

/-- Two runs of which none has been merged yet but the end of the longer one, which comes first. -/
def start : Direction → List α → List α → Merging α
  | upward, left, right => Merging.takeRight ⟨[], left, right⟩ 1
  | downward, left, right => Merging.takeLeft ⟨[], left.reverse, right.reverse⟩ 1

/-- Whether nothing needs to be compared any more: the longer run is used up, or of the shorter one
there is but its far end, which comes last. -/
def isDone : Direction → Merging α → Bool
  | upward, m => m.left.length ≤ 1 || m.right.isEmpty
  | downward, m => m.left.isEmpty || m.right.length ≤ 1

/-- The merged elements in ascending order, what is left of the shorter run at the far end. -/
def result : Direction → Merging α → List α
  | upward, m => m.placed.reverse ++ (m.right ++ m.left)
  | downward, m => (m.left ++ m.right).reverse ++ m.placed

/-- The number of elements at the near end of a run that come first, given which elements belong to
the lower part of the run. -/
def countNear (low : α → Except ε Bool) : Direction → List α → Except ε Nat
  | upward, run => search low run 0
  | downward, run => do
      let n ← search low run.reverse (run.length - 1)
      return run.length - n

end Direction

/-- How two runs are being merged. -/
inductive Pace where
  /-- Element by element: how often in a row the left and the right run came first. -/
  | walk (lefts rights : Nat)
  | leap
  deriving DecidableEq, Repr

/-- How often in a row one run has to come first, or by how many elements a leap has to go, for
leaping to pay. -/
def worthLeaping : Nat := 7

/-- The pace after a step element by element. -/
def Pace.afterStep (patience lefts rights : Nat) : Pace :=
  if patience ≤ lefts ∨ patience ≤ rights then leap else walk lefts rights

namespace Merging

/-- Whether the next element of the right run is to be taken, and not that of the left one. -/
def takesRight (lt : α → α → Except ε Bool) (d : Direction) (m : Merging α) : Except ε Bool :=
  match m.left, m.right with
  | a :: _, b :: _ =>
      match d with
      | .upward => lt b a
      | .downward => (lt b a).map not
  | _, _ => .ok true

/-- The number of elements of the left run before the next one of the right run. -/
def countLeft (lt : α → α → Except ε Bool) (d : Direction) (m : Merging α) : Except ε Nat :=
  match m.right with
  | b :: _ => d.countNear (fun a => (lt b a).map not) m.left
  | [] => .ok 0

/-- The number of elements of the right run before the next one of the left run. -/
def countRight (lt : α → α → Except ε Bool) (d : Direction) (m : Merging α) : Except ε Nat :=
  match m.left with
  | a :: _ => d.countNear (fun b => lt b a) m.right
  | [] => .ok 0

/-- One leap of each run, each followed by the element that ended it; with the length of the longer
leap unless the merging is done before. -/
def leapBoth (lt : α → α → Except ε Bool) (d : Direction) (m : Merging α) :
    Except ε (Merging α × Option Nat) := do
  let lefts ← m.countLeft lt d
  let m := m.takeLeft lefts
  if d.isDone m then return (m, none)
  let m := m.takeRight 1
  if d.isDone m then return (m, none)
  let rights ← m.countRight lt d
  let m := m.takeRight rights
  if d.isDone m then return (m, none)
  let m := m.takeLeft 1
  if d.isDone m then return (m, none)
  return (m, some (max lefts rights))

/-- Merges on until nothing needs to be compared any more; the result includes the patience. The
fuel bounds the number of elements. -/
def run (lt : α → α → Except ε Bool) (d : Direction) :
    (fuel : Nat) → Pace → (patience : Nat) → Merging α → Except ε (Merging α × Nat)
  | 0, _, patience, m => .ok (m, patience)
  | fuel + 1, pace, patience, m =>
      if d.isDone m then .ok (m, patience)
      else
        match pace with
        | .walk lefts rights => do
            if ← m.takesRight lt d then
              run lt d fuel (.afterStep patience 0 (rights + 1)) patience (m.takeRight 1)
            else run lt d fuel (.afterStep patience (lefts + 1) 0) patience (m.takeLeft 1)
        | .leap => do
            match ← m.leapBoth lt d with
            | (m, none) => return (m, patience)
            | (m, some length) =>
                if worthLeaping ≤ length then run lt d fuel .leap (max 1 (patience - 1)) m
                else run lt d fuel (.walk 0 0) (patience + 1) m

end Merging

/-- Two sorted lists merged from one end, and the patience afterwards. -/
def mergeFrom (lt : α → α → Except ε Bool) (d : Direction) (patience : Nat) (left right : List α) :
    Except ε (List α × Nat) := do
  let (m, patience) ←
    (d.start left right).run lt d (left.length + right.length) (.walk 0 0) patience
  return (d.result m, patience)

/-- Two sorted lists merged, and the patience afterwards. -/
def mergeRuns (lt : α → α → Except ε Bool) (patience : Nat) (left right : List α) :
    Except ε (List α × Nat) :=
  match left.getLast?, right.head? with
  | some last, some first => do
      let kept ← search (fun a => (lt first a).map not) left 0
      if (left.drop kept).isEmpty then return (left ++ right, patience)
      let moved ← search (fun b => lt b last) right (right.length - 1)
      if moved = 0 then return (left ++ right, patience)
      let (middle, patience) ←
        mergeFrom lt (.of (left.length - kept) moved) patience (left.drop kept) (right.take moved)
      return (left.take kept ++ middle ++ right.drop moved, patience)
  | _, _ => .ok (left ++ right, patience)

/-! ### Lemmas -/

theorem Except.bind_eq_ok {α β ε : Type} {x : Except ε α} {f : α → Except ε β} {b : β}
    (h : (x >>= f) = .ok b) : ∃ a, x = .ok a ∧ f a = .ok b := by
  cases x with
  | error e => cases h
  | ok a => exact ⟨a, rfl, h⟩

namespace Merging

theorem elements_takeLeft (m : Merging α) (n : Nat) :
    (m.takeLeft n).elements.Perm m.elements := by
  have h : m.placed ++ (m.left ++ m.right) =
      m.placed ++ (m.left.take n ++ (m.left.drop n ++ m.right)) := by
    rw [← List.append_assoc (m.left.take n), List.take_append_drop]
  simp only [elements, takeLeft]
  rw [h, ← List.append_assoc m.placed]
  exact (((List.reverse_perm _).append_right _).trans List.perm_append_comm).append_right _

theorem elements_takeRight (m : Merging α) (n : Nat) :
    (m.takeRight n).elements.Perm m.elements := by
  have h : (m.left ++ m.right.take n ++ m.right.drop n) = m.left ++ m.right := by
    rw [List.append_assoc, List.take_append_drop]
  simp only [elements, takeRight]
  rw [← h, ← List.append_assoc, ← List.append_assoc]
  refine List.Perm.append_right _ ?_
  calc ((m.right.take n).reverse ++ m.placed ++ m.left).Perm
        (m.right.take n ++ (m.placed ++ m.left)) := by
          rw [List.append_assoc]
          exact (List.reverse_perm _).append_right _
    _ |>.Perm (m.placed ++ m.left ++ m.right.take n) := List.perm_append_comm
    _ = m.placed ++ (m.left ++ m.right.take n) := List.append_assoc _ _ _

theorem elements_leapBoth {lt : α → α → Except ε Bool} {d : Direction} {m m' : Merging α}
    {length : Option Nat} (h : m.leapBoth lt d = .ok (m', length)) :
    m'.elements.Perm m.elements := by
  unfold leapBoth at h
  obtain ⟨lefts, -, h⟩ := Except.bind_eq_ok h
  dsimp only at h
  have h₁ := elements_takeLeft m lefts
  generalize m.takeLeft lefts = m₁ at h h₁
  split at h
  · cases h
    exact h₁
  have h₂ := (elements_takeRight m₁ 1).trans h₁
  generalize m₁.takeRight 1 = m₂ at h h₂
  split at h
  · cases h
    exact h₂
  obtain ⟨rights, -, h⟩ := Except.bind_eq_ok h
  have h₃ := (elements_takeRight m₂ rights).trans h₂
  generalize m₂.takeRight rights = m₃ at h h₃
  split at h
  · cases h
    exact h₃
  have h₄ := (elements_takeLeft m₃ 1).trans h₃
  generalize m₃.takeLeft 1 = m₄ at h h₄
  split at h
  · cases h
    exact h₄
  · cases h
    exact h₄

theorem elements_run {lt : α → α → Except ε Bool} {d : Direction} {fuel : Nat} {pace : Pace}
    {patience patience' : Nat} {m m' : Merging α}
    (h : m.run lt d fuel pace patience = .ok (m', patience')) :
    m'.elements.Perm m.elements := by
  induction fuel generalizing pace patience m with
  | zero =>
      cases h
      exact List.Perm.refl _
  | succ fuel ih =>
      unfold run at h
      split at h
      · cases h
        exact List.Perm.refl _
      · split at h
        · obtain ⟨right, -, h⟩ := Except.bind_eq_ok h
          split at h
          · exact (ih h).trans (elements_takeRight m 1)
          · exact (ih h).trans (elements_takeLeft m 1)
        · obtain ⟨⟨m₁, length⟩, h₁, h⟩ := Except.bind_eq_ok h
          have hp := elements_leapBoth h₁
          split at h
          · rename_i heq
            cases heq
            cases h
            exact hp
          · rename_i heq
            cases heq
            split at h
            · exact (ih h).trans hp
            · exact (ih h).trans hp

end Merging

theorem Direction.result_perm (d : Direction) (m : Merging α) :
    (d.result m).Perm m.elements := by
  cases d with
  | upward => exact (List.reverse_perm _).append List.perm_append_comm
  | downward => exact ((List.reverse_perm _).append_right _).trans List.perm_append_comm

theorem Direction.elements_start (d : Direction) (left right : List α) :
    (d.start left right).elements.Perm (left ++ right) := by
  cases d with
  | upward => exact Merging.elements_takeRight _ _
  | downward =>
      exact (Merging.elements_takeLeft _ _).trans
        ((List.reverse_perm _).append (List.reverse_perm _))

theorem mergeFrom_perm {lt : α → α → Except ε Bool} {d : Direction} {patience patience' : Nat}
    {left right l : List α} (h : mergeFrom lt d patience left right = .ok (l, patience')) :
    l.Perm (left ++ right) := by
  obtain ⟨⟨m, patience₁⟩, hr, h⟩ := Except.bind_eq_ok h
  cases h
  exact ((Direction.result_perm d m).trans (Merging.elements_run hr)).trans
    (Direction.elements_start d left right)

theorem mergeRuns_perm {lt : α → α → Except ε Bool} {patience patience' : Nat}
    {left right l : List α} (h : mergeRuns lt patience left right = .ok (l, patience')) :
    l.Perm (left ++ right) := by
  unfold mergeRuns at h
  split at h
  · obtain ⟨kept, -, h⟩ := Except.bind_eq_ok h
    split at h
    · cases h
      exact List.Perm.refl _
    obtain ⟨moved, -, h⟩ := Except.bind_eq_ok h
    split at h
    · cases h
      exact List.Perm.refl _
    obtain ⟨⟨middle, patience₁⟩, hm, h⟩ := Except.bind_eq_ok h
    cases h
    have hm := mergeFrom_perm hm
    have whole : left.take kept ++ (left.drop kept ++ right.take moved) ++ right.drop moved =
        left ++ right := by
      rw [← List.append_assoc, List.take_append_drop, List.append_assoc, List.take_append_drop]
    rw [← whole]
    exact (hm.append_left _).append_right _
  · cases h
    exact List.Perm.refl _

end Editorial.Ordered
