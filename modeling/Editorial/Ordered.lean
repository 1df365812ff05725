/-!
# Ordered lists

Sorting by insertion, and the list of distinct numbers in ascending order. `sortBy` is stable and
keeps every element (`sortBy_perm`); `least?` finds the first element that no other one precedes.
-/

namespace Editorial.Ordered

variable {α : Type}

/-- Inserts an element before the first one that does not come before it. -/
def insertBy (le : α → α → Bool) (a : α) : List α → List α
  | [] => [a]
  | b :: l => if le a b then a :: b :: l else b :: insertBy le a l

/-- A list sorted by `le`; elements that `le` does not tell apart keep their order. -/
def sortBy (le : α → α → Bool) : List α → List α
  | [] => []
  | a :: l => insertBy le a (sortBy le l)

/-- The distinct numbers of a list in ascending order. -/
def ascending (ns : List Int) : List Int :=
  sortBy (· ≤ ·) ns.eraseDups

/-- The first element that no other one precedes. -/
def least? (lt : α → α → Bool) : List α → Option α
  | [] => none
  | a :: l =>
      match least? lt l with
      | none => some a
      | some b => if lt b a then some b else some a

/-! ### Lemmas -/

theorem insertBy_perm (le : α → α → Bool) (a : α) (l : List α) :
    (insertBy le a l).Perm (a :: l) := by
  induction l with
  | nil => exact List.Perm.refl _
  | cons b l ih =>
      unfold insertBy
      split
      · exact List.Perm.refl _
      · exact (ih.cons b).trans (List.Perm.swap a b l)

theorem sortBy_perm (le : α → α → Bool) (l : List α) : (sortBy le l).Perm l := by
  induction l with
  | nil => exact List.Perm.refl _
  | cons a l ih => exact (insertBy_perm le a _).trans (ih.cons a)

theorem mem_sortBy {le : α → α → Bool} {a : α} {l : List α} : a ∈ sortBy le l ↔ a ∈ l :=
  (sortBy_perm le l).mem_iff

theorem mem_ascending {n : Int} {ns : List Int} : n ∈ ascending ns ↔ n ∈ ns := by
  simp [ascending, mem_sortBy]

theorem least?_mem {lt : α → α → Bool} {l : List α} {a : α} (h : least? lt l = some a) : a ∈ l := by
  induction l generalizing a with
  | nil => simp [least?] at h
  | cons b l ih =>
      unfold least? at h
      split at h
      · cases h
        exact List.mem_cons_self
      · rename_i c hc
        split at h
        · cases h
          exact List.mem_cons_of_mem _ (ih hc)
        · cases h
          exact List.mem_cons_self

theorem least?_eq_none_iff {lt : α → α → Bool} {l : List α} : least? lt l = none ↔ l = [] := by
  cases l with
  | nil => simp [least?]
  | cons a l =>
      unfold least?
      split
      · simp
      · split <;> simp

end Editorial.Ordered
