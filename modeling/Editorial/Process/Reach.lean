/-!
# Steps within reach

Breadth-first search in a graph whose nodes are the numbers below `size`. Every round takes the
first node off the queue and queues those of its successors that have not been seen. A node is
queued only when it is seen for the first time, so the nodes yet unseen and those still queued,
taken together, become one fewer with every round; this is why the search ends.
-/

namespace Editorial.Reach

/-- The number of nodes below `size` that are not among those seen. -/
def unseen (size : Nat) (seen : List Nat) : Nat :=
  ((List.range size).filter fun n => !seen.contains n).length

/-- The successors that lie below `size` and have not been seen, each once. -/
def fresh (size : Nat) (seen : List Nat) : List Nat → List Nat
  | [] => []
  | n :: ns =>
      if n < size ∧ n ∉ seen then n :: fresh size (n :: seen) ns else fresh size seen ns

/-! ### Why the search ends -/

theorem unseen_succ (size : Nat) (seen : List Nat) :
    unseen (size + 1) seen = unseen size seen + (if size ∈ seen then 0 else 1) := by
  unfold unseen
  rw [List.range_succ, List.filter_append, List.length_append]
  by_cases h : size ∈ seen <;> simp [h]

theorem unseen_cons_of_le {size n : Nat} (seen : List Nat) (h : size ≤ n) :
    unseen size (n :: seen) = unseen size seen := by
  induction size with
  | zero => rfl
  | succ size ih =>
      rw [unseen_succ, unseen_succ, ih (by omega)]
      have : size ≠ n := by omega
      simp [this]

theorem unseen_cons {size n : Nat} {seen : List Nat} (h : n < size) (hn : n ∉ seen) :
    unseen size (n :: seen) + 1 = unseen size seen := by
  induction size with
  | zero => omega
  | succ size ih =>
      rw [unseen_succ, unseen_succ]
      by_cases he : n = size
      · subst he
        rw [unseen_cons_of_le seen (Nat.le_refl n)]
        simp [hn]
      · have hlt : n < size := by omega
        have hne : size ≠ n := by omega
        have := ih hlt
        simp only [List.mem_cons, hne, false_or]
        omega

theorem unseen_congr {size : Nat} {seen seen' : List Nat} (h : ∀ n, n ∈ seen ↔ n ∈ seen') :
    unseen size seen = unseen size seen' := by
  unfold unseen
  congr 2
  funext n
  simp [h n]

theorem unseen_fresh (size : Nat) (seen ns : List Nat) :
    unseen size (fresh size seen ns ++ seen) + (fresh size seen ns).length = unseen size seen := by
  induction ns generalizing seen with
  | nil => simp [fresh]
  | cons n ns ih =>
      unfold fresh
      split
      · rename_i h
        have hone := unseen_cons h.1 h.2
        have hrest := ih (n :: seen)
        have hsame : unseen size (n :: fresh size (n :: seen) ns ++ seen) =
            unseen size (fresh size (n :: seen) ns ++ n :: seen) := by
          apply unseen_congr
          intro m
          simp only [List.cons_append, List.mem_cons, List.mem_append]
          constructor <;> (rintro (h | h | h) <;> simp [h])
        rw [hsame, List.length_cons]
        omega
      · exact ih seen

/-! ### The search -/

/-- The nodes seen once the queue has run empty, given those seen before. -/
def visit (size : Nat) (next : Nat → List Nat) (seen : List Nat) : List Nat → List Nat
  | [] => seen
  | n :: queue =>
      visit size next (fresh size seen (next n) ++ seen) (queue ++ fresh size seen (next n))
termination_by queue => unseen size seen + queue.length
decreasing_by
  have := unseen_fresh size seen (next n)
  simp only [List.length_append, List.length_cons]
  omega

/-- The nodes that are seen in a search from a node. -/
def seenFrom (size : Nat) (next : Nat → List Nat) (start : Nat) : List Nat :=
  visit size next [start] [start]

end Editorial.Reach
