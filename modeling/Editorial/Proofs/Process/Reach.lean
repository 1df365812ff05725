import Editorial.Process.Reach
import Mathlib.Logic.Relation

/-!
# The search finds what is within reach

A node that the search has seen is one to which a path leads from where it began
(`mem_seenFrom_iff`). Two facts about the queue carry this: what is seen is within reach, and only
a node that is still queued can have a successor that has not been seen (`Settled`). `Visits` tells
the rounds of the search one by one.
-/

namespace Editorial.Reach

variable {size : Nat} {next : Nat → List Nat}

/-- An edge of the graph leads from a node to one of its successors below `size`. -/
def Edge (size : Nat) (next : Nat → List Nat) (a b : Nat) : Prop := b ∈ next a ∧ b < size

theorem mem_fresh {seen ns : List Nat} {n : Nat} :
    n ∈ fresh size seen ns ↔ n ∈ ns ∧ n < size ∧ n ∉ seen := by
  induction ns generalizing seen with
  | nil => simp [fresh]
  | cons m ns ih =>
      unfold fresh
      split
      · rename_i hm
        rw [List.mem_cons, ih]
        constructor
        · rintro (rfl | ⟨hn, hlt, hseen⟩)
          · exact ⟨List.mem_cons_self, hm⟩
          · exact ⟨List.mem_cons_of_mem _ hn, hlt, fun h => hseen (List.mem_cons_of_mem _ h)⟩
        · rintro ⟨hn, hlt, hseen⟩
          by_cases he : n = m
          · exact Or.inl he
          · refine Or.inr ⟨(List.mem_cons.1 hn).resolve_left he, hlt, fun h => ?_⟩
            exact (List.mem_cons.1 h).elim he hseen
      · rename_i hm
        rw [ih, List.mem_cons]
        constructor
        · rintro ⟨hn, hrest⟩
          exact ⟨Or.inr hn, hrest⟩
        · rintro ⟨rfl | hn, hrest⟩
          · exact absurd hrest hm
          · exact ⟨hn, hrest⟩

/-- Which nodes are fresh depends only on which ones have been seen. -/
theorem fresh_congr {seen seen' : List Nat} (h : ∀ n, n ∈ seen ↔ n ∈ seen') (ns : List Nat) :
    fresh size seen ns = fresh size seen' ns := by
  induction ns generalizing seen seen' with
  | nil => rfl
  | cons m ns ih =>
      have hcons : ∀ n, n ∈ m :: seen ↔ n ∈ m :: seen' := fun n => by
        rw [List.mem_cons, List.mem_cons, h]
      unfold fresh
      rw [ih h, ih hcons]
      simp only [h]

/-! ### What a round keeps -/

/-- Of the nodes seen, only those still queued can have a successor that has not been seen. -/
def Settled (size : Nat) (next : Nat → List Nat) (seen queue : List Nat) : Prop :=
  ∀ a ∈ seen, a ∉ queue → ∀ b, Edge size next a b → b ∈ seen

theorem Settled.round {seen queue : List Nat} {n : Nat} (h : Settled size next seen (n :: queue)) :
    Settled size next (fresh size seen (next n) ++ seen)
      (queue ++ fresh size seen (next n)) := by
  intro a ha hqueue b hb
  rw [List.mem_append, not_or] at hqueue
  have hseen : a ∈ seen := (List.mem_append.1 ha).resolve_left hqueue.2
  rw [List.mem_append]
  by_cases hold : b ∈ seen
  · exact Or.inr hold
  by_cases he : a = n
  · subst he
    exact Or.inl (mem_fresh.2 ⟨hb.1, hb.2, hold⟩)
  · have hrest : a ∉ n :: queue := fun hmem => (List.mem_cons.1 hmem).elim he hqueue.1
    exact Or.inr (h a hseen hrest b hb)

/-! ### The whole search -/

theorem subset_visit (seen queue : List Nat) : seen ⊆ visit size next seen queue := by
  fun_induction visit size next seen queue with
  | case1 => exact List.Subset.refl _
  | case2 seen n queue ih => exact fun a ha => ih (List.mem_append_right _ ha)

theorem settled_visit {seen queue : List Nat} (h : Settled size next seen queue) :
    Settled size next (visit size next seen queue) [] := by
  fun_induction visit size next seen queue with
  | case1 => exact h
  | case2 seen n queue ih => exact ih h.round

/-- What holds of the nodes seen at first and is handed on along edges holds of all nodes seen. -/
theorem forall_mem_visit {p : Nat → Prop} (hedge : ∀ a b, p a → Edge size next a b → p b)
    {seen queue : List Nat} (hqueue : queue ⊆ seen) (hseen : ∀ a ∈ seen, p a) :
    ∀ a ∈ visit size next seen queue, p a := by
  fun_induction visit size next seen queue with
  | case1 => exact hseen
  | case2 seen n queue ih =>
      have hn : p n := hseen n (hqueue List.mem_cons_self)
      refine ih ?_ ?_
      · intro a ha
        rcases List.mem_append.1 ha with ha | ha
        · exact List.mem_append_right _ (hqueue (List.mem_cons_of_mem _ ha))
        · exact List.mem_append_left _ ha
      · intro a ha
        rcases List.mem_append.1 ha with ha | ha
        · obtain ⟨hnext, hlt, -⟩ := mem_fresh.1 ha
          exact hedge n a hn ⟨hnext, hlt⟩
        · exact hseen a ha

/-- The search sees the nodes to which a path leads from where it begins, and no other ones. -/
theorem mem_seenFrom_iff {start n : Nat} :
    n ∈ seenFrom size next start ↔ Relation.ReflTransGen (Edge size next) start n := by
  constructor
  · refine forall_mem_visit (fun a b ha hb => ha.tail hb) (List.Subset.refl _) ?_ n
    intro a ha
    rw [List.mem_singleton.1 ha]
  · have hsettled : Settled size next (seenFrom size next start) [] :=
      settled_visit fun a ha hqueue => absurd ha hqueue
    intro hpath
    induction hpath with
    | refl => exact subset_visit _ _ List.mem_cons_self
    | tail _ hedge ih => exact hsettled _ ih (List.not_mem_nil) _ hedge

/-! ### The search round by round -/

/-- A search from a node comes to these nodes seen and these ones queued once it has taken those of
the first list off the queue. -/
inductive Visits (size : Nat) (next : Nat → List Nat) (start : Nat) :
    List Nat → List Nat → List Nat → Prop where
  | start : Visits size next start [] [start] [start]
  | next {taken seen queue : List Nat} {n : Nat}
      (before : Visits size next start taken seen (n :: queue)) :
      Visits size next start (taken ++ [n]) (fresh size seen (next n) ++ seen)
        (queue ++ fresh size seen (next n))

/-- From every round on, the search comes to its result. -/
theorem Visits.visit_eq {start : Nat} {taken seen queue : List Nat}
    (h : Visits size next start taken seen queue) :
    visit size next seen queue = seenFrom size next start := by
  induction h with
  | start => rfl
  | next _ ih => rw [← ih, visit]

end Editorial.Reach
