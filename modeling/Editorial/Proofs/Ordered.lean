import Editorial.Ordered
import Editorial.Ordered.Arrange
import Mathlib.Data.List.Nodup

/-!
# Sorting and distinct numbers

Sorting leaves a sorted list alone (`sortBy_eq_self`, `arrange_of_ascending`) and makes one of any
list when the order is total (`pairwise_sortBy`). `ascending` lists every number once, in ascending
order (`pairwise_ascending`). In a strict order that tells all elements apart, `least?` finds the
one element that comes before all others (`least?_eq_some_iff`). It finds the head of the sorted list
without sorting (`head?_sortBy`).
-/

namespace Editorial.Ordered

variable {α ε : Type}

/-! ### Sorting -/

theorem pairwise_insertBy {le : α → α → Bool} (htotal : ∀ a b, le a b = true ∨ le b a = true)
    (htrans : ∀ a b c, le a b = true → le b c = true → le a c = true) (a : α) {l : List α}
    (h : l.Pairwise fun b c => le b c = true) :
    (insertBy le a l).Pairwise fun b c => le b c = true := by
  induction l with
  | nil => exact List.pairwise_singleton _ _
  | cons b l ih =>
      obtain ⟨hb, hl⟩ := List.pairwise_cons.1 h
      unfold insertBy
      split
      · rename_i hab
        refine List.pairwise_cons.2 ⟨fun c hc => ?_, h⟩
        rcases List.mem_cons.1 hc with rfl | hc
        · exact hab
        · exact htrans a b c hab (hb c hc)
      · rename_i hab
        refine List.pairwise_cons.2 ⟨fun c hc => ?_, ih hl⟩
        rcases List.mem_cons.1 ((insertBy_perm le a l).mem_iff.1 hc) with rfl | hc
        · exact (htotal b c).resolve_right hab
        · exact hb c hc

theorem pairwise_sortBy {le : α → α → Bool} (htotal : ∀ a b, le a b = true ∨ le b a = true)
    (htrans : ∀ a b c, le a b = true → le b c = true → le a c = true) (l : List α) :
    (sortBy le l).Pairwise fun a b => le a b = true := by
  induction l with
  | nil => exact List.Pairwise.nil
  | cons a l ih => exact pairwise_insertBy htotal htrans a ih

theorem sortBy_eq_self {le : α → α → Bool} {l : List α}
    (h : l.Pairwise fun a b => le a b = true) : sortBy le l = l := by
  induction l with
  | nil => rfl
  | cons a l ih =>
      obtain ⟨ha, hl⟩ := List.pairwise_cons.1 h
      rw [sortBy, ih hl]
      cases l with
      | nil => rfl
      | cons b l => rw [insertBy, if_pos (ha b List.mem_cons_self)]

/-- A map that keeps the order can be carried out before or after sorting. -/
theorem map_sortBy {β : Type} {le : α → α → Bool} (le' : β → β → Bool) {g : α → β} {l : List α}
    (h : ∀ a ∈ l, ∀ b ∈ l, le a b = le' (g a) (g b)) :
    (sortBy le l).map g = sortBy le' (l.map g) := by
  have hinsert {a : α} {m : List α} (hm : ∀ b ∈ m, le a b = le' (g a) (g b)) :
      (insertBy le a m).map g = insertBy le' (g a) (m.map g) := by
    induction m with
    | nil => rfl
    | cons b m ih =>
        rw [List.map_cons, insertBy, insertBy, hm b List.mem_cons_self]
        split
        · rfl
        · rw [List.map_cons, ih fun b hb => hm b (List.mem_cons_of_mem _ hb)]
  induction l with
  | nil => rfl
  | cons a l ih =>
      rw [sortBy, List.map_cons, sortBy, hinsert fun b hb =>
        h a List.mem_cons_self b (List.mem_cons_of_mem _ (mem_sortBy.1 hb))]
      rw [ih fun b hb c hc => h b (List.mem_cons_of_mem _ hb) c (List.mem_cons_of_mem _ hc)]

/-- First by a number, then by another order. -/
def leFirst (key : α → Int) (le : α → α → Bool) (a b : α) : Bool :=
  key a < key b || (key a == key b && le a b)

section LeFirst

variable {key : α → Int} {le : α → α → Bool}

theorem leFirst_eq_true_iff {a b : α} :
    leFirst key le a b = true ↔ key a < key b ∨ key a = key b ∧ le a b = true := by
  simp [leFirst]

theorem leFirst_total (htotal : ∀ a b, le a b = true ∨ le b a = true) (a b : α) :
    leFirst key le a b = true ∨ leFirst key le b a = true := by
  simp only [leFirst_eq_true_iff]
  rcases Int.lt_trichotomy (key a) (key b) with hlt | heq | hlt
  · exact Or.inl (Or.inl hlt)
  · exact (htotal a b).imp (fun h => Or.inr ⟨heq, h⟩) fun h => Or.inr ⟨heq.symm, h⟩
  · exact Or.inr (Or.inl hlt)

theorem leFirst_trans (htrans : ∀ a b c, le a b = true → le b c = true → le a c = true)
    (a b c : α) (hab : leFirst key le a b = true) (hbc : leFirst key le b c = true) :
    leFirst key le a c = true := by
  rw [leFirst_eq_true_iff] at hab hbc ⊢
  rcases hab with hab | ⟨hab, hle⟩
  · rcases hbc with hbc | ⟨hbc, -⟩
    · exact Or.inl (Int.lt_trans hab hbc)
    · exact Or.inl (hbc ▸ hab)
  · rcases hbc with hbc | ⟨hbc, hle'⟩
    · exact Or.inl (hab ▸ hbc)
    · exact Or.inr ⟨hab.trans hbc, htrans a b c hle hle'⟩

end LeFirst

/-! ### Sorting what is in order -/

section Arranged

variable {lt : α → α → Except ε Bool}

theorem runLength_of_ascending {last : α} {rest : List α}
    (h : (last :: rest).Pairwise fun a b => lt b a = .ok false) :
    runLength lt false last rest = .ok rest.length := by
  induction rest generalizing last with
  | nil => rfl
  | cons a rest ih =>
      obtain ⟨hlast, hrest⟩ := List.pairwise_cons.1 h
      unfold runLength
      rw [hlast a List.mem_cons_self]
      simp only [bind, Except.bind, if_true, ih hrest]
      rfl

theorem splitRun_of_ascending {l : List α} (h : l.Pairwise fun a b => lt b a = .ok false) :
    splitRun lt l = .ok (l, []) := by
  match l with
  | [] => rfl
  | [a] => rfl
  | a :: b :: rest =>
      obtain ⟨ha, hrest⟩ := List.pairwise_cons.1 h
      rw [splitRun, ha b List.mem_cons_self]
      simp only [bind, Except.bind, runLength_of_ascending hrest, List.take_length,
        List.drop_length]
      rfl

/-- A list in ascending order is one run, which stays as it is. -/
theorem arrange_of_ascending {l : List α} (h : l.Pairwise fun a b => lt b a = .ok false) :
    arrange lt l = .ok l := by
  have hrun (least : Nat) : nextRun lt least l = .ok (l, []) := by
    unfold nextRun
    rw [splitRun_of_ascending h]
    simp only [bind, Except.bind, List.take_nil, List.drop_nil, insertAll]
    rfl
  have hcollect (least total fuel patience : Nat) :
      collect lt least total fuel patience 0 l [] [] = .ok (l, [], patience) := by
    cases fuel with
    | zero => rw [collect, List.append_nil]
    | succ fuel => rfl
  unfold arrange
  simp only [hrun, hcollect, bind, Except.bind, mergeAll]

end Arranged

/-! ### The least element -/

section Least

variable {lt : α → α → Bool} (hirrefl : ∀ a, lt a a = false)
  (htrans : ∀ a b c, lt a b = true → lt b c = true → lt a c = true)
  (htotal : ∀ a b, a ≠ b → lt a b = true ∨ lt b a = true)

include htrans htotal

theorem lt_of_least? {l : List α} {a : α} (h : least? lt l = some a) :
    ∀ b ∈ l, b ≠ a → lt a b = true := by
  induction l generalizing a with
  | nil => nofun
  | cons c l ih =>
      intro b hb hne
      unfold least? at h
      split at h
      · rename_i hnone
        cases h
        rw [least?_eq_none_iff.1 hnone] at hb
        exact absurd (List.mem_singleton.1 hb) hne
      · rename_i m hm
        split at h
        · rename_i hmc
          cases h
          rcases List.mem_cons.1 hb with rfl | hb
          · exact hmc
          · exact ih hm b hb hne
        · rename_i hmc
          cases h
          have hb : b ∈ l := (List.mem_cons.1 hb).resolve_left hne
          by_cases hbm : b = m
          · subst hbm
            exact (htotal _ _ hne).resolve_left hmc
          · have hlt : lt m b = true := ih hm b hb hbm
            by_cases hcm : c = m
            · exact hcm ▸ hlt
            · exact htrans c m b ((htotal c m hcm).resolve_right hmc) hlt

include hirrefl

theorem least?_eq_some_iff {l : List α} {a : α} :
    least? lt l = some a ↔ a ∈ l ∧ ∀ b ∈ l, b ≠ a → lt a b = true := by
  refine ⟨fun h => ⟨least?_mem h, lt_of_least? htrans htotal h⟩, fun ⟨ha, hleast⟩ => ?_⟩
  cases hfound : least? lt l with
  | none => simp [least?_eq_none_iff.1 hfound] at ha
  | some m =>
      by_cases hm : m = a
      · rw [hm]
      · have hma : lt m a = true := lt_of_least? htrans htotal hfound a ha (Ne.symm hm)
        have hmm := htrans m a m hma (hleast m (least?_mem hfound) hm)
        rw [hirrefl] at hmm
        cases hmm

end Least

/-- What comes first when a list is sorted is the first element that none has to precede. -/
theorem head?_sortBy (le : α → α → Bool) (l : List α) :
    (sortBy le l).head? = least? (fun a b => !le b a) l := by
  induction l with
  | nil => rfl
  | cons a l ih =>
      rw [sortBy, least?, ← ih]
      cases sortBy le l with
      | nil => rfl
      | cons b rest => cases hle : le a b <;> simp [insertBy, hle]

/-! ### Distinct numbers -/

section Distinct

variable [BEq α] [LawfulBEq α]

theorem nodup_eraseDups : ∀ l : List α, l.eraseDups.Nodup
  | [] => List.nodup_nil
  | a :: l => by
      have hshorter : (l.filter fun b => !b == a).length < (a :: l).length :=
        Nat.lt_succ_of_le (List.length_filter_le _ _)
      have hfirst : a ∉ (l.filter fun b => !b == a).eraseDups := fun h => by
        simpa using (List.mem_filter.1 (List.mem_eraseDups.1 h)).2
      rw [List.eraseDups_cons]
      exact List.nodup_cons.2 ⟨hfirst, nodup_eraseDups _⟩
termination_by l => l.length
decreasing_by exact hshorter

theorem eraseDups_eq_self {l : List α} (h : l.Nodup) : l.eraseDups = l := by
  induction l with
  | nil => rfl
  | cons a l ih =>
      obtain ⟨ha, hl⟩ := List.nodup_cons.1 h
      rw [List.eraseDups_cons, List.filter_eq_self.2, ih hl]
      intro b hb
      simpa using fun e : b = a => ha (e ▸ hb)

end Distinct

theorem nodup_ascending (ns : List Int) : (ascending ns).Nodup :=
  (sortBy_perm _ _).nodup_iff.2 (nodup_eraseDups ns)

theorem pairwise_ascending (ns : List Int) : (ascending ns).Pairwise (· < ·) := by
  have hle : (ascending ns).Pairwise fun a b => decide (a ≤ b) = true :=
    pairwise_sortBy (by intro a b; simpa using Int.le_total a b)
      (by intro a b c; simpa using Int.le_trans) ns.eraseDups
  refine (hle.and (nodup_ascending ns)).imp fun {a b} h => ?_
  have := of_decide_eq_true h.1
  have := h.2
  omega

theorem ascending_eq_self {ns : List Int} (h : ns.Pairwise (· < ·)) : ascending ns = ns := by
  unfold ascending
  rw [eraseDups_eq_self (h.imp Int.ne_of_lt), sortBy_eq_self]
  exact h.imp fun hlt => decide_eq_true (Int.le_of_lt hlt)

end Editorial.Ordered
