import Editorial.Ordered.Arrange
import Editorial.Proofs.Ordered.Merge

/-!
# What arranging yields

A list whose elements are compared by a key is arranged in ascending order of the key, whatever
order it is given in (`arrange_of_compares`). The list is cut into runs, each in ascending order
(`nextRun_of_compares`), and whatever runs are merged first, runs are all there ever is
(`collapse_of_ascending`, `collect_of_compares`, `mergeAll_of_ascending`).
-/

namespace Editorial.Ordered

variable {α ε : Type} {lt : α → α → Except ε Bool} {P : α → Prop} {key : α → Int}
  (hlt : Compares lt P key)

include hlt

/-! ### Runs -/

omit hlt in
/-- An element that goes on as a run does is met behind the last one of the run. -/
theorem before_of_goes {descending : Bool} {a last : α}
    (h : decide (key a < key last) = descending) :
    (if descending then Direction.downward else Direction.upward).Before key last a := by
  refine Direction.Before.of_lt_of_downward (h.trans ?_)
  cases descending <;> rfl

/-- The elements that continue a run go on in its direction. -/
theorem runLength_of_compares (descending : Bool) {last : α} (hlast : P last) {rest : List α}
    (hrest : ∀ a ∈ rest, P a) :
    ∃ n, runLength lt descending last rest = .ok n ∧
      (last :: rest.take n).Pairwise
        ((if descending then Direction.downward else Direction.upward).Before key) := by
  induction rest generalizing last with
  | nil => exact ⟨0, rfl, List.pairwise_singleton _ _⟩
  | cons a rest ih =>
      obtain ⟨ha, hrest⟩ := List.forall_mem_cons.1 hrest
      obtain ⟨n, hok, hrun⟩ := ih ha hrest
      unfold runLength
      simp only [hlt a last ha hlast, bind, Except.bind]
      split
      · rename_i hgoes
        simp only [hok]
        have hfirst : ∀ b ∈ a :: rest.take n,
            (if descending then Direction.downward else .upward).Before key last b :=
          Direction.Before.of_head hrun fun b hb => by
            cases hb
            exact before_of_goes hgoes
        exact ⟨n + 1, rfl, List.pairwise_cons.2 ⟨hfirst, hrun⟩⟩
      · exact ⟨0, rfl, List.pairwise_singleton _ _⟩

theorem splitRun_of_compares {l : List α} (hl : ∀ a ∈ l, P a) :
    ∃ run rest, splitRun lt l = .ok (run, rest) ∧ Ascending P key run ∧ (l ≠ [] → run ≠ []) := by
  match l with
  | [] => exact ⟨[], [], rfl, ⟨nofun, .nil⟩, absurd rfl⟩
  | [a] => exact ⟨[a], [], rfl, ⟨hl, List.pairwise_singleton _ _⟩, fun _ => List.cons_ne_nil _ _⟩
  | a :: b :: rest =>
      obtain ⟨ha, hl⟩ := List.forall_mem_cons.1 hl
      obtain ⟨hb, hrest⟩ := List.forall_mem_cons.1 hl
      obtain ⟨n, hok, hrun⟩ := runLength_of_compares hlt (decide (key b < key a)) hb hrest
      have hwhole : (a :: b :: rest.take n).Pairwise
          ((if decide (key b < key a) then Direction.downward else .upward).Before key) :=
        List.pairwise_cons.2 ⟨Direction.Before.of_head hrun fun c hc => by
          cases hc
          exact before_of_goes rfl, hrun⟩
      have hall : ∀ c ∈ a :: b :: rest.take n, P c := List.forall_mem_cons.2
        ⟨ha, List.forall_mem_cons.2 ⟨hb, fun c hc => hrest c (List.mem_of_mem_take hc)⟩⟩
      unfold splitRun
      simp only [hlt b a hb ha, hok, bind, Except.bind]
      refine ⟨_, _, rfl, ?_, fun _ => ?_⟩
      · cases hdescending : decide (key b < key a) with
        | true =>
            rw [hdescending] at hwhole
            exact ⟨fun c hc => hall c (List.mem_reverse.1 hc), List.pairwise_reverse.2 hwhole⟩
        | false =>
            rw [hdescending] at hwhole
            exact ⟨hall, hwhole⟩
      · split <;> simp

/-- An element goes in behind all that it does not come before. -/
theorem insertHalving_of_compares {l : List α} (hl : Ascending P key l) {a : α} (ha : P a) :
    ∃ l', insertHalving lt l a = .ok l' ∧ Ascending P key l' := by
  obtain ⟨n, hn⟩ : ∃ n, Splits (fun b => !decide (key a < key b)) l n :=
    exists_splits (hl.sorted.imp fun {b c} hle => by
      simp only [Bool.not_eq_true', decide_eq_false_iff_not]
      omega)
  have hplace : placeFor (fun b => (lt a b).map not) l 0 l.length = .ok n :=
    placeFor_of_splits (fun b hb => by
      rw [hlt a b ha (hl.all b hb)]
      rfl) hn (Nat.zero_le _) (by have := hn.le; omega) (by omega)
  have hback : Ascending P key (a :: l.drop n) :=
    Ascending.append (l := [a]) ⟨List.forall_mem_singleton.2 ha, List.pairwise_singleton _ _⟩
      (hl.drop n) fun b hb c hc => by
        have := hn.behind c hc
        rw [List.mem_singleton.1 hb]
        simp only [Bool.not_eq_false', decide_eq_true_eq] at this
        omega
  refine ⟨l.take n ++ a :: l.drop n, ?_, (hl.take n).append hback fun b hb c hc => ?_⟩
  · unfold insertHalving
    simp only [hplace, bind, Except.bind]
    rfl
  · rcases List.mem_cons.1 hc with rfl | hc
    · simpa using hn.ahead b hb
    · exact hl.take_le_drop n b hb c hc

theorem insertAll_of_compares {l rest : List α} (hl : Ascending P key l)
    (hrest : ∀ a ∈ rest, P a) :
    ∃ l', insertAll lt l rest = .ok l' ∧ Ascending P key l' := by
  induction rest generalizing l with
  | nil => exact ⟨l, rfl, hl⟩
  | cons a rest ih =>
      obtain ⟨ha, hrest⟩ := List.forall_mem_cons.1 hrest
      obtain ⟨l₁, hok, hl₁⟩ := insertHalving_of_compares hlt hl ha
      obtain ⟨l', hok', hl'⟩ := ih hl₁ hrest
      refine ⟨l', ?_, hl'⟩
      unfold insertAll
      simp only [hok, bind, Except.bind]
      exact hok'

/-- A list that is not empty begins with a run. -/
theorem nextRun_of_compares (least : Nat) {l : List α} (hl : ∀ a ∈ l, P a) :
    ∃ run rest, nextRun lt least l = .ok (run, rest) ∧ Ascending P key run ∧ (∀ a ∈ rest, P a) ∧
      (l ≠ [] → rest.length < l.length) := by
  obtain ⟨first, others, hok, hfirst, hne⟩ := splitRun_of_compares hlt hl
  have hsplit := splitRun_perm hok
  have hothers : ∀ a ∈ others, P a := fun a ha =>
    hl a (hsplit.mem_iff.1 (List.mem_append_right first ha))
  have htaken : ∀ a ∈ others.take (least - first.length), P a := fun a ha =>
    hothers a (List.mem_of_mem_take ha)
  obtain ⟨run, hok', hrun⟩ := insertAll_of_compares hlt hfirst htaken
  refine ⟨run, others.drop (least - first.length), ?_, hrun,
    fun a ha => hothers a (List.mem_of_mem_drop ha), fun hl => ?_⟩
  · unfold nextRun
    simp only [hok, hok', bind, Except.bind]
    rfl
  · have := List.length_pos_iff.2 (hne hl)
    have := hsplit.length_eq
    simp only [List.length_append, List.length_drop] at *
    omega

/-! ### Merging neighbours -/

theorem collapse_of_ascending (limit patience : Nat) {last : List α} {earlier : List (Ranked α)}
    (hlast : Ascending P key last) (hearlier : ∀ r ∈ earlier, Ascending P key r.items) :
    ∃ last' earlier' patience',
      collapse lt limit patience last earlier = .ok (last', earlier', patience') ∧
        Ascending P key last' ∧ ∀ r ∈ earlier', Ascending P key r.items := by
  induction earlier generalizing last patience with
  | nil => exact ⟨last, [], patience, rfl, hlast, hearlier⟩
  | cons r earlier ih =>
      unfold collapse
      split
      · obtain ⟨hr, hrest⟩ := List.forall_mem_cons.1 hearlier
        obtain ⟨merged, patience₁, hok, hmerged⟩ := mergeRuns_of_ascending hlt patience hr hlast
        obtain ⟨last', earlier', patience', hok', hlast', hearlier'⟩ := ih patience₁ hmerged hrest
        refine ⟨last', earlier', patience', ?_, hlast', hearlier'⟩
        simp only [hok, bind, Except.bind]
        exact hok'
      · exact ⟨last, r :: earlier, patience, rfl, hlast, hearlier⟩

theorem collect_of_compares (least total : Nat) {fuel : Nat} (patience start : Nat) {last : List α}
    {earlier : List (Ranked α)} {rest : List α} (hlast : Ascending P key last)
    (hearlier : ∀ r ∈ earlier, Ascending P key r.items) (hrest : ∀ a ∈ rest, P a)
    (hfuel : rest.length ≤ fuel) :
    ∃ last' earlier' patience',
      collect lt least total fuel patience start last earlier rest =
        .ok (last', earlier', patience') ∧
        Ascending P key last' ∧ ∀ r ∈ earlier', Ascending P key r.items := by
  induction fuel generalizing patience start last earlier rest with
  | zero =>
      obtain rfl := List.length_eq_zero_iff.1 (Nat.le_zero.1 hfuel)
      refine ⟨last, earlier, patience, ?_, hlast, hearlier⟩
      rw [collect, List.append_nil]
  | succ fuel ih =>
      unfold collect
      split
      · exact ⟨last, earlier, patience, rfl, hlast, hearlier⟩
      rename_i hne
      have hne : rest ≠ [] := fun hnil => hne (List.isEmpty_iff.2 hnil)
      obtain ⟨run, others, hok, hrun, hothers, hless⟩ := nextRun_of_compares hlt least hrest
      have := hless hne
      simp only [hok, bind, Except.bind]
      obtain ⟨merged, left, patience₁, hok₁, hmerged, hleft⟩ :=
        collapse_of_ascending hlt (power start last.length run.length total) patience hlast hearlier
      simp only [hok₁]
      exact ih patience₁ _ hrun (List.forall_mem_cons.2 ⟨hmerged, hleft⟩) hothers (by omega)

theorem mergeAll_of_ascending (patience : Nat) {last : List α} {earlier : List (Ranked α)}
    (hlast : Ascending P key last) (hearlier : ∀ r ∈ earlier, Ascending P key r.items) :
    ∃ l, mergeAll lt patience last earlier = .ok l ∧ Ascending P key l := by
  induction hn : earlier.length generalizing patience last earlier with
  | zero =>
      obtain rfl := List.length_eq_zero_iff.1 hn
      exact ⟨last, by rw [mergeAll], hlast⟩
  | succ n ih =>
      cases earlier with
      | nil => cases hn
      | cons r earlier =>
          obtain ⟨hr, hearlier⟩ := List.forall_mem_cons.1 hearlier
          cases earlier with
          | nil =>
              obtain ⟨merged, patience₁, hok, hmerged⟩ :=
                mergeRuns_of_ascending hlt patience hr hlast
              refine ⟨merged, ?_, hmerged⟩
              rw [mergeAll]
              simp only [hok, bind, Except.bind]
              rfl
          | cons q tail =>
              obtain ⟨hq, htail⟩ := List.forall_mem_cons.1 hearlier
              have hlength : tail.length + 1 = n := by simpa using hn
              rw [mergeAll]
              split
              · obtain ⟨merged, patience₁, hok, hmerged⟩ :=
                  mergeRuns_of_ascending hlt patience hq hr
                simp only [hok, bind, Except.bind]
                exact ih patience₁ hlast (List.forall_mem_cons.2 ⟨hmerged, htail⟩) hlength
              · obtain ⟨merged, patience₁, hok, hmerged⟩ :=
                  mergeRuns_of_ascending hlt patience hr hlast
                simp only [hok, bind, Except.bind]
                exact ih patience₁ hmerged (List.forall_mem_cons.2 ⟨hq, htail⟩) hlength

/-! ### Lists -/

/-- A list whose elements are compared by a key is arranged in ascending order of the key. -/
theorem arrange_of_compares {l : List α} (hl : ∀ a ∈ l, P a) :
    ∃ l', arrange lt l = .ok l' ∧ l'.Perm l ∧ l'.Pairwise fun a b => key a ≤ key b := by
  obtain ⟨run, rest, hok, hrun, hrest, -⟩ :=
    nextRun_of_compares hlt (leastRun l.length false) hl
  have hlength : rest.length ≤ l.length := by
    have := (nextRun_perm hok).length_eq
    rw [List.length_append] at this
    omega
  obtain ⟨last, earlier, patience, hok₁, hlast, hearlier⟩ :=
    collect_of_compares hlt (leastRun l.length false) l.length worthLeaping 0 hrun
      (List.forall_mem_nil _) hrest hlength
  obtain ⟨l', hok', hl'⟩ := mergeAll_of_ascending hlt patience hlast hearlier
  have harranged : arrange lt l = .ok l' := by
    unfold arrange
    simp only [hok, hok₁, bind, Except.bind]
    exact hok'
  exact ⟨l', harranged, arrange_perm harranged, hl'.sorted⟩

end Editorial.Ordered
