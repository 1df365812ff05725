import Editorial.Proofs.Process.Acceptance
import Mathlib.Data.List.Perm.Subperm

/-!
# The search for steps out of reach ends

The last check of a description follows the links from the start step, whatever cycles they make.
Here the search is told round by round, with the indices as the links give them: a round takes the
first index off the queue and looks up its step (`Description.round`), and an index without a step
would be a failure. What has been seen is at all times what has been taken together with what is
queued, each once (`Search.Accounts`); this is why no step is taken twice. A round queues what a
round of `Reach.visit` queues (`Search.queue_followAll`), so that both searches take the same steps
in the same order (`Description.Searches.exists_visits`). In the end the steps that have been seen
are those that the check finds (`Description.reached`), to which paths lead (`search_ends`).
-/

namespace Editorial

open Relation

/-! ### Rounds -/

/-- How far a search has come: the indices that have been seen, and in the order in which they came
up those whose links have not been followed yet. -/
structure Search where
  seen : List Int
  queue : List Int

namespace Search

/-- A link is followed: unless its target has been seen, it is seen now and queued. -/
def follow (s : Search) (l : LinkSpec) : Search :=
  if l.target ∈ s.seen then s else ⟨l.target :: s.seen, s.queue ++ [l.target]⟩

/-- Links are followed one after the other. -/
def followAll (s : Search) (links : List LinkSpec) : Search :=
  links.foldl follow s

end Search

namespace Description

/-- The step at an index, if the index is one of a step. -/
def stepAt? (d : Description) (index : Int) : Option StepSpec :=
  if isIndex index d.steps.length then d.steps[index.toNat]? else none

/-- One round of the search: the first index is taken off the queue, and the links of its step are
followed. There is no round on an empty queue. An index without a step is a failure. -/
def round (d : Description) (s : Search) : Except Int (Option (Int × Search)) :=
  match s.queue with
  | [] => .ok none
  | n :: rest =>
      match d.stepAt? n with
      | none => .error n
      | some step => .ok (some (n, Search.followAll ⟨s.seen, rest⟩ step.links))

/-- After a number of rounds, these indices have been taken off the queue, in this order, and the
search has come this far. -/
inductive Searches (d : Description) : List Int → Search → Prop where
  | start : Searches d [] ⟨[d.start], [d.start]⟩
  | next {taken : List Int} {s s' : Search} {n : Int} (before : Searches d taken s)
      (round : d.round s = .ok (some (n, s'))) : Searches d (taken ++ [n]) s'

end Description

/-! ### Following links -/

namespace Search

theorem mem_map_toNat {l : List Int} (h : ∀ n ∈ l, 0 ≤ n) {i : Nat} :
    i ∈ l.map Int.toNat ↔ (i : Int) ∈ l := by
  rw [List.mem_map]
  constructor
  · rintro ⟨n, hn, rfl⟩
    rwa [Int.toNat_of_nonneg (h n hn)]
  · exact fun hi => ⟨i, hi, Int.toNat_natCast i⟩

/-- What has been seen is what has been taken and what is queued, each once. -/
structure Accounts (taken : List Int) (s : Search) : Prop where
  perm : s.seen.Perm (taken ++ s.queue)
  nodup : s.seen.Nodup

section Follow

variable {taken : List Int} {s : Search} {links : List LinkSpec}

theorem Accounts.follow (h : Accounts taken s) (l : LinkSpec) : Accounts taken (s.follow l) := by
  unfold Search.follow
  split
  · exact h
  · rename_i hnew
    refine ⟨?_, List.nodup_cons.2 ⟨hnew, h.nodup⟩⟩
    dsimp only
    rw [← List.append_assoc]
    exact (h.perm.cons l.target).trans (List.perm_append_singleton _ _).symm

theorem Accounts.followAll (h : Accounts taken s) (links : List LinkSpec) :
    Accounts taken (s.followAll links) := by
  unfold Search.followAll
  induction links generalizing s with
  | nil => exact h
  | cons l links ih => exact ih (h.follow l)

theorem mem_seen_follow {l : LinkSpec} {n : Int} :
    n ∈ (s.follow l).seen ↔ n = l.target ∨ n ∈ s.seen := by
  unfold follow
  split
  · rename_i hseen
    exact ⟨Or.inr, fun h => h.elim (fun he => he ▸ hseen) id⟩
  · exact List.mem_cons

theorem mem_seen_followAll {n : Int} :
    n ∈ (s.followAll links).seen ↔ n ∈ s.seen ∨ ∃ l ∈ links, n = l.target := by
  unfold followAll
  induction links generalizing s with
  | nil => simp
  | cons l links ih =>
      rw [List.foldl_cons, ih, mem_seen_follow, or_assoc, or_left_comm]
      simp only [List.mem_cons, exists_eq_or_imp]

/-- Links into the steps queue the successors that are fresh. -/
theorem queue_followAll {size : Nat} (hseen : ∀ n ∈ s.seen, 0 ≤ n)
    (hlinks : ∀ l ∈ links, isIndex l.target size = true) :
    (s.followAll links).queue.map Int.toNat = s.queue.map Int.toNat ++
      Reach.fresh size (s.seen.map Int.toNat) (links.map fun l => l.target.toNat) := by
  unfold followAll
  induction links generalizing s with
  | nil => simp [Reach.fresh]
  | cons l links ih =>
      obtain ⟨hl, hlinks⟩ := List.forall_mem_cons.1 hlinks
      obtain ⟨hpos, hlt⟩ := Description.isIndex_iff.1 hl
      have hmem : l.target.toNat ∈ s.seen.map Int.toNat ↔ l.target ∈ s.seen := by
        rw [mem_map_toNat hseen, Int.toNat_of_nonneg hpos]
      rw [List.foldl_cons, List.map_cons, Reach.fresh]
      by_cases hold : l.target ∈ s.seen
      · rw [follow, if_pos hold, if_neg fun hnew => hnew.2 (hmem.2 hold)]
        exact ih hseen hlinks
      · have hseen' : ∀ n ∈ l.target :: s.seen, 0 ≤ n := List.forall_mem_cons.2 ⟨hpos, hseen⟩
        rw [follow, if_neg hold, if_pos ⟨by omega, mt hmem.1 hold⟩,
          ih (s := ⟨l.target :: s.seen, s.queue ++ [l.target]⟩) hseen' hlinks]
        simp

/-- Links into the steps make the successors that are fresh seen. -/
theorem mem_seen_followAll_iff_fresh {size i : Nat} (hseen : ∀ n ∈ s.seen, 0 ≤ n)
    (hlinks : ∀ l ∈ links, isIndex l.target size = true) :
    (i : Int) ∈ (s.followAll links).seen ↔
      i ∈ Reach.fresh size (s.seen.map Int.toNat) (links.map fun l => l.target.toNat) ∨
        (i : Int) ∈ s.seen := by
  have htarget : i ∈ links.map (fun l => l.target.toNat) ↔ ∃ l ∈ links, (i : Int) = l.target := by
    rw [List.mem_map]
    refine exists_congr fun l => and_congr_right fun hl => ?_
    have := (Description.isIndex_iff.1 (hlinks l hl)).1
    omega
  have hsize : (∃ l ∈ links, (i : Int) = l.target) → i < size := by
    rintro ⟨l, hl, he⟩
    have := (Description.isIndex_iff.1 (hlinks l hl)).2
    omega
  rw [mem_seen_followAll, Reach.mem_fresh, htarget, mem_map_toNat hseen]
  constructor
  · rintro (hold | hnew)
    · exact Or.inr hold
    · by_cases hold : (i : Int) ∈ s.seen
      · exact Or.inr hold
      · exact Or.inl ⟨hnew, hsize hnew, hold⟩
  · rintro (⟨hnew, -⟩ | hold)
    · exact Or.inr hnew
    · exact Or.inl hold

end Follow

end Search

/-! ### What holds after every round -/

namespace Description

variable {d : Description} {taken : List Int} {s s' : Search} {n : Int}

/-- What a round does. -/
theorem round_eq_some_iff :
    d.round s = .ok (some (n, s')) ↔ ∃ rest step, s.queue = n :: rest ∧ d.stepAt? n = some step ∧
      s' = Search.followAll ⟨s.seen, rest⟩ step.links := by
  unfold round
  cases s.queue with
  | nil => simp
  | cons m rest =>
      dsimp only
      cases hstep : d.stepAt? m with
      | none =>
          refine iff_of_false nofun ?_
          rintro ⟨_, step, ⟨rfl, rfl⟩, hstep', -⟩
          cases hstep.symm.trans hstep'
      | some step =>
          simp only [Except.ok.injEq, Option.some.injEq, Prod.mk.injEq, List.cons.injEq]
          constructor
          · rintro ⟨rfl, rfl⟩
            exact ⟨rest, step, ⟨rfl, rfl⟩, hstep, rfl⟩
          · rintro ⟨_, step', ⟨rfl, rfl⟩, hstep', rfl⟩
            obtain rfl := Option.some.inj (hstep.symm.trans hstep')
            exact ⟨rfl, rfl⟩

theorem round_eq_none_iff : d.round s = .ok none ↔ s.queue = [] := by
  unfold round
  cases s.queue with
  | nil => simp
  | cons m rest =>
      dsimp only
      cases d.stepAt? m <;> simp

theorem stepAt?_eq_some_iff {step : StepSpec} :
    d.stepAt? n = some step ↔ 0 ≤ n ∧ d.steps[n.toNat]? = some step := by
  unfold stepAt?
  split
  · rename_i h
    exact ⟨fun hstep => ⟨(isIndex_iff.1 h).1, hstep⟩, And.right⟩
  · rename_i h
    refine iff_of_false nofun fun ⟨hpos, hstep⟩ => h (isIndex_iff.2 ⟨hpos, ?_⟩)
    have := (List.getElem?_eq_some_iff.1 hstep).1
    omega

theorem exists_stepAt (h : isIndex n d.steps.length = true) : ∃ step, d.stepAt? n = some step := by
  obtain ⟨hpos, hlt⟩ := isIndex_iff.1 h
  have hin : n.toNat < d.steps.length := by omega
  exact ⟨_, stepAt?_eq_some_iff.2 ⟨hpos, List.getElem?_eq_getElem hin⟩⟩

namespace Searches

theorem accounts (h : d.Searches taken s) : Search.Accounts taken s := by
  induction h with
  | start => exact ⟨List.Perm.refl _, List.nodup_singleton _⟩
  | next _ hround ih =>
      obtain ⟨rest, step, hqueue, -, rfl⟩ := round_eq_some_iff.1 hround
      have hrest : Search.Accounts (_ ++ [_]) ⟨_, rest⟩ :=
        ⟨by simpa [hqueue] using ih.perm, ih.nodup⟩
      exact hrest.followAll step.links

/-- Only indices of steps are ever seen when all references exist. -/
theorem isIndex_of_mem_seen (href : d.referenceDefect? = none) (h : d.Searches taken s) :
    ∀ n ∈ s.seen, isIndex n d.steps.length = true := by
  obtain ⟨hstart, hrefers⟩ := referenceDefect?_eq_none_iff.1 href
  induction h with
  | start => simpa using hstart
  | next _ hround ih =>
      obtain ⟨rest, step, -, hstep, rfl⟩ := round_eq_some_iff.1 hround
      have hmem : step ∈ d.steps := List.mem_of_getElem? (stepAt?_eq_some_iff.1 hstep).2
      intro n hn
      rcases Search.mem_seen_followAll.1 hn with hn | ⟨l, hl, rfl⟩
      · exact ih n hn
      · exact (hrefers step hmem).target l hl

/-- No round fails. -/
theorem round_ne_error (href : d.referenceDefect? = none) (h : d.Searches taken s) (n : Int) :
    d.round s ≠ .error n := by
  unfold round
  cases hqueue : s.queue with
  | nil => nofun
  | cons m rest =>
      have hseen : m ∈ s.seen := h.accounts.perm.mem_iff.2 (by simp [hqueue])
      obtain ⟨step, hstep⟩ := exists_stepAt (isIndex_of_mem_seen href h m hseen)
      simp [hstep]

theorem nodup_taken (h : d.Searches taken s) : taken.Nodup :=
  (List.nodup_append.1 (h.accounts.perm.nodup_iff.1 h.accounts.nodup)).1

theorem length_taken_le (href : d.referenceDefect? = none) (h : d.Searches taken s) :
    taken.length ≤ d.steps.length := by
  have hsub : taken ⊆ (List.range d.steps.length).map Int.ofNat := by
    intro n hn
    have hseen : n ∈ s.seen := h.accounts.perm.mem_iff.2 (List.mem_append_left _ hn)
    obtain ⟨hpos, hlt⟩ := isIndex_iff.1 (isIndex_of_mem_seen href h n hseen)
    exact List.mem_map.2 ⟨n.toNat, List.mem_range.2 (by omega), Int.toNat_of_nonneg hpos⟩
  simpa using (List.subperm_of_subset h.nodup_taken hsub).length_le

theorem nonneg_of_mem_seen (href : d.referenceDefect? = none) (h : d.Searches taken s) :
    ∀ n ∈ s.seen, 0 ≤ n :=
  fun n hn => (isIndex_iff.1 (isIndex_of_mem_seen href h n hn)).1

/-- The search that the check makes takes the same steps off its queue, in the same order, and has
seen the same ones. -/
theorem exists_visits (href : d.referenceDefect? = none) (h : d.Searches taken s) :
    ∃ seen, Reach.Visits d.steps.length d.successors d.start.toNat (taken.map Int.toNat) seen
      (s.queue.map Int.toNat) ∧ ∀ i : Nat, i ∈ seen ↔ (i : Int) ∈ s.seen := by
  obtain ⟨hstart, hrefers⟩ := referenceDefect?_eq_none_iff.1 href
  induction h with
  | start =>
      refine ⟨_, Reach.Visits.start, fun i => ?_⟩
      have := (isIndex_iff.1 hstart).1
      rw [List.mem_singleton, List.mem_singleton]
      omega
  | @next taken s s' n before hround ih =>
      obtain ⟨seen, hvisits, hmem⟩ := ih
      obtain ⟨rest, step, hqueue, hstep, rfl⟩ := round_eq_some_iff.1 hround
      obtain ⟨-, hget⟩ := stepAt?_eq_some_iff.1 hstep
      have htargets := (hrefers step (List.mem_of_getElem? hget)).target
      have hpos := before.nonneg_of_mem_seen href
      have hnext : d.successors n.toNat = step.links.map fun l => l.target.toNat := by
        simp [successors, linksFrom, hget]
      have hfresh : Reach.fresh d.steps.length seen (d.successors n.toNat) =
          Reach.fresh d.steps.length (s.seen.map Int.toNat)
            (step.links.map fun l => l.target.toNat) := by
        rw [hnext]
        exact Reach.fresh_congr (fun i => (hmem i).trans (Search.mem_map_toNat hpos).symm) _
      rw [hqueue, List.map_cons] at hvisits
      have hvisited := hvisits.next
      rw [hfresh, ← Search.queue_followAll (s := ⟨s.seen, rest⟩) hpos htargets] at hvisited
      refine ⟨_, by simpa using hvisited, fun i => ?_⟩
      rw [List.mem_append, hmem]
      exact (Search.mem_seen_followAll_iff_fresh (s := ⟨s.seen, rest⟩) hpos htargets).symm

/-- A search has ended, or there is a further round. -/
theorem ends_or_goes_on (href : d.referenceDefect? = none) (h : d.Searches taken s) :
    d.round s = .ok none ∨ ∃ n s', d.round s = .ok (some (n, s')) := by
  cases hround : d.round s with
  | error n => exact absurd hround (h.round_ne_error href n)
  | ok found =>
      cases found with
      | none => exact Or.inl rfl
      | some found => exact Or.inr ⟨found.1, found.2, rfl⟩

/-- There are not enough steps for a search to go on for ever. -/
theorem exists_end (href : d.referenceDefect? = none) (h : d.Searches taken s) :
    ∃ taken' s', d.Searches taken' s' ∧ d.round s' = .ok none := by
  induction hleft : d.steps.length - taken.length using Nat.strong_induction_on
    generalizing taken s with
  | _ left ih =>
      rcases h.ends_or_goes_on href with hend | ⟨n, s', hround⟩
      · exact ⟨taken, s, h, hend⟩
      · -- Every round takes one more step, of which there are no more than those of the description.
        have hnext := h.next hround
        have hlength := hnext.length_taken_le href
        rw [List.length_append, List.length_singleton] at hlength
        refine ih _ ?_ hnext rfl
        rw [List.length_append, List.length_singleton]
        omega

/-- Once the queue is empty, what has been seen is what the check finds. -/
theorem mem_seen_iff_mem_reached (href : d.referenceDefect? = none) (h : d.Searches taken s)
    (hend : d.round s = .ok none) : n ∈ s.seen ↔ ∃ i ∈ d.reached, n = (i : Int) := by
  obtain ⟨seen, hvisits, hmem⟩ := h.exists_visits href
  have hreached : d.reached = seen := by
    rw [round_eq_none_iff.1 hend] at hvisits
    rw [reached, ← hvisits.visit_eq, List.map_nil, Reach.visit]
  rw [hreached]
  constructor
  · intro hn
    have hcast : (n.toNat : Int) = n := Int.toNat_of_nonneg (h.nonneg_of_mem_seen href n hn)
    exact ⟨n.toNat, (hmem n.toNat).2 (hcast.symm ▸ hn), hcast.symm⟩
  · rintro ⟨i, hi, rfl⟩
    exact (hmem i).1 hi

/-- Then the steps to which links lead from the start have been seen, and no other index has. -/
theorem mem_seen_iff (href : d.referenceDefect? = none) (h : d.Searches taken s)
    (hend : d.round s = .ok none) :
    n ∈ s.seen ↔ ∃ i : Nat, n = i ∧ ReflTransGen d.Leads d.start.toNat i := by
  have htargets := (referenceDefect?_eq_none_iff_inRange.1 href).2.2.1
  rw [h.mem_seen_iff_mem_reached href hend]
  simp only [mem_reached_iff htargets, and_comm]

end Searches

/-- When all references exist, the search follows cycles and parallel links without ever looking for
a step that is not there. It takes no step twice, so it ends after at most as many rounds as there
are steps, and then the steps that have been seen are those that the check finds, which are those to
which links lead from the start. All the while, the search that the check makes takes the same steps
and has seen the same ones. -/
theorem search_ends (href : d.referenceDefect? = none) :
    (∀ taken s, d.Searches taken s →
      (∀ n, d.round s ≠ .error n) ∧ taken.Nodup ∧ taken.length ≤ d.steps.length ∧
        ∃ seen, Reach.Visits d.steps.length d.successors d.start.toNat (taken.map Int.toNat) seen
          (s.queue.map Int.toNat) ∧ ∀ i : Nat, i ∈ seen ↔ (i : Int) ∈ s.seen) ∧
    (∃ taken s, d.Searches taken s ∧ d.round s = .ok none) ∧
    ∀ taken s, d.Searches taken s → d.round s = .ok none → ∀ n,
      (n ∈ s.seen ↔ ∃ i ∈ d.reached, n = (i : Int)) ∧
        (n ∈ s.seen ↔ ∃ i : Nat, n = i ∧ ReflTransGen d.Leads d.start.toNat i) :=
  ⟨fun _ _ h => ⟨h.round_ne_error href, h.nodup_taken, h.length_taken_le href,
      h.exists_visits href⟩,
    Searches.start.exists_end href, fun _ _ h hend _ =>
      ⟨h.mem_seen_iff_mem_reached href hend, h.mem_seen_iff href hend⟩⟩

namespace Tangled

/-- A process whose steps lead in circles, to themselves and, by two links, to the same step; one of
them is out of reach. -/
def description : Description :=
  { name := "Tangled", start := 1, slots := [⟨"Author", [], false⟩]
    steps := [
      ⟨"Writing", [], [⟨"submit", 1, 0⟩, ⟨"resubmit", 1, 0⟩, ⟨"go on", 0, 0⟩]⟩,
      ⟨"Reviewing", [], [⟨"reject", 0, 0⟩, ⟨"accept", 2, 0⟩, ⟨"return", 0, 0⟩]⟩,
      ⟨"Printing", [], [⟨"reopen", 1, 0⟩]⟩,
      ⟨"Archive", [], [⟨"restore", 0, 0⟩]⟩] }

end Tangled

/-- The search of the tangled process takes three of its four steps, each once, and those are the ones
within reach. -/
theorem search_of_tangled_ends :
    let d := Tangled.description
    d.referenceDefect? = none ∧ d.Searches [1, 0, 2] ⟨[2, 0, 1], []⟩ ∧
      [(1 : Int), 0, 2].length ≤ d.steps.length ∧
      ∀ n : Int, (n ∈ [2, 0, 1] ↔ ∃ i ∈ d.reached, n = (i : Int)) ∧
        (n ∈ [2, 0, 1] ↔ ∃ i : Nat, n = i ∧ ReflTransGen d.Leads d.start.toNat i) := by
  intro d
  have href : d.referenceDefect? = none := rfl
  have first : d.Searches [1] ⟨[2, 0, 1], [0, 2]⟩ := Searches.start.next rfl
  have second : d.Searches [1, 0] ⟨[2, 0, 1], [2]⟩ := first.next rfl
  have third : d.Searches [1, 0, 2] ⟨[2, 0, 1], []⟩ := second.next rfl
  obtain ⟨hrun, -, hseen⟩ := search_ends href
  obtain ⟨-, -, hlength, -⟩ := hrun _ _ third
  exact ⟨href, third, hlength, hseen _ _ third rfl⟩

end Description

end Editorial
