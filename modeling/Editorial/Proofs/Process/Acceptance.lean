import Editorial.Proofs.Process.Checks
import Editorial.Proofs.Process.Reach
import Editorial.Proofs.Process.Reading
import Editorial.Proofs.Run

/-!
# Which descriptions are accepted

A description is proper (`Description.Proper`) when its indices exist, its names and its links are
distinct where they have to be, no step leads to itself or shares out editing, and paths along links
lead from the start to every step, one of which ends the process. The checks find no defect in a
description that has been read exactly when it is proper (`Description.defect?_eq_none_iff`), so a
value is accepted exactly when what it says is proper, and what it says is then the result
(`validate_decides`).
-/

namespace Editorial

open Ordered

theorem Permission.isExclusive_iff {p : Permission} :
    p.isExclusive = true ↔ p = .edit ∨ p = .proposeChanges := by
  cases p <;> decide

/-! ### Proper descriptions -/

/-- A step grants a permission to the slot at an index. -/
def StepSpec.Grants (s : StepSpec) (p : Permission) (slot : Int) : Prop := ⟨slot, p⟩ ∈ s.grants

namespace Description

/-- A link leads from the step at an index to the one at another index. -/
def Leads (d : Description) (i j : Nat) : Prop :=
  ∃ step, d.steps[i]? = some step ∧ ∃ l ∈ step.links, l.target = j

/-- What a description must be like to be accepted. -/
structure Proper (d : Description) : Prop where
  start : 0 ≤ d.start ∧ d.start < d.steps.length
  grant_slot : ∀ step ∈ d.steps, ∀ g ∈ step.grants, 0 ≤ g.slot ∧ g.slot < d.slots.length
  link_target : ∀ step ∈ d.steps, ∀ l ∈ step.links, 0 ≤ l.target ∧ l.target < d.steps.length
  link_slot : ∀ step ∈ d.steps, ∀ l ∈ step.links, 0 ≤ l.slot ∧ l.slot < d.slots.length
  slot_names : (d.slots.map SlotSpec.name).Nodup
  step_names : (d.steps.map StepSpec.name).Nodup
  link_names : ∀ step ∈ d.steps, (step.links.map LinkSpec.name).Nodup
  no_loop : ∀ i, ¬d.Leads i i
  links : ((d.steps.flatMap StepSpec.links).map fun l => (l.target, l.slot)).Nodup
  one_editor : ∀ step ∈ d.steps, ∀ a b, step.Grants .edit a → step.Grants .edit b → a = b
  one_proposer : ∀ step ∈ d.steps, ∀ a b,
    step.Grants .proposeChanges a → step.Grants .proposeChanges b → a = b
  unmixed : ∀ step ∈ d.steps, ∀ a b, step.Grants .edit a → ¬step.Grants .proposeChanges b
  reachable : ∀ i < d.steps.length, Relation.ReflTransGen d.Leads d.start.toNat i
  final : ∃ step ∈ d.steps, step.links = []

/-! ### References -/

theorem referenceDefect?_eq_none_iff_inRange {d : Description} :
    d.referenceDefect? = none ↔
      (0 ≤ d.start ∧ d.start < d.steps.length) ∧
        (∀ step ∈ d.steps, ∀ g ∈ step.grants, 0 ≤ g.slot ∧ g.slot < d.slots.length) ∧
        (∀ step ∈ d.steps, ∀ l ∈ step.links, 0 ≤ l.target ∧ l.target < d.steps.length) ∧
        ∀ step ∈ d.steps, ∀ l ∈ step.links, 0 ≤ l.slot ∧ l.slot < d.slots.length := by
  have hrefers (step : StepSpec) : d.StepRefers step ↔
      (∀ g ∈ step.grants, isIndex g.slot d.slots.length = true) ∧
        (∀ l ∈ step.links, isIndex l.target d.steps.length = true) ∧
        ∀ l ∈ step.links, isIndex l.slot d.slots.length = true :=
    ⟨fun h => ⟨h.grant, h.target, h.slot⟩, fun ⟨hg, ht, hs⟩ => ⟨hg, ht, hs⟩⟩
  simp only [referenceDefect?_eq_none_iff, hrefers, isIndex_iff]
  exact and_congr_right fun _ =>
    ⟨fun h => ⟨fun s hs => (h s hs).1, fun s hs => (h s hs).2.1, fun s hs => (h s hs).2.2⟩,
      fun ⟨hg, ht, hl⟩ s hs => ⟨hg s hs, ht s hs, hl s hs⟩⟩

/-! ### Names -/

theorem firstRepeat?_eq_none_iff {α : Type} [DecidableEq α] {seen : List α} {index : Nat}
    {l : List α} : firstRepeat? seen index l = none ↔ l.Nodup ∧ ∀ a ∈ l, a ∉ seen := by
  induction l generalizing seen index with
  | nil => simp [firstRepeat?]
  | cons a l ih =>
      unfold firstRepeat?
      split
      · rename_i ha
        exact iff_of_false nofun fun h => h.2 a List.mem_cons_self ha
      · rename_i ha
        rw [ih, List.nodup_cons]
        constructor
        · rintro ⟨hl, hseen⟩
          refine ⟨⟨fun hmem => hseen a hmem List.mem_cons_self, hl⟩, fun b hb => ?_⟩
          rcases List.mem_cons.1 hb with rfl | hb
          · exact ha
          · exact fun h => hseen b hb (List.mem_cons_of_mem _ h)
        · rintro ⟨⟨hnew, hl⟩, hseen⟩
          refine ⟨hl, fun b hb h => ?_⟩
          rcases List.mem_cons.1 h with rfl | h
          · exact hnew hb
          · exact hseen b (List.mem_cons_of_mem _ hb) h

theorem nameDefect?_eq_none_iff {d : Description} :
    d.nameDefect? = none ↔
      (d.slots.map SlotSpec.name).Nodup ∧ (d.steps.map StepSpec.name).Nodup ∧
        ∀ step ∈ d.steps, (step.links.map LinkSpec.name).Nodup := by
  have hrepeat {α : Type} [DecidableEq α] {l : List α} : firstRepeat? [] 0 l = none ↔ l.Nodup := by
    simp [firstRepeat?_eq_none_iff]
  unfold nameDefect?
  dsimp only
  simp only [Option.orElse_eq_orElse, Option.orElse_eq_or, Option.or_eq_none_iff,
    Option.map_eq_none_iff, List.findSome?_eq_none_iff, hrepeat]
  exact and_congr_right fun _ => and_congr_right fun _ =>
    forall_mem_zipIdx_fst (p := fun step : StepSpec => (step.links.map LinkSpec.name).Nodup)

/-! ### Links -/

theorem mem_allLinks {d : Description} {e : Nat × LinkSpec} :
    e ∈ d.allLinks ↔ ∃ step, d.steps[e.1]? = some step ∧ e.2 ∈ step.links := by
  unfold allLinks
  rw [List.mem_flatMap]
  constructor
  · rintro ⟨⟨step, i⟩, hs, he⟩
    obtain ⟨l, hl, rfl⟩ := List.mem_map.1 he
    exact ⟨step, List.mk_mem_zipIdx_iff_getElem?.1 hs, hl⟩
  · rintro ⟨step, hs, hl⟩
    exact ⟨(step, e.1), List.mk_mem_zipIdx_iff_getElem?.2 hs, List.mem_map.2 ⟨e.2, hl, rfl⟩⟩

theorem linkDefect?_eq_none_iff_distinct {d : Description} :
    d.linkDefect? = none ↔
      (∀ i, ¬d.Leads i i) ∧
        ((d.steps.flatMap StepSpec.links).map fun l => (l.target, l.slot)).Nodup := by
  rw [linkDefect?_eq_none_iff]
  refine and_congr_left fun _ => ?_
  constructor
  · rintro h i ⟨step, hstep, l, hl, htarget⟩
    exact h (i, l) (mem_allLinks.2 ⟨step, hstep, hl⟩) htarget
  · intro h e he htarget
    obtain ⟨step, hstep, hl⟩ := mem_allLinks.1 he
    exact h e.1 ⟨step, hstep, e.2, hl, htarget⟩

/-! ### Exclusive permissions -/

theorem length_le_one_of_nodup {α : Type} {l : List α} (h : l.Nodup)
    (hsame : ∀ a ∈ l, ∀ b ∈ l, a = b) : l.length ≤ 1 := by
  match l, h with
  | [], _ => simp
  | [a], _ => simp
  | a :: b :: l, h =>
      have hne : a ≠ b := fun e => (List.nodup_cons.1 h).1 (e ▸ List.mem_cons_self)
      exact absurd (hsame a (by simp) b (by simp)) hne

theorem stepPermissionDefect?_eq_none_iff {step : StepSpec} {index : Nat}
    (hgrants : step.grants.Nodup) :
    stepPermissionDefect? step index = none ↔ IsExclusive step := by
  refine ⟨isExclusive_of_stepPermissionDefect?, fun h => ?_⟩
  have hmixed : (exclusiveGranted step).length ≤ 1 := by
    refine length_le_one_of_nodup (nodup_eraseDups _) fun p hp q hq => ?_
    obtain ⟨⟨g, hg, rfl⟩, hpe⟩ := mem_exclusiveGranted_iff.1 hp
    obtain ⟨⟨g', hg', rfl⟩, hqe⟩ := mem_exclusiveGranted_iff.1 hq
    rw [h g hg g' hg' hpe hqe]
  have hshared : ∀ p ∈ exclusiveGranted step, (holders step p).length ≤ 1 := by
    intro p hp
    unfold holders
    rw [List.length_map]
    refine length_le_one_of_nodup (hgrants.filter _) fun g hg g' hg' => ?_
    simp only [List.mem_filter, beq_iff_eq] at hg hg'
    have hpe := (mem_exclusiveGranted_iff.1 hp).2
    exact h g hg.1 g' hg'.1 (hg.2 ▸ hpe) (hg'.2 ▸ hpe)
  unfold stepPermissionDefect?
  dsimp only
  rw [Option.orElse_eq_orElse, Option.orElse_eq_or, Option.or_eq_none_iff,
    List.findSome?_eq_none_iff]
  exact ⟨fun p hp => if_neg (Nat.not_lt.2 (hshared p hp)), if_neg (Nat.not_lt.2 hmixed)⟩

theorem isExclusive_iff_unmixed {step : StepSpec} :
    IsExclusive step ↔
      (∀ a b, step.Grants .edit a → step.Grants .edit b → a = b) ∧
        (∀ a b, step.Grants .proposeChanges a → step.Grants .proposeChanges b → a = b) ∧
        ∀ a b, step.Grants .edit a → ¬step.Grants .proposeChanges b := by
  constructor
  · intro h
    refine ⟨fun a b ha hb => ?_, fun a b ha hb => ?_, fun a b ha hb => ?_⟩
    · exact congrArg GrantSpec.slot (h _ ha _ hb rfl rfl)
    · exact congrArg GrantSpec.slot (h _ ha _ hb rfl rfl)
    · cases congrArg GrantSpec.permission (h _ ha _ hb rfl rfl)
  · rintro ⟨hedit, hpropose, hunmixed⟩ ⟨a, p⟩ ha ⟨b, q⟩ hb hp hq
    rcases Permission.isExclusive_iff.1 hp with rfl | rfl <;>
      rcases Permission.isExclusive_iff.1 hq with rfl | rfl
    · rw [hedit a b ha hb]
    · exact absurd hb (hunmixed a b ha)
    · exact absurd ha (hunmixed b a hb)
    · rw [hpropose a b ha hb]

/-! ### Reachability -/

/-- When the targets of all links exist, the search follows the links. -/
theorem edge_iff_leads {d : Description}
    (htargets : ∀ step ∈ d.steps, ∀ l ∈ step.links, 0 ≤ l.target ∧ l.target < d.steps.length)
    {i j : Nat} : Reach.Edge d.steps.length d.successors i j ↔ d.Leads i j := by
  unfold Reach.Edge successors linksFrom
  cases hstep : d.steps[i]? with
  | none => simp [Leads, hstep]
  | some step =>
      have htarget := htargets step (List.mem_of_getElem? hstep)
      simp only [Option.map_some, Option.getD_some, List.mem_map, Leads, hstep,
        Option.some.injEq, exists_eq_left']
      constructor
      · rintro ⟨⟨l, hl, rfl⟩, -⟩
        exact ⟨l, hl, (Int.toNat_of_nonneg (htarget l hl).1).symm⟩
      · rintro ⟨l, hl, hj⟩
        have := htarget l hl
        exact ⟨⟨l, hl, by omega⟩, by omega⟩

/-- When the targets of all links exist, the search finds the steps to which paths lead. -/
theorem mem_reached_iff {d : Description}
    (htargets : ∀ step ∈ d.steps, ∀ l ∈ step.links, 0 ≤ l.target ∧ l.target < d.steps.length)
    {i : Nat} : i ∈ d.reached ↔ Relation.ReflTransGen d.Leads d.start.toNat i := by
  have hedge : Reach.Edge d.steps.length d.successors = d.Leads :=
    funext fun i => funext fun j => propext (edge_iff_leads htargets)
  rw [reached, Reach.mem_seenFrom_iff, hedge]

theorem reachDefect?_eq_none_iff {d : Description}
    (htargets : ∀ step ∈ d.steps, ∀ l ∈ step.links, 0 ≤ l.target ∧ l.target < d.steps.length) :
    d.reachDefect? = none ↔
      (∀ i < d.steps.length, Relation.ReflTransGen d.Leads d.start.toNat i) ∧
        ∃ step ∈ d.steps, step.links = [] := by
  have hfinal : d.steps.any StepSpec.isFinal = true ↔ ∃ step ∈ d.steps, step.links = [] := by
    simp [StepSpec.isFinal]
  unfold reachDefect?
  dsimp only
  rw [Option.orElse_eq_orElse, Option.orElse_eq_or, Option.or_eq_none_iff,
    List.findSome?_eq_none_iff, ← hfinal]
  simp only [ite_eq_left_iff, reduceCtorEq, imp_false, not_not, mem_reached_iff htargets,
    forall_mem_zipIdx_snd]

/-! ### All checks -/

/-- The checks find no defect exactly when the description is proper. -/
theorem defect?_eq_none_iff {d : Description} (hgrants : ∀ step ∈ d.steps, step.grants.Nodup) :
    d.defect? = none ↔ d.Proper := by
  have hpermission : d.permissionDefect? = none ↔ ∀ step ∈ d.steps, IsExclusive step := by
    unfold permissionDefect?
    rw [List.findSome?_eq_none_iff, ← forall_mem_zipIdx_fst (p := IsExclusive)]
    exact forall₂_congr fun s hs =>
      stepPermissionDefect?_eq_none_iff (hgrants s.1 (List.fst_mem_of_mem_zipIdx hs))
  unfold defect?
  simp only [Option.orElse_eq_orElse, Option.orElse_eq_or, Option.or_eq_none_iff,
    referenceDefect?_eq_none_iff_inRange, nameDefect?_eq_none_iff,
    linkDefect?_eq_none_iff_distinct, hpermission, isExclusive_iff_unmixed]
  constructor
  · rintro ⟨⟨hstart, hgrant, htarget, hslot⟩, ⟨hslots, hsteps, hnames⟩, ⟨hloop, hlinks⟩,
      hexclusive, hreach⟩
    obtain ⟨hreachable, hfinal⟩ := (reachDefect?_eq_none_iff htarget).1 hreach
    exact {
      start := hstart, grant_slot := hgrant, link_target := htarget, link_slot := hslot
      slot_names := hslots, step_names := hsteps, link_names := hnames, no_loop := hloop
      links := hlinks
      one_editor := fun step hstep => (hexclusive step hstep).1
      one_proposer := fun step hstep => (hexclusive step hstep).2.1
      unmixed := fun step hstep => (hexclusive step hstep).2.2
      reachable := hreachable, final := hfinal }
  · intro h
    exact ⟨⟨h.start, h.grant_slot, h.link_target, h.link_slot⟩,
      ⟨h.slot_names, h.step_names, h.link_names⟩, ⟨h.no_loop, h.links⟩,
      fun step hstep => ⟨h.one_editor step hstep, h.one_proposer step hstep, h.unmixed step hstep⟩,
      (reachDefect?_eq_none_iff h.link_target).2 ⟨h.reachable, h.final⟩⟩

end Description

/-! ### What is accepted -/

namespace Description

/-- A value is accepted with the result that it says, if that is proper. -/
theorem validate_eq_ok_iff_reads {raw : Json} {d : Description} :
    validate raw = .ok d ↔ Reads raw d ∧ d.Proper := by
  rw [validate_eq_ok_iff, ofJson_eq_ok_iff]
  exact and_congr_right fun hread => defect?_eq_none_iff hread.clean.grants

/-- A value says one thing at most. -/
theorem Reads.unique {raw : Json} {d d' : Description} (h : Reads raw d) (h' : Reads raw d') :
    d = d' :=
  Except.ok.inj ((ofJson_eq_ok_iff.2 h).symm.trans (ofJson_eq_ok_iff.2 h'))

end Description

open Description in
/-- A value is accepted exactly when it says something proper about a process; what it says is then
the result, and it says nothing else. -/
theorem validate_decides (raw : Json) :
    ((∃ d, validate raw = .ok d) ↔ ∃ d, Reads raw d ∧ d.Proper) ∧
      ∀ d, validate raw = .ok d → Reads raw d ∧ d.Proper ∧ ∀ d', Reads raw d' → d' = d := by
  refine ⟨exists_congr fun d => validate_eq_ok_iff_reads, fun d h => ?_⟩
  obtain ⟨hread, hproper⟩ := validate_eq_ok_iff_reads.1 h
  exact ⟨hread, hproper, fun d' h' => h'.unique hread⟩

open Description in
/-- The description of the review says something proper, and nothing else. -/
theorem review_accepted :
    ∃ d, validate Review.description = .ok d ∧ Reads Review.description d ∧ d.Proper ∧
      ∀ d', Reads Review.description d' → d' = d := by
  obtain ⟨d, hd⟩ : ∃ d, validate Review.description = .ok d :=
    exists_ok_of_toBool (by decide +kernel)
  exact ⟨d, hd, (validate_decides Review.description).2 d hd⟩

end Editorial
