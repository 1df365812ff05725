import Editorial.Process.Version
import Editorial.Proofs.Process.Checks
import Editorial.Proofs.Store.Table

/-!
# Versions that come from descriptions

A version is stored with ids in place of positions. `Version.Described` says that a version is an
accepted description with ids; `Version.Described.wellFormed` carries over what the checks have
guaranteed: the ids of slots and steps are distinct, every reference stays within the version, no
two links share target and slot, and a step has at most one exclusive grant.
-/

namespace Editorial

open Ordered

/-! ### Slots and steps by id -/

theorem map_id_numberSlots (id : Int) (specs : List SlotSpec) :
    (numberSlots id specs).map Slot.id = idsFrom id specs.length := by
  induction specs generalizing id with
  | nil => rfl
  | cons s rest ih => simp [numberSlots, idsFrom, ih]

theorem map_id_numberSteps (firstSlot firstStep id link : Int) (specs : List StepSpec) :
    (numberSteps firstSlot firstStep id link specs).map Step.id = idsFrom id specs.length := by
  induction specs generalizing id link with
  | nil => rfl
  | cons s rest ih => simp [numberSteps, idsFrom, ih]

/-! ### Steps with ids -/

/-- The target and the slot of a link. -/
def Link.key (l : Link) : Int × Int := (l.target, l.slot)

/-- The key of a link with ids, given the ids of the first slot and the first step. -/
def LinkSpec.numberedKey (firstSlot firstStep : Int) (l : LinkSpec) : Int × Int :=
  (firstStep + l.target, firstSlot + l.slot)

theorem map_key_numberLinks (firstSlot firstStep id : Int) (specs : List LinkSpec) :
    (numberLinks firstSlot firstStep id specs).map Link.key =
      specs.map (LinkSpec.numberedKey firstSlot firstStep) := by
  induction specs generalizing id with
  | nil => rfl
  | cons l rest ih =>
      rw [numberLinks, List.map_cons, List.map_cons, ih]
      rfl

theorem mem_numberSteps {firstSlot firstStep id link : Int} {specs : List StepSpec} {step : Step}
    (h : step ∈ numberSteps firstSlot firstStep id link specs) :
    ∃ spec ∈ specs, step.grants.Perm (numberGrants firstSlot spec.grants) ∧
      (step.links.map Link.key).Perm (spec.links.map (LinkSpec.numberedKey firstSlot firstStep)) := by
  induction specs generalizing id link with
  | nil => cases h
  | cons spec rest ih =>
      rcases List.mem_cons.1 h with rfl | h
      · refine ⟨spec, List.mem_cons_self, sortBy_perm _ _, ?_⟩
        rw [← map_key_numberLinks firstSlot firstStep link]
        exact (sortBy_perm _ _).map _
      · obtain ⟨spec', hspec, hrest⟩ := ih h
        exact ⟨spec', List.mem_cons_of_mem _ hspec, hrest⟩

theorem map_id_numberLinks (firstSlot firstStep id : Int) (specs : List LinkSpec) :
    (numberLinks firstSlot firstStep id specs).map Link.id = idsFrom id specs.length := by
  induction specs generalizing id with
  | nil => rfl
  | cons l rest ih => simp [numberLinks, idsFrom, ih]

/-- Links are numbered across the steps of a version. -/
theorem map_id_links_numberSteps_perm (firstSlot firstStep id link : Int)
    (specs : List StepSpec) :
    (((numberSteps firstSlot firstStep id link specs).flatMap Step.links).map Link.id).Perm
      (idsFrom link (specs.flatMap StepSpec.links).length) := by
  induction specs generalizing id link with
  | nil => exact List.Perm.nil
  | cons spec rest ih =>
      rw [numberSteps, List.flatMap_cons, List.flatMap_cons, List.map_append, List.length_append,
        idsFrom_append]
      refine List.Perm.append ?_ (ih _ _)
      rw [← map_id_numberLinks firstSlot firstStep link]
      exact (sortBy_perm _ _).map _

theorem links_numberSteps_perm (firstSlot firstStep id link : Int) (specs : List StepSpec) :
    (((numberSteps firstSlot firstStep id link specs).flatMap Step.links).map Link.key).Perm
      ((specs.flatMap StepSpec.links).map (LinkSpec.numberedKey firstSlot firstStep)) := by
  induction specs generalizing id link with
  | nil => exact List.Perm.nil
  | cons spec rest ih =>
      rw [numberSteps, List.flatMap_cons, List.flatMap_cons, List.map_append, List.map_append]
      refine List.Perm.append ?_ (ih _ _)
      rw [← map_key_numberLinks firstSlot firstStep link]
      exact (sortBy_perm _ _).map _

/-! ### Stored versions -/

namespace Version

/-- A version is an accepted description with ids. -/
def Described (v : Version) : Prop :=
  ∃ raw d first, Description.validate raw = .ok d ∧ d.hasTornPart = false ∧
    v = ofDescription v.id v.process v.created first d

/-- What the parts of a version say fits together. -/
structure WellFormed (v : Version) : Prop where
  slot_ids : (v.slots.map Slot.id).Nodup
  step_ids : (v.steps.map Step.id).Nodup
  start : v.start ∈ v.steps.map Step.id
  grant_slot : ∀ step ∈ v.steps, ∀ g ∈ step.grants, g.slot ∈ v.slots.map Slot.id
  link_target : ∀ step ∈ v.steps, ∀ l ∈ step.links, l.target ∈ v.steps.map Step.id
  link_slot : ∀ step ∈ v.steps, ∀ l ∈ step.links, l.slot ∈ v.slots.map Slot.id
  link_keys : ((v.steps.flatMap Step.links).map Link.key).Nodup
  exclusive : ∀ step ∈ v.steps, ∀ g ∈ step.grants, ∀ g' ∈ step.grants,
    g.permission.isExclusive = true → g'.permission.isExclusive = true → g = g'

theorem mem_slot_ids_ofDescription {id process : Int} {created : Instant} {first : FirstIds}
    {d : Description} {n : Int} :
    n ∈ (ofDescription id process created first d).slots.map Slot.id ↔
      first.slot ≤ n ∧ n < first.slot + d.slots.length := by
  rw [ofDescription, map_id_numberSlots, mem_idsFrom]

theorem mem_step_ids_ofDescription {id process : Int} {created : Instant} {first : FirstIds}
    {d : Description} {n : Int} :
    n ∈ (ofDescription id process created first d).steps.map Step.id ↔
      first.step ≤ n ∧ n < first.step + d.steps.length := by
  rw [ofDescription, map_id_numberSteps, mem_idsFrom]

theorem wellFormed_ofDescription {id process : Int} {created : Instant} {first : FirstIds}
    {d : Description} (h : d.Sensible) : (ofDescription id process created first d).WellFormed where
  slot_ids := by
    rw [ofDescription, map_id_numberSlots]
    exact nodup_idsFrom _ _
  step_ids := by
    rw [ofDescription, map_id_numberSteps]
    exact nodup_idsFrom _ _
  start := by
    have hstart := Description.isIndex_iff.1 h.start
    rw [mem_step_ids_ofDescription]
    simp only [ofDescription]
    omega
  grant_slot step hstep g hg := by
    obtain ⟨spec, hspec, hgrants, -⟩ := mem_numberSteps hstep
    obtain ⟨gs, hgs, rfl⟩ := List.mem_map.1 (hgrants.mem_iff.1 hg)
    have hindex := Description.isIndex_iff.1 ((h.refers spec hspec).grant gs hgs)
    rw [mem_slot_ids_ofDescription]
    simp only
    omega
  link_target step hstep l hl := by
    obtain ⟨spec, hspec, -, hlinks⟩ := mem_numberSteps hstep
    obtain ⟨ls, hls, hk⟩ := List.mem_map.1 (hlinks.mem_iff.1 (List.mem_map_of_mem hl))
    have hindex := Description.isIndex_iff.1 ((h.refers spec hspec).target ls hls)
    rw [mem_step_ids_ofDescription]
    have := congrArg Prod.fst hk
    simp only [LinkSpec.numberedKey, Link.key] at this
    omega
  link_slot step hstep l hl := by
    obtain ⟨spec, hspec, -, hlinks⟩ := mem_numberSteps hstep
    obtain ⟨ls, hls, hk⟩ := List.mem_map.1 (hlinks.mem_iff.1 (List.mem_map_of_mem hl))
    have hindex := Description.isIndex_iff.1 ((h.refers spec hspec).slot ls hls)
    rw [mem_slot_ids_ofDescription]
    have := congrArg Prod.snd hk
    simp only [LinkSpec.numberedKey, Link.key] at this
    omega
  link_keys := by
    rw [ofDescription, (links_numberSteps_perm _ _ _ _ _).nodup_iff]
    refine List.Nodup.of_map (fun k : Int × Int => (k.1 - first.step, k.2 - first.slot)) ?_
    rw [List.map_map]
    refine Eq.mp (congrArg List.Nodup (List.map_congr_left fun l _ => ?_)) h.links
    simp only [Function.comp_apply, LinkSpec.numberedKey, LinkSpec.key, Prod.mk.injEq]
    omega
  exclusive step hstep g hg g' hg' he he' := by
    obtain ⟨spec, hspec, hgrants, -⟩ := mem_numberSteps hstep
    obtain ⟨gs, hgs, rfl⟩ := List.mem_map.1 (hgrants.mem_iff.1 hg)
    obtain ⟨gs', hgs', rfl⟩ := List.mem_map.1 (hgrants.mem_iff.1 hg')
    rw [h.exclusive spec hspec gs hgs gs' hgs' he he']

theorem Described.wellFormed {v : Version} (h : v.Described) : v.WellFormed := by
  obtain ⟨raw, d, first, hvalid, -, hv⟩ := h
  rw [hv]
  exact wellFormed_ofDescription (Description.sensible_of_validate hvalid)

end Version

end Editorial
