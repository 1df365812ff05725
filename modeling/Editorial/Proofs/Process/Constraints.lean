import Editorial.Proofs.Process.Graph
import Editorial.Proofs.Process.Names
import Editorial.Proofs.Process.Positions

/-!
# What the database asks of definitions

The tables of definitions have keys, names that are unique among their siblings, references to other
tables and a rule against loops (`Store.Constraints`). Storing a version checks nothing of this. It
need not: what was read of a description is distinct by position and stays so by id
(`Version.Described.distinct`), ids of slots, steps and links are given out one after the other
(`Store.LinksNumbered.add`), and a process gets a name that no other one has. So whatever has been
done, the tables satisfy all that is asked of them (`Reachable.constraints`).
-/

namespace Editorial

open Ordered Text Description

/-! ### Names and grants of a version -/

namespace Version

/-- What has to be distinct within a version. -/
structure Distinct (v : Version) : Prop where
  slot_names : (v.slots.map Slot.name).Nodup
  step_names : (v.steps.map Step.name).Nodup
  grants : ∀ step ∈ v.steps, step.grants.Nodup
  link_names : ∀ step ∈ v.steps, (step.links.map Link.name).Nodup

theorem distinct_ofDescription {id process : Int} {created : Instant} {first : FirstIds}
    {d : Description} (hclean : d.Clean) (hproper : d.Proper) (hwhole : d.hasTornPart = false) :
    (ofDescription id process created first d).Distinct := by
  set v := ofDescription id process created first d
  have hslots : v.slots.map (fun s => (⟨s.name, s.roles, s.autofill⟩ : SlotSpec)) = d.slots :=
    map_slotSpec_numberSlots (hasTornPart_eq_false_iff.1 hwhole).1
  have hsteps : v.steps.map v.stepSpec = d.sorted.steps :=
    map_stepSpec_numberSteps hproper hwhole (List.Subset.refl _)
  have hspec : ∀ step ∈ v.steps, v.stepSpec step ∈ d.sorted.steps :=
    fun step hstep => hsteps ▸ List.mem_map_of_mem hstep
  refine ⟨?_, ?_, fun step hstep => ?_, fun step hstep => ?_⟩
  · have hnames := hproper.slot_names
    rw [← hslots, List.map_map] at hnames
    exact List.Nodup.of_map Wording.whole (by rwa [List.map_map])
  · have hnames := hproper.sorted.step_names
    rw [← hsteps, List.map_map] at hnames
    exact List.Nodup.of_map Wording.whole (by rwa [List.map_map])
  · exact List.Nodup.of_map v.grantSpec (hclean.sorted.grants _ (hspec step hstep))
  · have hnames := hproper.sorted.link_names _ (hspec step hstep)
    rw [stepSpec, List.map_map] at hnames
    exact List.Nodup.of_map Wording.whole (by rwa [List.map_map])

theorem Described.distinct {v : Version} (h : v.Described) : v.Distinct := by
  obtain ⟨raw, d, first, hvalid, hwhole, hv⟩ := h
  obtain ⟨hread, hproper⟩ := Description.validate_eq_ok_iff_reads.1 hvalid
  rw [hv]
  exact distinct_ofDescription hread.clean hproper hwhole

end Version

/-! ### Ids of links -/

namespace Store

variable {s t : Store}

/-- No two links have the same id. -/
def LinksNumbered (s : Store) : Prop := (s.allLinks.map Link.id).Nodup

theorem allLinks_eq (s : Store) :
    s.allLinks = s.versions.flatMap fun v => v.steps.flatMap Step.links := by
  unfold allLinks allSteps
  rw [List.flatMap_assoc]

theorem LinksNumbered.congr (h : s.LinksNumbered) (ht : t.versions = s.versions) :
    t.LinksNumbered := by
  unfold LinksNumbered
  rw [allLinks_eq, ht, ← allLinks_eq]
  exact h

/-- The links of the next version have ids that no link has. -/
theorem LinksNumbered.add (h : s.LinksNumbered) {process : Int} {now : Instant} {d : Description}
    (ht : t.versions = s.versions ++ [s.nextVersion process now d]) : t.LinksNumbered := by
  have hnew := map_id_links_numberSteps_perm s.firstIds.slot s.firstIds.step s.firstIds.step
    s.firstIds.link d.steps
  unfold LinksNumbered
  rw [allLinks_eq, ht, List.flatMap_append, List.flatMap_singleton, ← allLinks_eq, List.map_append,
    List.nodup_append]
  refine ⟨h, hnew.nodup_iff.2 (nodup_idsFrom _ _), fun a ha b hb e => ?_⟩
  -- New ids begin behind all that are in use.
  have hbound := (mem_idsFrom.1 (hnew.mem_iff.1 hb)).1
  have : a < s.firstIds.link := lt_nextId ha
  omega

theorem LinksNumbered.after (h : s.LinksNumbered) (t : Turn) : (s.after t).LinksNumbered := by
  cases t.redefines s with
  | creates hcreated =>
      obtain ⟨hversions, raw, d, -, -, hv⟩ := hcreated.added
      rw [hv] at hversions
      exact h.add hversions
  | renames _ _ _ hafter =>
      rw [hafter]
      exact h.congr rfl
  | keeps _ _ _ hversions =>
      unfold LinksNumbered
      rw [allLinks_eq, hversions]
      rw [LinksNumbered, allLinks_eq] at h
      exact h.sublist ((List.filter_sublist.flatMap _).map _)

/-! ### All constraints -/

/-- What the database asks of the tables of definitions. That no column is empty is said by the
types of the rows. -/
structure Constraints (s : Store) : Prop where
  process_ids : (s.processes.map Process.id).Nodup
  process_names : (s.processes.map Process.name).Nodup
  version_ids : (s.versions.map Version.id).Nodup
  version_process : ∀ v ∈ s.versions, v.process ∈ s.processes.map Process.id
  slot_ids : (s.allSlots.map Slot.id).Nodup
  slot_version : ∀ row ∈ s.slotRows, row.1 ∈ s.versions.map Version.id
  slot_names : (s.slotRows.map fun row => (row.1, row.2.name)).Nodup
  step_ids : (s.allSteps.map Step.id).Nodup
  step_version : ∀ row ∈ s.stepRows, row.1 ∈ s.versions.map Version.id
  step_names : (s.stepRows.map fun row => (row.1, row.2.name)).Nodup
  /-- Step, slot and permission make the key of a grant. -/
  grants : (s.grantRows.map fun row => (row.1, row.2.slot, row.2.permission)).Nodup
  grant_step : ∀ row ∈ s.grantRows, row.1 ∈ s.allSteps.map Step.id
  grant_slot : ∀ row ∈ s.grantRows, row.2.slot ∈ s.allSlots.map Slot.id
  link_ids : (s.linkRows.map fun row => row.2.id).Nodup
  link_source : ∀ row ∈ s.linkRows, row.1 ∈ s.allSteps.map Step.id
  link_target : ∀ row ∈ s.linkRows, row.2.target ∈ s.allSteps.map Step.id
  link_slot : ∀ row ∈ s.linkRows, row.2.slot ∈ s.allSlots.map Slot.id
  link_names : (s.linkRows.map fun row => (row.1, row.2.name)).Nodup
  link_targets : (s.linkRows.map fun row => (row.2.target, row.2.slot)).Nodup
  no_loop : ∀ row ∈ s.linkRows, row.1 ≠ row.2.target

theorem map_id_linkRows (s : Store) :
    (s.linkRows.map fun row => row.2.id) = s.allLinks.map Link.id := by
  unfold linkRows allLinks
  rw [List.map_flatMap, List.map_flatMap]
  simp only [List.map_map, Function.comp_def]

namespace Sound

theorem mem_step_ids {v : Version} (hv : v ∈ s.versions) {id : Int}
    (h : id ∈ v.steps.map Step.id) : id ∈ s.allSteps.map Step.id := by
  obtain ⟨step, hstep, rfl⟩ := List.mem_map.1 h
  exact List.mem_map_of_mem (List.mem_flatMap.2 ⟨v, hv, hstep⟩)

theorem mem_slot_ids {v : Version} (hv : v ∈ s.versions) {id : Int}
    (h : id ∈ v.slots.map Slot.id) : id ∈ s.allSlots.map Slot.id := by
  obtain ⟨slot, hslot, rfl⟩ := List.mem_map.1 h
  exact List.mem_map_of_mem (List.mem_flatMap.2 ⟨v, hv, hslot⟩)

/-- Rows that versions own refer to them. -/
theorem version_of_row {β : Type} {items : Version → List β} {row : Int × β}
    (h : row ∈ s.versions.flatMap fun v => (items v).map fun b => (v.id, b)) :
    row.1 ∈ s.versions.map Version.id := by
  obtain ⟨v, hv, hrow⟩ := List.mem_flatMap.1 h
  obtain ⟨b, -, rfl⟩ := List.mem_map.1 hrow
  exact List.mem_map_of_mem hv

/-- What has to be distinct in every step is so, whatever the version. -/
theorem forall_mem_allSteps {P : Step → Prop} (h : ∀ v ∈ s.versions, ∀ step ∈ v.steps, P step) :
    ∀ step ∈ s.allSteps, P step := by
  intro step hstep
  obtain ⟨v, hv, hstep⟩ := List.mem_flatMap.1 hstep
  exact h v hv step hstep

theorem constraints (hs : s.Sound) (hnamed : s.WellNamed) (hlinks : s.LinksNumbered) :
    s.Constraints where
  process_ids := hs.process_ids
  process_names := hnamed.distinct
  version_ids := hs.version_ids
  version_process := hs.version_process
  slot_ids := hs.slot_ids
  slot_version _ := version_of_row
  slot_names := nodup_owned hs.version_ids fun v hv => (hs.described v hv).distinct.slot_names
  step_ids := hs.step_ids
  step_version _ := version_of_row
  step_names := nodup_owned hs.version_ids fun v hv => (hs.described v hv).distinct.step_names
  grants := by
    have hgrants : ∀ step ∈ s.allSteps, (step.grants.map fun g => (g.slot, g.permission)).Nodup :=
      forall_mem_allSteps fun v hv step hstep => by
        refine ((hs.described v hv).distinct.grants step hstep).map fun a b h => ?_
        obtain ⟨hslot, hpermission⟩ := Prod.mk.inj h
        exact Grant.mk.injEq .. ▸ ⟨hslot, hpermission⟩
    exact nodup_owned hs.step_ids hgrants
  grant_step row hrow := by
    obtain ⟨v, hv, step, hstep, hid, -⟩ := mem_rows.1 hrow
    exact mem_step_ids hv (hid ▸ List.mem_map_of_mem hstep)
  grant_slot row hrow := by
    obtain ⟨v, hv, step, hstep, -, hg⟩ := mem_rows.1 hrow
    exact mem_slot_ids hv ((hs.described v hv).wellFormed.grant_slot step hstep _ hg)
  link_ids := by
    rw [map_id_linkRows]
    exact hlinks
  link_source row hrow := by
    obtain ⟨v, hv, step, hstep, hid, -⟩ := mem_rows.1 hrow
    exact mem_step_ids hv (hid ▸ List.mem_map_of_mem hstep)
  link_target row hrow := by
    obtain ⟨v, hv, step, hstep, -, hl⟩ := mem_rows.1 hrow
    exact mem_step_ids hv ((hs.described v hv).wellFormed.link_target step hstep _ hl)
  link_slot row hrow := by
    obtain ⟨v, hv, step, hstep, -, hl⟩ := mem_rows.1 hrow
    exact mem_slot_ids hv ((hs.described v hv).wellFormed.link_slot step hstep _ hl)
  link_names := nodup_owned hs.step_ids
    (forall_mem_allSteps fun v hv => (hs.described v hv).distinct.link_names)
  link_targets := hs.nodup_linkRows
  no_loop row hrow := by
    obtain ⟨v, -, -, -, hne⟩ := hs.linkRow_fits hrow
    exact hne.symm

end Sound

end Store

theorem Reachable.linksNumbered {s : Store} (h : Reachable s) : s.LinksNumbered :=
  h.induction List.nodup_nil fun _ t _ hs => hs.after t

theorem Reachable.constraints {s : Store} (h : Reachable s) : s.Constraints :=
  h.sound.constraints h.wellNamed h.linksNumbered

end Editorial
