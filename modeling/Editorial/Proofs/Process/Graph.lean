import Editorial.Proofs.Draft.Integrity
import Editorial.Proofs.Process.Acceptance
import Editorial.Proofs.Store.Links

/-!
# Stored graphs

The graph of a description is checked once, by position; what is stored are rows with ids, among the
rows of all other versions. A version that comes from a description still has the graph that was
checked (`Version.Described.connected`): the steps keep their order, so that positions turn into ids
by adding the first of them. In a sound store the rows of one version are told apart from those of
any other (`Store.Sound.linkRow_fits`, `Store.Sound.grantRow_fits`, `Store.Sound.nodup_linkRows`).
Together these say that the stored graphs are well formed, whatever has been done
(`graphs_well_formed`).
-/

namespace Editorial

open Relation

/-! ### Steps by position -/

/-- A step with its id goes back to the part of the description at the same position. -/
theorem exists_spec_of_numberSteps {firstSlot firstStep id link : Int} {specs : List StepSpec}
    {i : Nat} {step : Step} (h : (numberSteps firstSlot firstStep id link specs)[i]? = some step) :
    ∃ spec, specs[i]? = some spec ∧ step.id = id + i ∧
      (step.links.map Link.key).Perm
        (spec.links.map (LinkSpec.numberedKey firstSlot firstStep)) := by
  induction specs generalizing i id link with
  | nil => simp [numberSteps] at h
  | cons spec rest ih =>
      cases i with
      | zero =>
          simp only [numberSteps, List.getElem?_cons_zero, Option.some.injEq] at h
          subst h
          refine ⟨spec, rfl, by simp, ?_⟩
          rw [← map_key_numberLinks firstSlot firstStep link]
          exact (Ordered.sortBy_perm _ _).map _
      | succ i =>
          obtain ⟨spec', hspec, hid, hlinks⟩ := ih (by simpa [numberSteps] using h)
          refine ⟨spec', hspec, ?_, hlinks⟩
          rw [hid]
          push_cast
          omega

/-! ### The graph of a version -/

namespace Version

/-- A link of a version leads from the step with an id to the one with another id. -/
def Leads (v : Version) (a b : Int) : Prop :=
  ∃ step ∈ v.steps, step.id = a ∧ ∃ l ∈ step.links, l.target = b

/-- No link leads back to where it comes from, and paths along links lead from the start to every
step, one of which ends the process. -/
structure Connected (v : Version) : Prop where
  no_loop : ∀ a, ¬v.Leads a a
  reachable : ∀ step ∈ v.steps, ReflTransGen v.Leads v.start step.id
  final : ∃ step ∈ v.steps, step.links = []

section Numbered

variable {id process : Int} {created : Instant} {first : FirstIds} {d : Description}

/-- Every position of a description has a step. -/
theorem exists_step_of_spec {i : Nat} {spec : StepSpec} (h : d.steps[i]? = some spec) :
    ∃ step ∈ (ofDescription id process created first d).steps, step.id = first.step + i ∧
      (step.links.map Link.key).Perm
        (spec.links.map (LinkSpec.numberedKey first.slot first.step)) := by
  have hlt : i < (ofDescription id process created first d).steps.length := by
    simp only [ofDescription, length_numberSteps]
    exact (List.getElem?_eq_some_iff.1 h).1
  have hstep := List.getElem?_eq_getElem hlt
  obtain ⟨spec', hspec', hid, hlinks⟩ := exists_spec_of_numberSteps hstep
  obtain rfl : spec = spec' := Option.some.inj (h.symm.trans hspec')
  exact ⟨_, List.getElem_mem hlt, hid, hlinks⟩

/-- Every step has a position in the description. -/
theorem exists_spec_of_step {step : Step}
    (h : step ∈ (ofDescription id process created first d).steps) :
    ∃ (i : Nat) (spec : StepSpec), d.steps[i]? = some spec ∧ step.id = first.step + i ∧
      (step.links.map Link.key).Perm
        (spec.links.map (LinkSpec.numberedKey first.slot first.step)) := by
  obtain ⟨i, hi⟩ := List.mem_iff_getElem?.1 h
  obtain ⟨spec, hspec⟩ := exists_spec_of_numberSteps hi
  exact ⟨i, spec, hspec⟩

/-- Links lead from step to step exactly as they lead from position to position. -/
theorem leads_ofDescription_iff {i j : Nat} :
    (ofDescription id process created first d).Leads (first.step + i) (first.step + j) ↔
      d.Leads i j := by
  constructor
  · rintro ⟨step, hstep, hid, l, hl, htarget⟩
    obtain ⟨k, spec, hspec, hk, hlinks⟩ := exists_spec_of_step hstep
    obtain rfl : k = i := by omega
    obtain ⟨ls, hls, hkey⟩ := List.mem_map.1 (hlinks.mem_iff.1 (List.mem_map_of_mem hl))
    have : first.step + ls.target = l.target := congrArg Prod.fst hkey
    exact ⟨spec, hspec, ls, hls, by omega⟩
  · rintro ⟨spec, hspec, ls, hls, htarget⟩
    obtain ⟨step, hstep, hid, hlinks⟩ := exists_step_of_spec hspec
    obtain ⟨l, hl, hkey⟩ := List.mem_map.1 (hlinks.mem_iff.2 (List.mem_map_of_mem hls))
    have : l.target = first.step + ls.target := congrArg Prod.fst hkey
    exact ⟨step, hstep, hid, l, hl, by omega⟩

theorem connected_ofDescription (h : d.Proper) :
    (ofDescription id process created first d).Connected where
  no_loop a := by
    intro hloop
    have ⟨step, hstep, hid, _⟩ := hloop
    obtain ⟨i, -, -, hi, -⟩ := exists_spec_of_step hstep
    rw [← hid, hi] at hloop
    exact h.no_loop i (leads_ofDescription_iff.1 hloop)
  reachable step hstep := by
    obtain ⟨i, spec, hspec, hid, -⟩ := exists_spec_of_step hstep
    have hpath := h.reachable i (List.getElem?_eq_some_iff.1 hspec).1
    have hstart : (ofDescription id process created first d).start =
        first.step + (d.start.toNat : Int) := by
      rw [Int.toNat_of_nonneg h.start.1]
      rfl
    rw [hid, hstart]
    exact hpath.lift (fun n : Nat => first.step + (n : Int)) fun a b => leads_ofDescription_iff.2
  final := by
    obtain ⟨spec, hspec, hnone⟩ := h.final
    obtain ⟨i, hi⟩ := List.mem_iff_getElem?.1 hspec
    obtain ⟨step, hstep, -, hlinks⟩ := exists_step_of_spec hi
    rw [hnone] at hlinks
    exact ⟨step, hstep, List.map_eq_nil_iff.1 hlinks.eq_nil⟩

end Numbered

theorem Described.connected {v : Version} (h : v.Described) : v.Connected := by
  obtain ⟨raw, d, first, hvalid, -, hv⟩ := h
  rw [hv]
  exact connected_ofDescription (Description.validate_eq_ok_iff_reads.1 hvalid).2

end Version

/-! ### Rows -/

namespace Store

/-- The rows of slots, each with the id of its version. -/
def slotRows (s : Store) : List (Int × Slot) :=
  s.versions.flatMap fun v => v.slots.map fun slot => (v.id, slot)

/-- The rows of steps, each with the id of its version. -/
def stepRows (s : Store) : List (Int × Step) :=
  s.versions.flatMap fun v => v.steps.map fun step => (v.id, step)

/-- The rows of links, each with the id of the step that it leaves. -/
def linkRows (s : Store) : List (Int × Link) :=
  s.allSteps.flatMap fun step => step.links.map fun l => (step.id, l)

/-- The rows of grants, each with the id of its step. -/
def grantRows (s : Store) : List (Int × Grant) :=
  s.allSteps.flatMap fun step => step.grants.map fun g => (step.id, g)

/-- A stored link leads from the step with an id to the one with another id. -/
def Leads (s : Store) (a b : Int) : Prop := ∃ l ∈ s.linksOut a, l.target = b

/-- The step with an id and the slot with another id belong to a version. -/
def Owns (s : Store) (v : Version) (step slot : Int) : Prop :=
  (∃ found, s.step? step = some (v, found)) ∧ ∃ found ∈ v.slots, s.slot? slot = some found

variable {s : Store}

theorem mem_rows {α : Type} {parts : Step → List α} {row : Int × α} :
    row ∈ (s.allSteps.flatMap fun step => (parts step).map fun part => (step.id, part)) ↔
      ∃ v ∈ s.versions, ∃ step ∈ v.steps, step.id = row.1 ∧ row.2 ∈ parts step := by
  unfold allSteps
  simp only [List.mem_flatMap, List.mem_map]
  constructor
  · rintro ⟨step, ⟨v, hv, hstep⟩, part, hpart, rfl⟩
    exact ⟨v, hv, step, hstep, rfl, hpart⟩
  · rintro ⟨v, hv, step, hstep, hid, hpart⟩
    exact ⟨step, ⟨v, hv, hstep⟩, row.2, hpart, Prod.ext hid rfl⟩

namespace Sound

theorem owns (h : s.Sound) {v : Version} (hv : v ∈ s.versions) {step slot : Int}
    (hstep : step ∈ v.steps.map Step.id) (hslot : slot ∈ v.slots.map Slot.id) :
    s.Owns v step slot := by
  obtain ⟨found, hfound, rfl⟩ := List.mem_map.1 hstep
  obtain ⟨seat, hseat, rfl⟩ := List.mem_map.1 hslot
  exact ⟨⟨found, h.step?_eq_some hv hfound⟩, seat, hseat, h.slot?_eq_some hv hseat⟩

/-- Both ends and the slot of a link belong to one version, and the ends are distinct. -/
theorem linkRow_fits (h : s.Sound) {row : Int × Link} (hrow : row ∈ s.linkRows) :
    ∃ v ∈ s.versions, s.Owns v row.1 row.2.slot ∧ s.Owns v row.2.target row.2.slot ∧
      row.2.target ≠ row.1 := by
  obtain ⟨v, hv, step, hstep, hid, hl⟩ := mem_rows.1 hrow
  have hwell := (h.described v hv).wellFormed
  have hslot := hwell.link_slot step hstep _ hl
  refine ⟨v, hv, h.owns hv (hid ▸ List.mem_map_of_mem hstep) hslot,
    h.owns hv (hwell.link_target step hstep _ hl) hslot, fun hloop => ?_⟩
  exact (h.described v hv).connected.no_loop row.1 ⟨step, hstep, hid, row.2, hl, hloop⟩

/-- The step and the slot of a grant belong to one version. -/
theorem grantRow_fits (h : s.Sound) {row : Int × Grant} (hrow : row ∈ s.grantRows) :
    ∃ v ∈ s.versions, s.Owns v row.1 row.2.slot := by
  obtain ⟨v, hv, step, hstep, hid, hg⟩ := mem_rows.1 hrow
  exact ⟨v, hv, h.owns hv (hid ▸ List.mem_map_of_mem hstep)
    ((h.described v hv).wellFormed.grant_slot step hstep _ hg)⟩

/-- No two links share target and slot: within a version this has been checked, and versions have no
step in common. -/
theorem nodup_linkRows (h : s.Sound) : (s.linkRows.map fun row => row.2.key).Nodup := by
  have hrows : (s.linkRows.map fun row => row.2.key) =
      s.versions.flatMap fun v => (v.steps.flatMap Step.links).map Link.key := by
    unfold linkRows allSteps
    simp only [List.flatMap_assoc, List.map_flatMap, List.map_map]
    rfl
  have hversions : s.versions.Pairwise (· ≠ ·) :=
    List.nodup_iff_pairwise_ne.1 (List.Nodup.of_map Version.id h.version_ids)
  rw [hrows, List.nodup_flatMap]
  refine ⟨fun v hv => (h.described v hv).wellFormed.link_keys, ?_⟩
  refine hversions.imp_of_mem fun {v v'} hv hv' hne key hkey hkey' => hne ?_
  have target {w : Version} (hw : w ∈ s.versions)
      (hk : key ∈ (w.steps.flatMap Step.links).map Link.key) :
      ∃ step ∈ w.steps, step.id = key.1 := by
    obtain ⟨l, hl, rfl⟩ := List.mem_map.1 hk
    obtain ⟨step, hstep, hl⟩ := List.mem_flatMap.1 hl
    exact List.mem_map.1 ((h.described w hw).wellFormed.link_target step hstep l hl)
  obtain ⟨step, hstep, hid⟩ := target hv hkey
  obtain ⟨step', hstep', hid'⟩ := target hv' hkey'
  exact owner_unique h.step_ids hv hv' hstep hstep' (hid.trans hid'.symm)

/-- Links of a version are stored links. -/
theorem leads_of_version (h : s.Sound) {v : Version} (hv : v ∈ s.versions) {a b : Int}
    (hab : v.Leads a b) : s.Leads a b := by
  obtain ⟨step, hstep, rfl, l, hl, rfl⟩ := hab
  refine ⟨l, ?_, rfl⟩
  rwa [h.linksOut_eq hv hstep]

end Sound

/-- What the stored graphs are like. -/
structure GraphsWellFormed (s : Store) : Prop where
  /-- A version has exactly one start step. -/
  start : ∀ v ∈ s.versions, ∃! step, step ∈ v.steps ∧ step.id = v.start
  /-- Both ends and the slot of a link belong to the same version. -/
  links : ∀ row ∈ s.linkRows, ∃ v ∈ s.versions,
    s.Owns v row.1 row.2.slot ∧ s.Owns v row.2.target row.2.slot
  /-- The step and the slot of a grant belong to the same version. -/
  grants : ∀ row ∈ s.grantRows, ∃ v ∈ s.versions, s.Owns v row.1 row.2.slot
  /-- No step and no slot belongs to two versions. -/
  owners : (s.stepRows.map fun row => row.2.id).Nodup ∧ (s.slotRows.map fun row => row.2.id).Nodup
  /-- No link is a loop. -/
  no_loop : ∀ row ∈ s.linkRows, row.1 ≠ row.2.target
  /-- No two links share target and slot. -/
  link_keys : (s.linkRows.map fun row => (row.2.target, row.2.slot)).Nodup
  /-- Every step is reached from the start along stored links. -/
  reachable : ∀ v ∈ s.versions, ∀ step ∈ v.steps, ReflTransGen s.Leads v.start step.id
  /-- Some step has no link that leaves it. -/
  final : ∀ v ∈ s.versions, ∃ step ∈ v.steps, s.linksOut step.id = []
  /-- Every step and every slot has its version. -/
  versions : (∀ row ∈ s.stepRows, ∃ v, s.version? row.1 = some v ∧ row.2 ∈ v.steps) ∧
    ∀ row ∈ s.slotRows, ∃ v, s.version? row.1 = some v ∧ row.2 ∈ v.slots

end Store

open Store in
/-- Whatever has been done to definitions and drafts, the stored graphs are well formed. -/
theorem graphs_well_formed {s : Store} (h : Reachable s) : s.GraphsWellFormed := by
  have hs := h.sound
  refine ⟨fun v hv => ?_, fun row hrow => ?_, fun row hrow => hs.grantRow_fits hrow, ⟨?_, ?_⟩,
    fun row hrow => ?_, hs.nodup_linkRows, fun v hv step hstep => ?_, fun v hv => ?_, ⟨?_, ?_⟩⟩
  · have hwell := (hs.described v hv).wellFormed
    obtain ⟨step, hstep, hid⟩ := List.mem_map.1 hwell.start
    refine ⟨step, ⟨hstep, hid⟩, fun other ⟨hother, hotherid⟩ => ?_⟩
    exact List.inj_on_of_nodup_map hwell.step_ids hother hstep (hotherid.trans hid.symm)
  · obtain ⟨v, hv, hsource, htarget, -⟩ := hs.linkRow_fits hrow
    exact ⟨v, hv, hsource, htarget⟩
  · have hids := hs.step_ids
    simpa only [stepRows, allSteps, List.map_flatMap, List.map_map, Function.comp_def] using hids
  · have hids := hs.slot_ids
    simpa only [slotRows, allSlots, List.map_flatMap, List.map_map, Function.comp_def] using hids
  · obtain ⟨v, -, -, -, hne⟩ := hs.linkRow_fits hrow
    exact hne.symm
  · exact ReflTransGen.mono (fun _ _ => hs.leads_of_version hv) _ _
      ((hs.described v hv).connected.reachable step hstep)
  · obtain ⟨step, hstep, hnone⟩ := (hs.described v hv).connected.final
    exact ⟨step, hstep, by rw [hs.linksOut_eq hv hstep, hnone]⟩
  · intro row hrow
    obtain ⟨v, hv, hrow⟩ := List.mem_flatMap.1 hrow
    obtain ⟨step, hstep, rfl⟩ := List.mem_map.1 hrow
    exact ⟨v, hs.version?_eq_some_iff.2 ⟨hv, rfl⟩, hstep⟩
  · intro row hrow
    obtain ⟨v, hv, hrow⟩ := List.mem_flatMap.1 hrow
    obtain ⟨slot, hslot, rfl⟩ := List.mem_map.1 hrow
    exact ⟨v, hs.version?_eq_some_iff.2 ⟨hv, rfl⟩, hslot⟩

/-- In the review, the link that rejects goes back to where the author writes. -/
theorem graph_of_review :
    Reachable Review.store ∧ Review.store.linkRows.length = 3 ∧
      (2, ⟨2, "reject", 1, 2⟩) ∈ Review.store.linkRows ∧ Review.store.GraphsWellFormed :=
  ⟨Review.reachable, by decide +kernel, by decide +kernel, graphs_well_formed Review.reachable⟩

end Editorial
