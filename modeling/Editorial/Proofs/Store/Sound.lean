import Editorial.Proofs.Draft.Seating
import Editorial.Proofs.Process.Numbering

/-!
# Sound stores

What every run of operations keeps true of the tables of a store (`Store.Sound`): keys are distinct,
versions come from accepted descriptions, every reference leads to a row, and a draft fits the
version, the process, the module and the run that it refers to. The look-ups of a sound store find
exactly the rows that are asked for.
-/

namespace Editorial

/-- A version has the step at which a draft is, and the slots of all its seats. -/
structure Version.Carries (v : Version) (d : Draft) : Prop where
  step : d.step ∈ v.steps.map Step.id
  seats : ∀ seat ∈ d.seats, seat.slot ∈ v.slots.map Slot.id

/-- The team and the user of a membership. -/
def Member.key (m : Member) : Int × Int := (m.team, m.user)

namespace Store

/-- The version of a draft is stored, carries it and belongs to a process of its team. -/
def Grounds (s : Store) (d : Draft) : Prop :=
  ∃ v ∈ s.versions, v.id = d.version ∧ v.Carries d ∧
    ∃ p ∈ s.processes, p.id = v.process ∧ p.team = d.team

/-- What holds of the tables of a store, whatever has been done to it. -/
structure Sound (s : Store) : Prop where
  process_ids : (s.processes.map Process.id).Nodup
  process_team : ∀ p ∈ s.processes, isStorable p.team = true
  version_ids : (s.versions.map Version.id).Nodup
  slot_ids : (s.allSlots.map Slot.id).Nodup
  step_ids : (s.allSteps.map Step.id).Nodup
  described : ∀ v ∈ s.versions, v.Described
  version_process : ∀ v ∈ s.versions, v.process ∈ s.processes.map Process.id
  member_keys : (s.members.map Member.key).Nodup
  member_user : ∀ m ∈ s.members, isStorable m.user = true
  draft_modules : (s.drafts.map Draft.module).Nodup
  draft_module : ∀ d ∈ s.drafts, d.module ∈ s.modules.map Module.id
  grounds : ∀ d ∈ s.drafts, s.Grounds d
  seats_ordered : ∀ d ∈ s.drafts, SeatsOrdered d.seats
  seats_storable : ∀ d ∈ s.drafts, d.isOversized = false
  run_ids : (s.runs.map Run.id).Nodup
  run_version : ∀ r ∈ s.runs, r.version ∈ s.versions.map Version.id
  running : ∀ d ∈ s.drafts,
    ∃ r ∈ s.runs, r.module = d.module ∧ r.version = d.version ∧ r.outcome = .active
  run_draft : ∀ r ∈ s.runs, r.outcome = .active → r.module ∈ s.drafts.map Draft.module
  one_run : ∀ r ∈ s.runs, ∀ r' ∈ s.runs, r.outcome = .active → r'.outcome = .active →
    r.module = r'.module → r = r'

theorem sound_empty : Store.empty.Sound where
  process_ids := List.nodup_nil
  process_team := nofun
  version_ids := List.nodup_nil
  slot_ids := List.nodup_nil
  step_ids := List.nodup_nil
  described := nofun
  version_process := nofun
  member_keys := List.nodup_nil
  member_user := nofun
  draft_modules := List.nodup_nil
  draft_module := nofun
  grounds := nofun
  seats_ordered := nofun
  seats_storable := nofun
  run_ids := List.nodup_nil
  run_version := nofun
  running := nofun
  run_draft := nofun
  one_run := nofun

/-- Events do not matter. -/
theorem Sound.extends {s t : Store} (h : s.Sound) (ht : t.Extends s) : t.Sound := by
  obtain ⟨es, rfl⟩ := ht
  exact { h with }

/-! ### Look-ups -/

namespace Sound

variable {s : Store}

theorem process?_eq_some_iff (h : s.Sound) {id : Int} {p : Process} :
    s.process? id = some p ↔ p ∈ s.processes ∧ p.id = id :=
  find?_key_iff Process.id h.process_ids

theorem version?_eq_some_iff (h : s.Sound) {id : Int} {v : Version} :
    s.version? id = some v ↔ v ∈ s.versions ∧ v.id = id :=
  find?_key_iff Version.id h.version_ids

theorem draft?_eq_some_iff (h : s.Sound) {module : String} {d : Draft} :
    s.draft? module = some d ↔ d ∈ s.drafts ∧ d.module = module :=
  find?_key_iff Draft.module h.draft_modules

theorem version_unique (h : s.Sound) {v v' : Version} (hv : v ∈ s.versions) (hv' : v' ∈ s.versions)
    (hid : v.id = v'.id) : v = v' :=
  List.inj_on_of_nodup_map h.version_ids hv hv' hid

/-- The version of a draft and its current step. -/
theorem exists_version (h : s.Sound) {d : Draft} (hd : d ∈ s.drafts) :
    ∃ v step, v ∈ s.versions ∧ s.version? d.version = some v ∧ v.Carries d ∧ v.WellFormed ∧
      step ∈ v.steps ∧ step.id = d.step ∧ s.stepOf? d = some step := by
  obtain ⟨v, hv, hid, hcarries, -⟩ := h.grounds d hd
  have hfound := h.version?_eq_some_iff.2 ⟨hv, hid⟩
  have hwell := (h.described v hv).wellFormed
  obtain ⟨step, hstep, hstepid⟩ := List.mem_map.1 hcarries.step
  refine ⟨v, step, hv, hfound, hcarries, hwell, hstep, hstepid, ?_⟩
  unfold stepOf? stepIn?
  rw [hfound, Option.bind_some]
  exact (find?_key_iff Step.id hwell.step_ids).2 ⟨hstep, hstepid⟩

/-- A slot is found in the version of a draft if it is one of the slots of the draft. -/
theorem slotIn?_eq_some_iff (h : s.Sound) {d : Draft} (hd : d ∈ s.drafts) {id : Int} {slot : Slot} :
    s.slotIn? d.version id = some slot ↔ slot ∈ s.slotsOf d ∧ slot.id = id := by
  obtain ⟨v, -, -, hfound, -, hwell, -⟩ := h.exists_version hd
  unfold slotIn? slotsOf
  rw [hfound]
  exact find?_key_iff Slot.id hwell.slot_ids

/-- A slot that takes part in the current step is found when it is asked for within the version. -/
theorem slotIn?_of_mem_activeSlots (h : s.Sound) {d : Draft} {slot : Slot}
    (hslot : slot ∈ s.activeSlots d) : s.slotIn? d.version slot.id = some slot := by
  unfold activeSlots at hslot
  split at hslot
  · rename_i v step hfound _
    have hwell := (h.described v (h.version?_eq_some_iff.1 hfound).1).wellFormed
    unfold slotIn?
    rw [hfound, Option.bind_some]
    exact (find?_key_iff Slot.id hwell.slot_ids).2 ⟨(List.mem_filter.1 hslot).1, rfl⟩
  · cases hslot

theorem seatsFit (h : s.Sound) {d : Draft} (hd : d ∈ s.drafts) : s.SeatsFit d := by
  obtain ⟨v, -, -, hfound, hcarries, -⟩ := h.exists_version hd
  exact {
    ordered := h.seats_ordered d hd
    slots := fun seat hseat => (slotIn?_isSome_iff hfound).2 (hcarries.seats seat hseat) }

end Sound

end Store

end Editorial
