import Editorial.Proofs.Process.Graph
import Editorial.Proofs.Process.Permanence

/-!
# What a deletion removes

With a version the database removes its slots and steps, and with those every grant and link that
refers to one of them (`Store.takesGrant`, `Store.takesLink`). In a sound store a grant or a link
refers to parts of one version only, so these are the grants and links of the versions that go and
no others. A draft has a run on its version, which therefore does not go: whatever stays refers to
nothing that goes (`Store.Sound.without`). The two deletions are cases of this, one of a version and
one of a process with all its versions (`deletion_decided`).
-/

namespace Editorial

/-! ### What goes with a version -/

namespace Version

/-- The rows of the grants of a version, each with the id of its step. -/
def grantRows (v : Version) : List (Int × Grant) :=
  v.steps.flatMap fun step => step.grants.map fun g => (step.id, g)

/-- The rows of the links of a version, each with the id of the step that it leaves. -/
def linkRows (v : Version) : List (Int × Link) :=
  v.steps.flatMap fun step => step.links.map fun l => (step.id, l)

end Version

namespace Store

section Cascade

variable (s : Store) (gone : Int → Bool)

/-- A slot goes with its version. -/
def takesSlot (slot : Int) : Bool :=
  s.slotRows.any fun row => row.2.id == slot && gone row.1

/-- A step goes with its version. -/
def takesStep (step : Int) : Bool :=
  s.stepRows.any fun row => row.2.id == step && gone row.1

/-- A grant goes with its step and with its slot. -/
def takesGrant (row : Int × Grant) : Bool :=
  s.takesStep gone row.1 || s.takesSlot gone row.2.slot

/-- A link goes with the steps at both its ends and with its slot. -/
def takesLink (row : Int × Link) : Bool :=
  s.takesStep gone row.1 || s.takesStep gone row.2.target || s.takesSlot gone row.2.slot

/-- A store is left of another one when versions and processes with certain ids go. -/
structure Without (goneProcess : Int → Bool) (t : Store) : Prop where
  processes : t.processes = s.processes.filter fun p => !goneProcess p.id
  versions : t.versions = s.versions.filter fun v => !gone v.id
  /-- What the database removes with the versions, and nothing else. -/
  slots : t.slotRows = s.slotRows.filter fun row => !gone row.1
  steps : t.stepRows = s.stepRows.filter fun row => !gone row.1
  grants : t.grantRows = s.grantRows.filter fun row => !s.takesGrant gone row
  links : t.linkRows = s.linkRows.filter fun row => !s.takesLink gone row
  /-- No other version loses a grant or a link. -/
  own_grants : ∀ row ∈ s.grantRows,
    s.takesGrant gone row = true ↔ ∃ v ∈ s.versions, gone v.id = true ∧ row ∈ v.grantRows
  own_links : ∀ row ∈ s.linkRows,
    s.takesLink gone row = true ↔ ∃ v ∈ s.versions, gone v.id = true ∧ row ∈ v.linkRows
  /-- All other tables are as before. -/
  others : t = { s with processes := t.processes, versions := t.versions }
  /-- Nothing that stays refers to what goes. -/
  version_process : ∀ v ∈ t.versions, goneProcess v.process = false
  draft_version : ∀ d ∈ t.drafts, gone d.version = false
  draft_step : ∀ d ∈ t.drafts, s.takesStep gone d.step = false
  seat_slot : ∀ d ∈ t.drafts, ∀ seat ∈ d.seats, s.takesSlot gone seat.slot = false
  run_version : ∀ r ∈ t.runs, gone r.version = false

end Cascade

variable {s : Store} {gone : Int → Bool}

/-- The rows that belong to the owners that stay are those that pass the same test. -/
theorem flatMap_filter_owners {α β : Type} {owners : List α} {items : α → List β} {p : α → Bool}
    {q : β → Bool} (h : ∀ a ∈ owners, ∀ b ∈ items a, q b = p a) :
    (owners.filter p).flatMap items = (owners.flatMap items).filter q := by
  induction owners with
  | nil => rfl
  | cons a owners ih =>
      obtain ⟨ha, howners⟩ := List.forall_mem_cons.1 h
      rw [List.flatMap_cons, List.filter_append, ← ih howners]
      cases hp : p a with
      | true =>
          rw [List.filter_cons_of_pos hp, List.flatMap_cons,
            List.filter_eq_self.2 fun b hb => (ha b hb).trans hp]
      | false =>
          have hnone : (items a).filter q = [] :=
            List.filter_eq_nil_iff.2 fun b hb => by simp [ha b hb, hp]
          rw [List.filter_cons_of_neg (by simp [hp]), hnone, List.nil_append]

theorem grantRows_eq (s : Store) : s.grantRows = s.versions.flatMap Version.grantRows := by
  unfold grantRows allSteps
  rw [List.flatMap_assoc]
  rfl

theorem linkRows_eq (s : Store) : s.linkRows = s.versions.flatMap Version.linkRows := by
  unfold linkRows allSteps
  rw [List.flatMap_assoc]
  rfl

/-- What has an id of its own belongs to one version, and goes if that goes. -/
theorem any_owned_eq {β : Type} {items : Version → List β} {key : β → Int}
    (hkeys : ((s.versions.flatMap items).map key).Nodup) {v : Version} (hv : v ∈ s.versions)
    {id : Int} (hid : id ∈ (items v).map key) :
    ((s.versions.flatMap fun v => (items v).map fun b => (v.id, b)).any
      fun row => key row.2 == id && gone row.1) = gone v.id := by
  obtain ⟨b, hb, rfl⟩ := List.mem_map.1 hid
  rw [Bool.eq_iff_iff, List.any_eq_true]
  simp only [List.mem_flatMap, List.mem_map, Bool.and_eq_true, beq_iff_eq]
  constructor
  · rintro ⟨_, ⟨w, hw, other, hother, rfl⟩, hsame, hgone⟩
    rwa [owner_unique hkeys hv hw hb hother hsame.symm]
  · exact fun hgone => ⟨_, ⟨v, hv, b, hb, rfl⟩, rfl, hgone⟩

namespace Sound

theorem takesStep_eq (hs : s.Sound) {v : Version} (hv : v ∈ s.versions) {step : Int}
    (hstep : step ∈ v.steps.map Step.id) : s.takesStep gone step = gone v.id :=
  any_owned_eq hs.step_ids hv hstep

theorem takesSlot_eq (hs : s.Sound) {v : Version} (hv : v ∈ s.versions) {slot : Int}
    (hslot : slot ∈ v.slots.map Slot.id) : s.takesSlot gone slot = gone v.id :=
  any_owned_eq hs.slot_ids hv hslot

/-- The step and the slot of a grant go together. -/
theorem takesGrant_eq (hs : s.Sound) {v : Version} (hv : v ∈ s.versions) {row : Int × Grant}
    (hrow : row ∈ v.grantRows) : s.takesGrant gone row = gone v.id := by
  obtain ⟨step, hstep, hrow⟩ := List.mem_flatMap.1 hrow
  obtain ⟨g, hg, rfl⟩ := List.mem_map.1 hrow
  rw [takesGrant, hs.takesStep_eq hv (List.mem_map_of_mem hstep),
    hs.takesSlot_eq hv ((hs.described v hv).wellFormed.grant_slot step hstep g hg), Bool.or_self]

/-- Both ends and the slot of a link go together. -/
theorem takesLink_eq (hs : s.Sound) {v : Version} (hv : v ∈ s.versions) {row : Int × Link}
    (hrow : row ∈ v.linkRows) : s.takesLink gone row = gone v.id := by
  obtain ⟨step, hstep, hrow⟩ := List.mem_flatMap.1 hrow
  obtain ⟨l, hl, rfl⟩ := List.mem_map.1 hrow
  have hwell := (hs.described v hv).wellFormed
  rw [takesLink, hs.takesStep_eq hv (List.mem_map_of_mem hstep),
    hs.takesStep_eq hv (hwell.link_target step hstep l hl),
    hs.takesSlot_eq hv (hwell.link_slot step hstep l hl), Bool.or_self, Bool.or_self]

/-- What is taken of the rows of versions is what belongs to the versions that go. -/
theorem taken_iff {β : Type} {rows : Version → List β} {takes : β → Bool}
    (htakes : ∀ v ∈ s.versions, ∀ row ∈ rows v, takes row = gone v.id) {row : β}
    (hrow : row ∈ s.versions.flatMap rows) :
    takes row = true ↔ ∃ v ∈ s.versions, gone v.id = true ∧ row ∈ rows v := by
  constructor
  · intro htaken
    obtain ⟨v, hv, hrow⟩ := List.mem_flatMap.1 hrow
    exact ⟨v, hv, (htakes v hv row hrow).symm.trans htaken, hrow⟩
  · rintro ⟨v, hv, hgone, hrow⟩
    exact (htakes v hv row hrow).trans hgone

/-- Versions that no run refers to can go, and processes that are left without versions. -/
theorem without (hs : s.Sound) (gone goneProcess : Int → Bool)
    (hunused : ∀ r ∈ s.runs, gone r.version = false)
    (hempty : ∀ v ∈ s.versions, gone v.id = false → goneProcess v.process = false) :
    s.Without gone goneProcess { s with
      processes := s.processes.filter fun p => !goneProcess p.id
      versions := s.versions.filter fun v => !gone v.id } := by
  have hdraft {d : Draft} (hd : d ∈ s.drafts) :
      ∃ v ∈ s.versions, v.Carries d ∧ gone v.id = false ∧ d.version = v.id := by
    -- A draft has a run, and runs refer to versions that stay.
    obtain ⟨v, hv, hid, hcarries, -⟩ := hs.grounds d hd
    obtain ⟨r, hr, -, hversion, -⟩ := hs.running d hd
    refine ⟨v, hv, hcarries, ?_, hid.symm⟩
    rw [hid, ← hversion]
    exact hunused r hr
  refine {
    processes := rfl, versions := rfl
    slots := flatMap_filter_owners fun v _ row hrow => ?_
    steps := flatMap_filter_owners fun v _ row hrow => ?_
    grants := ?_, links := ?_, own_grants := fun row hrow => ?_, own_links := fun row hrow => ?_
    others := rfl, version_process := fun v hv => ?_, draft_version := fun d hd => ?_
    draft_step := fun d hd => ?_, seat_slot := fun d hd seat hseat => ?_
    run_version := hunused }
  · obtain ⟨slot, -, rfl⟩ := List.mem_map.1 hrow
    rfl
  · obtain ⟨step, -, rfl⟩ := List.mem_map.1 hrow
    rfl
  · rw [grantRows_eq, grantRows_eq]
    exact flatMap_filter_owners fun v hv row hrow => by rw [hs.takesGrant_eq hv hrow]
  · rw [linkRows_eq, linkRows_eq]
    exact flatMap_filter_owners fun v hv row hrow => by rw [hs.takesLink_eq hv hrow]
  · rw [grantRows_eq] at hrow
    exact taken_iff (fun v hv row => hs.takesGrant_eq hv) hrow
  · rw [linkRows_eq] at hrow
    exact taken_iff (fun v hv row => hs.takesLink_eq hv) hrow
  · obtain ⟨hv, hkept⟩ := List.mem_filter.1 hv
    exact hempty v hv (by simpa using hkept)
  · obtain ⟨v, -, -, hkept, hversion⟩ := hdraft hd
    rw [hversion]
    exact hkept
  · obtain ⟨v, hv, hcarries, hkept, -⟩ := hdraft hd
    exact (hs.takesStep_eq hv hcarries.step).trans hkept
  · obtain ⟨v, hv, hcarries, hkept, -⟩ := hdraft hd
    exact (hs.takesSlot_eq hv (hcarries.seats seat hseat)).trans hkept

end Sound

end Store

/-! ### Deletions -/

namespace Definitions

variable {c : Conditions} {s : Store}

/-- Whether an id is that of a version of a process. -/
def isVersionOf (s : Store) (process id : Int) : Bool :=
  ((s.versionsOf process).map Version.id).contains id

/-- How a deletion ends that is refused when something is in use. -/
structure DeletionEnds (c : Conditions) (s : Store) (inUse : Prop) (refusal : Failure)
    (Removed : Store → Prop) (o : Outcome Unit) : Prop where
  succeeds : c.commitError 0 = none → (o.result = .ok () ↔ ¬inUse)
  refused : inUse → o = .failed s refusal
  removed : o.result = .ok () → Removed o.store
  unchanged : ∀ f, o.result = .error f → o.store = s

/-- What is not in use goes once that is committed. -/
theorem deletionEnds_of_complete {inUse : Prop} {refusal : Failure} {Removed : Store → Prop}
    {o : Outcome Unit} {t : Store} (hrefused : inUse → o = .failed s refusal)
    (hunused : ¬inUse → o = complete c s Failure.database (.ok (work () t)))
    (ht : ¬inUse → Removed t) : DeletionEnds c s inUse refusal Removed o := by
  by_cases h : inUse
  · rw [hrefused h]
    exact ⟨fun _ => iff_of_false nofun (not_not.2 h), fun _ => rfl, nofun, fun _ _ => rfl⟩
  · rw [hunused h]
    refine ⟨fun hc => iff_of_true ?_ h, fun hin => absurd hin h, fun hdone => ?_,
      fun f hf => store_complete_of_error hf⟩
    · rw [complete_work hc]
      rfl
    · rcases complete_cases c s Failure.database (.ok (work () t)) with ⟨f, hf⟩ | ⟨w, hw, -, ho⟩
      · rw [hf] at hdone
        cases hdone
      · obtain rfl := Except.ok.inj hw
        rw [ho]
        exact ht h

theorem deleteVersion_of_unused {v : Version} (h : ¬s.Used v) :
    deleteVersion c s v = complete c s Failure.database
      (.ok (work () { s with versions := s.versions.filter fun e => e.id != v.id })) := by
  have hunused : ¬(s.runs.any fun r => r.version == v.id) = true := fun hany => by
    obtain ⟨r, hr, hversion⟩ := List.any_eq_true.1 hany
    exact h ⟨r, hr, beq_iff_eq.1 hversion⟩
  unfold deleteVersion
  dsimp only
  rw [if_neg hunused]
  rfl

theorem deleteProcess_of_unused {p : Process} (h : ∀ v ∈ s.versionsOf p.id, ¬s.Used v) :
    deleteProcess c s p = complete c s Failure.database
      (.ok (work () { s with
        versions := s.versions.filter fun v => v.process != p.id
        processes := s.processes.filter fun e => e.id != p.id })) := by
  have hunused : ¬(s.runs.any fun r =>
      ((s.versionsOf p.id).map Version.id).contains r.version) = true := fun hany => by
    obtain ⟨r, hr, hversion⟩ := List.any_eq_true.1 hany
    obtain ⟨v, hv, hid⟩ := List.mem_map.1 (List.contains_iff_mem.1 hversion)
    exact h v hv ⟨r, hr, hid.symm⟩
  unfold deleteProcess
  dsimp only
  rw [if_neg hunused]
  rfl

theorem isVersionOf_iff {process id : Int} :
    isVersionOf s process id = true ↔ ∃ v ∈ s.versions, v.process = process ∧ v.id = id := by
  simp only [isVersionOf, List.contains_iff_mem, List.mem_map, Store.mem_versionsOf, and_assoc]

theorem isVersionOf_eq (hs : s.Sound) {v : Version} (hv : v ∈ s.versions) (process : Int) :
    isVersionOf s process v.id = (v.process == process) := by
  rw [Bool.eq_iff_iff, isVersionOf_iff, beq_iff_eq]
  constructor
  · rintro ⟨w, hw, hprocess, hid⟩
    rwa [← hs.version_unique hw hv hid]
  · exact fun hprocess => ⟨v, hv, hprocess, rfl⟩

theorem deletionEnds_deleteVersion (hs : s.Sound) (c : Conditions) (v : Version) :
    DeletionEnds c s (s.Used v) (.inUse .version v.id) (s.Without (· == v.id) fun _ => false)
      (deleteVersion c s v) := by
  apply deletionEnds_of_complete (fun hused => hused.deleteVersion c) deleteVersion_of_unused
  intro hunused
  have hgone : ∀ r ∈ s.runs, (r.version == v.id) = false :=
    fun r hr => beq_eq_false_iff_ne.2 fun hid => hunused ⟨r, hr, hid⟩
  have hwithout := hs.without (· == v.id) (fun _ => false) hgone fun _ _ _ => rfl
  have hall : (s.processes.filter fun _ => !false) = s.processes :=
    List.filter_eq_self.2 fun _ _ => rfl
  rwa [hall] at hwithout

theorem deletionEnds_deleteProcess (hs : s.Sound) (c : Conditions) (p : Process) :
    DeletionEnds c s (∃ v ∈ s.versions, v.process = p.id ∧ s.Used v) (.inUse .process p.id)
      (s.Without (isVersionOf s p.id) (· == p.id)) (deleteProcess c s p) := by
  refine deletionEnds_of_complete (fun ⟨v, hv, hp, hused⟩ => hused.deleteProcess hv c hp.symm)
    (fun hunused => deleteProcess_of_unused fun v hv hused => ?_) fun hunused => ?_
  · obtain ⟨hv, hp⟩ := Store.mem_versionsOf.1 hv
    exact hunused ⟨v, hv, hp, hused⟩
  have hgone : ∀ r ∈ s.runs, isVersionOf s p.id r.version = false := by
    intro r hr
    apply Bool.eq_false_iff.2
    intro hversion
    obtain ⟨v, hv, hp, hid⟩ := isVersionOf_iff.1 hversion
    exact hunused ⟨v, hv, hp, r, hr, hid.symm⟩
  have hempty : ∀ v ∈ s.versions, isVersionOf s p.id v.id = false → (v.process == p.id) = false :=
    fun v hv hkept => by rwa [isVersionOf_eq hs hv] at hkept
  have hwithout := hs.without (isVersionOf s p.id) (· == p.id) hgone hempty
  rwa [List.filter_congr fun v hv => congrArg (!·) (isVersionOf_eq hs hv p.id)] at hwithout

end Definitions

open Definitions in
/-- Whatever has been done before, a version is deleted unless a run refers to it, a process unless
a run refers to one of its versions. If it is not deleted nothing changes; if it is, exactly its
rows go, and no row that stays refers to them. -/
theorem deletion_decided {s : Store} (h : Reachable s) (c : Conditions) :
    (∀ v ∈ s.versions,
      DeletionEnds c s (s.Used v) (.inUse .version v.id) (s.Without (· == v.id) fun _ => false)
        (deleteVersion c s v)) ∧
    ∀ p ∈ s.processes,
      DeletionEnds c s (∃ v ∈ s.versions, v.process = p.id ∧ s.Used v) (.inUse .process p.id)
        (s.Without (isVersionOf s p.id) (· == p.id)) (deleteProcess c s p) :=
  ⟨fun v _ => deletionEnds_deleteVersion h.sound c v,
    fun p _ => deletionEnds_deleteProcess h.sound c p⟩

open Definitions in
/-- In the review, a further version can be deleted, but the process cannot: a run refers to its
first version. -/
theorem further_version_of_review_deleted :
    let s := Review.store.after ⟨Review.conditions, .define (.createVersion 1 Review.description)⟩
    ∃ v p, s.version? 2 = some v ∧ s.process? 1 = some p ∧
      (deleteVersion Review.conditions s v).result = .ok () ∧
      s.Without (· == v.id) (fun _ => false) (deleteVersion Review.conditions s v).store ∧
      deleteProcess Review.conditions s p = .failed s (.inUse .process p.id) := by
  intro s
  have hreach : Reachable s := Review.reachable.after _
  obtain ⟨hversions, hprocesses⟩ := deletion_decided hreach Review.conditions
  obtain ⟨v, hv⟩ : ∃ v, s.version? 2 = some v := Option.isSome_iff_exists.1 (by decide +kernel)
  obtain ⟨w, hw⟩ : ∃ w, s.version? 1 = some w := Option.isSome_iff_exists.1 (by decide +kernel)
  obtain ⟨p, hp⟩ : ∃ p, s.process? 1 = some p := Option.isSome_iff_exists.1 (by decide +kernel)
  have hvid : v.id = 2 := by simpa using List.find?_some hv
  have hwid : w.id = 1 := by simpa using List.find?_some hw
  have hpid : p.id = 1 := by simpa using List.find?_some hp
  have hruns : s.runs.map Run.version = [1] := by decide +kernel
  have hunused : ¬s.Used v := fun ⟨r, hr, hid⟩ => by
    have hmem : r.version ∈ s.runs.map Run.version := List.mem_map_of_mem hr
    rw [hruns, List.mem_singleton, hid, hvid] at hmem
    cases hmem
  have hused : s.Used w := List.mem_map.1 (by rw [hruns, hwid]; exact List.mem_singleton_self 1)
  have hprocess : (s.version? 1).map Version.process = some 1 := by decide +kernel
  rw [hw] at hprocess
  have hends := hversions v (List.mem_of_find?_eq_some hv)
  have hdone := (hends.succeeds rfl).2 hunused
  exact ⟨v, p, hv, hp, hdone, hends.removed hdone,
    (hprocesses p (List.mem_of_find?_eq_some hp)).refused
      ⟨w, List.mem_of_find?_eq_some hw, (Option.some.inj hprocess).trans hpid.symm, hused⟩⟩

end Editorial
