import Editorial.Proofs.Draft.Integrity

/-!
# Versions stay as they are

A turn keeps the row of a version as it is unless it deletes the version (`mem_versions_after_iff`):
what is done to definitions adds rows or removes rows, and what is done to drafts, modules and
memberships leaves definitions alone (`SameDefinitions`). A version that a run refers to can never
be deleted again, for the record of a run outlives the draft (`Store.Used.after`). The two together
say how long a version stays (`version_permanent`).
-/

namespace Editorial

/-! ### What leaves definitions alone -/

/-- Two stores have the same processes and versions. -/
def SameDefinitions (s t : Store) : Prop := t.processes = s.processes ∧ t.versions = s.versions

theorem SameDefinitions.of_extends {s t u : Store} (h : SameDefinitions s t) (hu : u.Extends t) :
    SameDefinitions s u := by
  obtain ⟨es, rfl⟩ := hu
  exact h

theorem sameDefinitions_closeOpenRun (s : Store) (module : String) (outcome : RunOutcome)
    (now : Instant) : SameDefinitions s (s.closeOpenRun module outcome now) := by
  unfold Store.closeOpenRun
  split <;> exact ⟨rfl, rfl⟩

/-- An operation leaves definitions alone when its work does. -/
theorem sameDefinitions_of_cases {α : Type} (c : Conditions) {s : Store} {o : Outcome α}
    (h : (∃ f, o = .failed s f) ∨ ∃ w : Work α, SameDefinitions s w.store ∧ o = w.outcome c) :
    SameDefinitions s o.store := by
  rcases h with ⟨f, rfl⟩ | ⟨w, hw, rfl⟩
  · exact ⟨rfl, rfl⟩
  · exact hw.of_extends (w.extends_outcome c)

theorem Drafting.Operation.sameDefinitions (c : Conditions) (s : Store) (op : Operation) :
    SameDefinitions s (op.perform c s).store := by
  cases op with
  | begin module process placements =>
      rcases begin_cases c s module process placements with ⟨f, hf⟩ |
        ⟨m, p, v, _, _, change, _, -, -, -, -, -, -, -, -, -, -, -, -, ho⟩
      · exact sameDefinitions_of_cases c (Or.inl ⟨f, hf⟩)
      · have hsame : SameDefinitions s (change.work (freshStore c s m v) change.draft).store :=
          ⟨rfl, rfl⟩
        change SameDefinitions s (Drafting.begin c s module process placements).store
        rw [ho, store_lookingBack]
        exact hsame.of_extends (Work.extends_outcome c _)
  | advance module user slot target =>
      refine sameDefinitions_of_cases c ((advance_cases c s module user slot target).imp_right ?_)
      rintro ⟨d, step, l, w, -, -, -, -, -, -, -, hw, -, ho⟩
      refine ⟨w, ?_, ho⟩
      split at hw
      · obtain ⟨-, -, rfl⟩ := finish_eq_ok_iff.1 hw
        exact sameDefinitions_closeOpenRun (s.publish d.module d.document) _ _ _
      · obtain ⟨change, filled, -, rfl⟩ := move_eq_ok_iff.1 hw
        exact ⟨rfl, rfl⟩
  | cancel module =>
      refine sameDefinitions_of_cases c ((cancel_cases c s module).imp_right ?_)
      rintro ⟨d, w, -, -, -, rfl, -, ho⟩
      exact ⟨_, sameDefinitions_closeOpenRun s _ _ _, ho⟩
  | assign module slot user =>
      refine sameDefinitions_of_cases c ((assign_cases c s module slot user).imp_right ?_)
      rintro ⟨d, row, w, -, -, -, -, -, rfl, -, ho⟩
      exact ⟨_, ⟨rfl, rfl⟩, ho⟩
  | claim module slot user =>
      refine sameDefinitions_of_cases c ((claim_cases c s module slot user).imp_right ?_)
      rintro ⟨d, row, w, -, -, -, -, -, -, -, rfl, -, ho⟩
      exact ⟨_, ⟨rfl, rfl⟩, ho⟩
  | unassign module slot =>
      refine sameDefinitions_of_cases c ((unassign_cases c s module slot).imp_right ?_)
      rintro ⟨d, row, w, -, -, -, -, rfl, -, ho⟩
      exact ⟨_, ⟨rfl, rfl⟩, ho⟩

theorem Directory.Operation.sameDefinitions (c : Conditions) (s : Store) (op : Operation) :
    SameDefinitions s (op.perform c s).store := by
  obtain ⟨modules, members, hstore⟩ := op.store_perform c s
  rw [hstore]
  exact ⟨rfl, rfl⟩

/-! ### What deletes a version -/

/-- A turn deletes a version of a store: it succeeds in deleting the version, or its process. -/
inductive Turn.Deletes (s : Store) (v : Version) : Turn → Prop where
  | version {c : Conditions} {process : Int} {version : Option Int}
      (found : Definitions.versionOf s process version = .ok v)
      (done : (Definitions.deleteVersion c s v).result = .ok ()) :
      Deletes s v ⟨c, .define (.deleteVersion process version)⟩
  | process {c : Conditions} {p : Process} (found : s.process v.process = .ok p)
      (done : (Definitions.deleteProcess c s p).result = .ok ()) :
      Deletes s v ⟨c, .define (.deleteProcess v.process)⟩

namespace Definitions

variable {c : Conditions} {s : Store} {v : Version}

theorem mem_versions_of_versionOf {process : Int} {version : Option Int}
    (h : versionOf s process version = .ok v) : v ∈ s.versions := by
  obtain ⟨p, -, h⟩ := bind_eq_ok_iff.1 h
  cases version with
  | none => exact (Store.mem_of_latest? (Store.latest_eq_ok_iff.1 h)).1
  | some id =>
      obtain ⟨⟨⟩, -, h⟩ := bind_eq_ok_iff.1 h
      split at h
      · rename_i found
        split at h
        · obtain rfl := pure_eq_ok_iff.1 h
          exact List.mem_of_find?_eq_some found
        · cases h
      · cases h

theorem mem_versions_addVersion {t : Store} (hv : v ∈ t.versions) (now : Instant) (process : Int)
    (d : Description) : v ∈ (addVersion t now process d).1.versions :=
  List.mem_append_left _ hv

theorem mem_versions_createProcess (c : Conditions) (hv : v ∈ s.versions) (team : Int)
    (raw : Json) : v ∈ (createProcess c s team raw).store.versions := by
  rcases createProcess_cases c s team raw with ⟨f, hf⟩ |
    ⟨d, t, v', name, -, -, -, -, -, -, -, ht, ho⟩
  · rw [hf]
    exact hv
  · obtain ⟨rfl, rfl⟩ := Prod.ext_iff.1 ht
    rw [ho]
    exact mem_versions_addVersion (t := addProcess s team name) hv _ _ _

theorem mem_versions_createVersion (c : Conditions) (hv : v ∈ s.versions) (p : Process)
    (raw : Json) : v ∈ (createVersion c s p raw).store.versions := by
  rcases createVersion_cases c s p raw with ⟨f, hf⟩ |
    ⟨d, t, v', name, -, -, -, -, -, -, ht, ho⟩
  · rw [hf]
    exact hv
  · obtain ⟨rfl, rfl⟩ := Prod.ext_iff.1 ht
    rw [ho]
    exact mem_versions_addVersion (t := setName s p.id name) hv _ _ _

theorem mem_versions_rename (c : Conditions) (hv : v ∈ s.versions) (p : Process) (raw : Json) :
    v ∈ (rename c s p raw).store.versions := by
  rcases rename_cases c s p raw with ⟨result, hread⟩ | ⟨name, -, -, -, ho⟩
  · rw [hread]
    exact hv
  · rw [ho]
    exact hv

/-- A version is gone when it or its process has been deleted, and in no other case. -/
theorem mem_versions_perform_iff (hs : s.Sound) (hv : v ∈ s.versions) (op : Operation) :
    v ∈ (op.perform c s).store.versions ↔ ¬Turn.Deletes s v ⟨c, .define op⟩ := by
  cases op with
  | createProcess team raw => exact iff_of_true (mem_versions_createProcess c hv team raw) nofun
  | createVersion process raw =>
      refine iff_of_true ?_ nofun
      exact onProcess_of (P := fun o => v ∈ o.store.versions) (fun _ => hv)
        fun p _ => mem_versions_createVersion c hv p raw
  | rename process name =>
      refine iff_of_true ?_ nofun
      exact onProcess_of (P := fun o => v ∈ o.store.versions) (fun _ => hv)
        fun p _ => mem_versions_rename c hv p name
  | deleteVersion process version =>
      change v ∈ (onVersion s process version fun v => deleteVersion c s v).store.versions ↔ _
      rcases onVersion_cases s process version (fun v => deleteVersion c s v) with
        ⟨f, hnone, ho⟩ | ⟨v', hfound, ho⟩
      · rw [ho]
        refine iff_of_true hv fun h => ?_
        cases h with
        | version found => cases hnone.symm.trans found
      · rw [ho]
        rcases deleteVersion_cases c s v' with ⟨f, hf⟩ | ⟨-, -, hdone⟩
        · refine iff_of_true (by rwa [hf]) fun h => ?_
          cases h with
          | version found done =>
              obtain rfl := Except.ok.inj (hfound.symm.trans found)
              rw [hf] at done
              cases done
        · rw [hdone]
          have hmem : v ∈ s.versions.filter (fun e => e.id != v'.id) ↔ v.id ≠ v'.id := by
            rw [List.mem_filter, and_iff_right hv, bne_iff_ne]
          refine hmem.trans (not_congr ⟨fun hid => ?_, fun h => ?_⟩)
          · obtain rfl := hs.version_unique hv (mem_versions_of_versionOf hfound) hid
            exact .version hfound (congrArg Outcome.result hdone)
          · cases h with
            | version found => rw [Except.ok.inj (found.symm.trans hfound)]
  | deleteProcess process =>
      change v ∈ (onProcess s process fun p => deleteProcess c s p).store.versions ↔ _
      rcases onProcess_cases s process (fun p => deleteProcess c s p) with
        ⟨f, hnone, ho⟩ | ⟨p, hfound, ho⟩
      · rw [ho]
        refine iff_of_true hv fun h => ?_
        cases h with
        | process found => cases hnone.symm.trans found
      · rw [ho]
        rcases deleteProcess_cases c s p with ⟨f, hf⟩ | ⟨-, -, hdone⟩
        · refine iff_of_true (by rwa [hf]) fun h => ?_
          cases h with
          | process found done =>
              obtain rfl := Except.ok.inj (hfound.symm.trans found)
              rw [hf] at done
              cases done
        · rw [hdone]
          have hid : p.id = process := Store.id_of_process? (Store.process_eq_ok_iff.1 hfound).2
          have hmem : v ∈ s.versions.filter (fun e => e.process != p.id) ↔ v.process ≠ process := by
            rw [List.mem_filter, and_iff_right hv, bne_iff_ne, hid]
          refine hmem.trans (not_congr ⟨?_, fun h => ?_⟩)
          · rintro rfl
            exact .process hfound (congrArg Outcome.result hdone)
          · cases h
            rfl

end Definitions

/-- A turn keeps the row of a version as it is, or deletes it. -/
theorem mem_versions_after_iff {s : Store} (hs : s.Sound) {v : Version} (hv : v ∈ s.versions)
    (t : Turn) : v ∈ (s.after t).versions ↔ ¬t.Deletes s v := by
  obtain ⟨c, action⟩ := t
  cases action with
  | define op => exact Definitions.mem_versions_perform_iff hs hv op
  | draft op =>
      refine iff_of_true ?_ nofun
      exact (Drafting.Operation.sameDefinitions c s op).2 ▸ hv
  | direct op =>
      refine iff_of_true ?_ nofun
      exact (Directory.Operation.sameDefinitions c s op).2 ▸ hv

/-- A version stays as it is until a turn deletes it. -/
theorem mem_versions_afterAll {s : Store} (hs : s.Sound) {v : Version} (hv : v ∈ s.versions)
    {turns : List Turn}
    (hkept : ∀ before t after, turns = before ++ t :: after → ¬t.Deletes (s.afterAll before) v) :
    v ∈ (s.afterAll turns).versions := by
  induction turns generalizing s with
  | nil => exact hv
  | cons t turns ih =>
      have hnext := (mem_versions_after_iff hs hv t).2 (hkept [] t turns rfl)
      refine ih (hs.after t) hnext fun before t' after h => ?_
      exact hkept (t :: before) t' after (by rw [h]; rfl)

/-! ### Versions in use -/

namespace Store

/-- A run refers to a version. -/
def Used (s : Store) (v : Version) : Prop := ∃ r ∈ s.runs, r.version = v.id

variable {s : Store} {v : Version}

theorem Used.of_runs (h : s.Used v) {t : Store}
    (ht : ∀ r ∈ s.runs, ∃ r' ∈ t.runs, r'.version = r.version) : t.Used v := by
  obtain ⟨r, hr, hversion⟩ := h
  obtain ⟨r', hr', hsame⟩ := ht r hr
  exact ⟨r', hr', hsame.trans hversion⟩

theorem Used.closeOpenRun (h : s.Used v) (module : String) (outcome : RunOutcome) (now : Instant) :
    (s.closeOpenRun module outcome now).Used v := by
  unfold Store.closeOpenRun
  split
  · refine h.of_runs fun r hr => ⟨_, List.mem_map_of_mem hr, ?_⟩
    split <;> rfl
  · exact h

/-- The record of a run stays, whatever becomes of the draft. -/
theorem Used.transition (h : s.Used v) {t : Store} (ht : Transition s t) : t.Used v := by
  have hkept {t : Store} (hruns : t.runs = s.runs) : t.Used v := by
    unfold Used
    rw [hruns]
    exact h
  cases ht with
  | stay => exact h
  | createProcess => exact hkept rfl
  | createVersion => exact hkept rfl
  | rename => exact hkept rfl
  | deleteVersion => exact hkept rfl
  | deleteProcess => exact hkept rfl
  | begin => exact h.of_runs fun r hr => ⟨r, List.mem_append_left _ hr, rfl⟩
  | seat => exact hkept rfl
  | vacate => exact hkept rfl
  | move => exact hkept rfl
  | @finish d _ _ now =>
      exact Used.closeOpenRun (s := s.publish d.module d.document) h d.module .finished now
  | cancel => exact h.closeOpenRun _ _ _
  | setModule m =>
      refine hkept ?_
      unfold putModule
      split <;> rfl
  | @setMember m =>
      refine hkept ?_
      unfold putMember
      split <;> rfl
  | removeMember => exact hkept rfl

theorem Used.after (h : s.Used v) (t : Turn) : (s.after t).Used v := by
  obtain ⟨u, hu, hext⟩ := s.after_settles t
  have hused : u.Used v := h.transition hu
  obtain ⟨es, hes⟩ := hext
  rw [hes]
  exact hused

theorem Used.afterAll (h : s.Used v) (turns : List Turn) : (s.afterAll turns).Used v := by
  induction turns generalizing s with
  | nil => exact h
  | cons t turns ih => exact ih (h.after t)

theorem Used.deleteVersion (h : s.Used v) (c : Conditions) :
    Definitions.deleteVersion c s v = .failed s (.inUse .version v.id) := by
  obtain ⟨r, hr, hversion⟩ := h
  have hany : (s.runs.any fun r => r.version == v.id) = true :=
    List.any_eq_true.2 ⟨r, hr, beq_iff_eq.2 hversion⟩
  unfold Definitions.deleteVersion
  dsimp only
  rw [if_pos hany]
  rfl

theorem Used.deleteProcess (h : s.Used v) (hv : v ∈ s.versions) (c : Conditions) {p : Process}
    (hp : p.id = v.process) :
    Definitions.deleteProcess c s p = .failed s (.inUse .process p.id) := by
  obtain ⟨r, hr, hversion⟩ := h
  have hmem : v.id ∈ (s.versionsOf p.id).map Version.id :=
    List.mem_map_of_mem (mem_versionsOf.2 ⟨hv, hp.symm⟩)
  have hany : (s.runs.any fun r => ((s.versionsOf p.id).map Version.id).contains r.version) =
      true :=
    List.any_eq_true.2 ⟨r, hr, List.contains_iff_mem.2 (hversion ▸ hmem)⟩
  unfold Definitions.deleteProcess
  dsimp only
  rw [if_pos hany]
  rfl

theorem Used.not_deletes (h : s.Used v) (hv : v ∈ s.versions) (t : Turn) : ¬t.Deletes s v := by
  intro hdel
  cases hdel with
  | version _ done =>
      rw [h.deleteVersion] at done
      cases done
  | process found done =>
      rw [h.deleteProcess hv _ (id_of_process? (process_eq_ok_iff.1 found).2)] at done
      cases done

/-- A version in use stays. -/
theorem Used.mem_versions_afterAll (h : s.Used v) (hs : s.Sound) (hv : v ∈ s.versions)
    (turns : List Turn) : v ∈ (s.afterAll turns).versions := by
  induction turns generalizing s with
  | nil => exact hv
  | cons t turns ih =>
      exact ih (h.after t) (hs.after t) ((mem_versions_after_iff hs hv t).2 (h.not_deletes hv t))

end Store

/-- A draft that has been begun uses the version to which it is bound. -/
theorem Drafting.used_begin {c : Conditions} {s : Store} {module : String} {process : Int}
    {placements : List Placement} {d : Draft}
    (h : (Drafting.begin c s module process placements).result = .ok d) {v : Version}
    (hv : d.version = v.id) :
    (Drafting.begin c s module process placements).store.Used v := by
  rcases begin_cases c s module process placements with ⟨f, hf⟩ |
    ⟨m, p, v', ordered, placed, change, filled, -, -, -, -, -, -, -, -, -, hplaced, hfilled, -, ho⟩
  · rw [hf] at h
    cases h
  · obtain ⟨es, hes⟩ := Work.extends_outcome c (change.work (freshStore c s m v') change.draft)
    have hd : change.draft = d := by
      rw [ho] at h
      unfold Outcome.lookingBack at h
      split at h
      · cases h
      · exact Except.ok.inj h
    have hsame := ((Store.seats_placeAll hplaced).1.trans (Store.seats_autofill hfilled)).draft_eq
    have hversion : v'.id = v.id := by
      rw [← hv, ← hd, hsame]
      rfl
    rw [ho, store_lookingBack, hes]
    exact ⟨_, List.mem_append_right _ (List.mem_singleton_self _), hversion⟩

/-! ### How long a version stays -/

/-- A version is stored as it is: its row is found under its id, and so are its slots and steps
under theirs. -/
structure Version.Stays (v : Version) (s : Store) : Prop where
  version : s.version? v.id = some v
  slots : ∀ slot ∈ v.slots, s.slot? slot.id = some slot
  steps : ∀ step ∈ v.steps, s.step? step.id = some (v, step)

theorem Store.Sound.stays {s : Store} (h : s.Sound) {v : Version} (hv : v ∈ s.versions) :
    v.Stays s where
  version := h.version?_eq_some_iff.2 ⟨hv, rfl⟩
  slots _ hslot := h.slot?_eq_some hv hslot
  steps _ hstep := h.step?_eq_some hv hstep

/-- A stored version stays as it is along every run that does not delete it. Once a draft has been
begun on it, it stays along every run, with its process, and neither can be deleted any more. -/
theorem version_permanent {s : Store} (h : Reachable s) {v : Version}
    (hv : s.version? v.id = some v) :
    (∀ turns, (∀ before t after, turns = before ++ t :: after →
        ¬t.Deletes (s.afterAll before) v) → v.Stays (s.afterAll turns)) ∧
    ∀ c module process placements d,
      (Drafting.begin c s module process placements).result = .ok d → d.version = v.id →
      ∀ turns,
        let s' := (s.after ⟨c, .draft (.begin module process placements)⟩).afterAll turns
        v.Stays s' ∧ ∃ p, s'.process? v.process = some p ∧
          (∀ c', Definitions.deleteVersion c' s' v = .failed s' (.inUse .version v.id)) ∧
          ∀ c', Definitions.deleteProcess c' s' p = .failed s' (.inUse .process p.id) := by
  have hs := h.sound
  have hmem := (hs.version?_eq_some_iff.1 hv).1
  refine ⟨fun turns hkept => (hs.afterAll turns).stays (mem_versions_afterAll hs hmem hkept), ?_⟩
  intro c module process placements d hbegun hversion turns s'
  have hsound := hs.after ⟨c, .draft (.begin module process placements)⟩
  have hused : (s.after ⟨c, .draft (.begin module process placements)⟩).Used v :=
    Drafting.used_begin hbegun hversion
  have hkept : v ∈ (s.after ⟨c, .draft (.begin module process placements)⟩).versions :=
    (mem_versions_after_iff hs hmem _).2 nofun
  have hv' : v ∈ s'.versions := hused.mem_versions_afterAll hsound hkept turns
  have hs' : s'.Sound := hsound.afterAll turns
  obtain ⟨p, hp, hpid⟩ := List.mem_map.1 (hs'.version_process v hv')
  exact ⟨hs'.stays hv', p, hs'.process?_eq_some_iff.2 ⟨hp, hpid⟩,
    fun c' => (hused.afterAll turns).deleteVersion c',
    fun c' => (hused.afterAll turns).deleteProcess hv' c' hpid⟩

/-- The version of the review outlives a further version, and, once a draft has been begun on it,
the end of that draft. -/
theorem version_of_review_stays :
    let defined := Store.empty.afterAll (Review.turns.take 3)
    let cancelled := Review.store.after ⟨Review.conditions, .draft (.cancel "m")⟩
    ∃ v, defined.version? 1 = some v ∧
      v.Stays (defined.after ⟨Review.conditions, .define (.createVersion 1 Review.description)⟩) ∧
      cancelled.draft? "m" = none ∧ v.Stays cancelled ∧
      ∀ c, Definitions.deleteVersion c cancelled v = .failed cancelled (.inUse .version v.id) := by
  intro defined cancelled
  obtain ⟨v, hv⟩ : ∃ v, defined.version? 1 = some v :=
    Option.isSome_iff_exists.1 (by decide +kernel)
  have hid : v.id = 1 := by simpa using List.find?_some hv
  obtain ⟨hstays, hbegun⟩ := version_permanent (s := defined) ⟨Review.turns.take 3, rfl⟩
    (v := v) (by rw [hid]; exact hv)
  obtain ⟨d, hd⟩ : ∃ d, (Drafting.begin Review.conditions defined "m" 1
      [⟨.int 1, .int 4⟩]).result = .ok d := exists_ok_of_toBool (by decide +kernel)
  have hversion : ((Drafting.begin Review.conditions defined "m" 1
      [⟨.int 1, .int 4⟩]).result.toOption.map Draft.version) = some 1 := by decide +kernel
  rw [hd] at hversion
  obtain ⟨hcancelled, p, -, hinuse, -⟩ := hbegun Review.conditions "m" 1 [⟨.int 1, .int 4⟩] d hd
    ((Option.some.inj hversion).trans hid.symm) [⟨Review.conditions, .draft (.cancel "m")⟩]
  refine ⟨v, hv, hstays [⟨Review.conditions, .define (.createVersion 1 Review.description)⟩] ?_,
    by decide +kernel, hcancelled, hinuse⟩
  intro before t after hturns
  cases before with
  | nil =>
      cases hturns
      nofun
  | cons _ before => cases before <;> cases hturns

end Editorial
