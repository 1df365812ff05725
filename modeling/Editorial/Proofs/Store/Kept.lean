import Editorial.Process.Definitions
import Editorial.Proofs.Store.Sound
import Editorial.Team

/-!
# What keeps a store sound

One lemma for each kind of change to the tables of a sound store: definitions are added, renamed and
deleted, drafts are opened, changed and removed together with their runs, modules and memberships
are set.
-/

namespace Editorial

open Ordered

namespace Store.Sound

variable {s : Store}

/-! ### Process definitions -/

theorem addProcess (h : s.Sound) {team : Int} (name : String) (hteam : isStorable team = true) :
    Sound { s with
      processes := s.processes ++ [⟨nextId (s.processes.map Process.id), team, name⟩] } := by
  refine { h with process_ids := ?_, process_team := ?_, version_process := ?_, grounds := ?_ }
  · simpa using nodup_append_nextId h.process_ids
  · exact forall_mem_concat h.process_team hteam
  · intro v hv
    rw [List.map_append]
    exact List.mem_append_left _ (h.version_process v hv)
  · intro d hd
    obtain ⟨v, hv, hid, hcarries, p, hp, hpv⟩ := h.grounds d hd
    exact ⟨v, hv, hid, hcarries, p, List.mem_append_left _ hp, hpv⟩

theorem map_id_setName (s : Store) (process : Int) (name : String) :
    (Definitions.setName s process name).processes.map Process.id =
      s.processes.map Process.id :=
  map_key_update Process.id (f := fun p => { p with name }) (fun _ => rfl) process s.processes

theorem mem_setName {process : Int} {name : String} {p : Process}
    (hp : p ∈ (Definitions.setName s process name).processes) :
    ∃ q ∈ s.processes, q.id = p.id ∧ q.team = p.team := by
  obtain ⟨q, hq, hpq⟩ := List.mem_map.1 hp
  refine ⟨q, hq, ?_⟩
  split at hpq <;> rw [← hpq] <;> exact ⟨rfl, rfl⟩

theorem exists_mem_setName (process : Int) (name : String) {q : Process} (hq : q ∈ s.processes) :
    ∃ p ∈ (Definitions.setName s process name).processes, p.id = q.id ∧ p.team = q.team := by
  refine ⟨_, List.mem_map_of_mem hq, ?_⟩
  split <;> exact ⟨rfl, rfl⟩

theorem setName (h : s.Sound) (process : Int) (name : String) :
    (Definitions.setName s process name).Sound := by
  have hids := map_id_setName s process name
  refine { h with process_ids := ?_, process_team := ?_, version_process := ?_, grounds := ?_ }
  · rw [hids]
    exact h.process_ids
  · intro p hp
    obtain ⟨q, hq, -, hteam⟩ := mem_setName hp
    rw [← hteam]
    exact h.process_team q hq
  · intro v hv
    rw [hids]
    exact h.version_process v hv
  · intro d hd
    obtain ⟨v, hv, hid, hcarries, q, hq, hqv, hteam⟩ := h.grounds d hd
    obtain ⟨p, hp, hpid, hpteam⟩ := exists_mem_setName process name hq
    exact ⟨v, hv, hid, hcarries, p, hp, hpid.trans hqv, hpteam.trans hteam⟩

theorem addVersion (h : s.Sound) (now : Instant) {process : Int} {raw : Json} {d : Description}
    (hprocess : process ∈ s.processes.map Process.id) (hvalid : Description.validate raw = .ok d)
    (hwhole : d.hasTornPart = false) :
    (Definitions.addVersion s now process d).1.Sound := by
  unfold Definitions.addVersion
  dsimp only
  generalize hv : Version.ofDescription (nextId (s.versions.map Version.id)) process now s.firstIds d
    = v
  have hid : v.id = nextId (s.versions.map Version.id) := by rw [← hv]; rfl
  have hdescribed : v.Described := ⟨raw, d, s.firstIds, hvalid, hwhole, by rw [← hv]; rfl⟩
  refine { h with
    version_ids := ?_, slot_ids := ?_, step_ids := ?_, described := ?_, version_process := ?_
    grounds := ?_, run_version := ?_ }
  · rw [List.map_append, List.map_singleton, hid]
    exact nodup_append_nextId h.version_ids
  · simp only [allSlots, List.flatMap_append, List.flatMap_singleton, List.map_append]
    refine List.nodup_append.2 ⟨h.slot_ids, hdescribed.wellFormed.slot_ids, fun a ha b hb e => ?_⟩
    rw [← hv, Version.mem_slot_ids_ofDescription] at hb
    have : a < s.firstIds.slot := lt_nextId ha
    omega
  · simp only [allSteps, List.flatMap_append, List.flatMap_singleton, List.map_append]
    refine List.nodup_append.2 ⟨h.step_ids, hdescribed.wellFormed.step_ids, fun a ha b hb e => ?_⟩
    rw [← hv, Version.mem_step_ids_ofDescription] at hb
    have : a < s.firstIds.step := lt_nextId ha
    omega
  · exact forall_mem_concat h.described hdescribed
  · refine forall_mem_concat h.version_process ?_
    rw [← hv]
    exact hprocess
  · intro d hd
    obtain ⟨w, hw, hwid, hrest⟩ := h.grounds d hd
    exact ⟨w, List.mem_append_left _ hw, hwid, hrest⟩
  · intro r hr
    rw [List.map_append]
    exact List.mem_append_left _ (h.run_version r hr)

/-- Versions can go that no run refers to, and processes that are left without versions. -/
theorem delete (h : s.Sound) (keepVersion : Version → Bool) (keepProcess : Process → Bool)
    (hruns : ∀ v ∈ s.versions, (∃ r ∈ s.runs, r.version = v.id) → keepVersion v = true)
    (hversions : ∀ v ∈ s.versions, ∀ p ∈ s.processes, keepVersion v = true → p.id = v.process →
      keepProcess p = true) :
    Sound { s with
      versions := s.versions.filter keepVersion
      processes := s.processes.filter keepProcess } := by
  refine { h with
    process_ids := ?_, process_team := ?_, version_ids := ?_, slot_ids := ?_, step_ids := ?_
    described := ?_, version_process := ?_, grounds := ?_, run_version := ?_ }
  · exact h.process_ids.sublist (List.filter_sublist.map _)
  · exact fun p hp => h.process_team p (List.mem_filter.1 hp).1
  · exact h.version_ids.sublist (List.filter_sublist.map _)
  · exact h.slot_ids.sublist ((List.filter_sublist.flatMap _).map _)
  · exact h.step_ids.sublist ((List.filter_sublist.flatMap _).map _)
  · exact fun v hv => h.described v (List.mem_filter.1 hv).1
  · intro v hv
    obtain ⟨hv, hkeep⟩ := List.mem_filter.1 hv
    obtain ⟨p, hp, hpv⟩ := List.mem_map.1 (h.version_process v hv)
    exact List.mem_map.2 ⟨p, List.mem_filter.2 ⟨hp, hversions v hv p hp hkeep hpv⟩, hpv⟩
  · intro d hd
    obtain ⟨v, hv, hid, hcarries, p, hp, hpv, hteam⟩ := h.grounds d hd
    obtain ⟨r, hr, -, hrv, -⟩ := h.running d hd
    have hkeep := hruns v hv ⟨r, hr, hrv.trans hid.symm⟩
    exact ⟨v, List.mem_filter.2 ⟨hv, hkeep⟩, hid, hcarries,
      p, List.mem_filter.2 ⟨hp, hversions v hv p hp hkeep hpv⟩, hpv, hteam⟩
  · intro r hr
    obtain ⟨v, hv, hid⟩ := List.mem_map.1 (h.run_version r hr)
    exact List.mem_map.2 ⟨v, List.mem_filter.2 ⟨hv, hruns v hv ⟨r, hr, hid.symm⟩⟩, hid⟩

/-! ### Drafts and their runs -/

theorem putDraft (h : s.Sound) {d d' : Draft} (hd : d ∈ s.drafts) (hmodule : d'.module = d.module)
    (hversion : d'.version = d.version) (hgrounds : s.Grounds d')
    (hordered : SeatsOrdered d'.seats) (hstorable : d'.isOversized = false) :
    (s.putDraft d').Sound := by
  have hmodules : (s.putDraft d').drafts.map Draft.module = s.drafts.map Draft.module :=
    map_key_replace Draft.module d' s.drafts
  have hforall {p : Draft → Prop} (hdrafts : ∀ e ∈ s.drafts, p e) (hput : p d') :
      ∀ e ∈ (s.putDraft d').drafts, p e :=
    forall_mem_replace Draft.module hdrafts hput
  refine { h with
    draft_modules := ?_, draft_module := hforall h.draft_module ?_
    grounds := hforall h.grounds hgrounds, seats_ordered := hforall h.seats_ordered hordered
    seats_storable := hforall h.seats_storable hstorable, running := hforall h.running ?_
    run_draft := ?_ }
  · rw [hmodules]
    exact h.draft_modules
  · rw [hmodule]
    exact h.draft_module d hd
  · rw [hmodule, hversion]
    exact h.running d hd
  · intro r hr hactive
    rw [hmodules]
    exact h.run_draft r hr hactive

theorem addDraft (h : s.Sound) {d : Draft} (doc : Document) (now : Instant)
    (hnew : d.module ∉ s.drafts.map Draft.module) (hmodule : d.module ∈ s.modules.map Module.id)
    (hgrounds : s.Grounds d) (hordered : SeatsOrdered d.seats) (hstorable : d.isOversized = false) :
    Sound { s with
      documents := s.documents ++ [doc]
      drafts := s.drafts ++ [d]
      runs := s.runs ++ [⟨nextId (s.runs.map Run.id), d.module, d.version, .active, now, none⟩] } := by
  have hidle {r : Run} (hr : r ∈ s.runs) (hactive : r.outcome = .active) : r.module ≠ d.module :=
    fun e => hnew (e ▸ h.run_draft r hr hactive)
  refine { h with
    draft_modules := nodup_map_concat Draft.module h.draft_modules hnew
    draft_module := forall_mem_concat h.draft_module hmodule
    grounds := forall_mem_concat h.grounds hgrounds
    seats_ordered := forall_mem_concat h.seats_ordered hordered
    seats_storable := forall_mem_concat h.seats_storable hstorable
    run_ids := ?_, run_version := forall_mem_concat h.run_version ?_
    running := forall_mem_concat ?_ ?_, run_draft := ?_, one_run := ?_ }
  · simpa using nodup_append_nextId h.run_ids
  · obtain ⟨v, hv, hid, -⟩ := hgrounds
    exact List.mem_map.2 ⟨v, hv, hid⟩
  · intro e he
    obtain ⟨r, hr, hrest⟩ := h.running e he
    exact ⟨r, List.mem_append_left _ hr, hrest⟩
  · exact ⟨_, List.mem_append_right _ (List.mem_singleton_self _), rfl, rfl, rfl⟩
  · rw [List.map_append]
    exact forall_mem_concat
      (fun r hr hactive => List.mem_append_left _ (h.run_draft r hr hactive))
      fun _ => List.mem_append_right _ (List.mem_singleton_self _)
  · intro r hr r' hr' hactive hactive' hmodules
    rcases List.mem_append.1 hr with hr | hr <;> rcases List.mem_append.1 hr' with hr' | hr'
    · exact h.one_run r hr r' hr' hactive hactive' hmodules
    · rw [List.mem_singleton.1 hr'] at hmodules
      exact absurd hmodules (hidle hr hactive)
    · rw [List.mem_singleton.1 hr] at hmodules
      exact absurd hmodules.symm (hidle hr' hactive')
    · rw [List.mem_singleton.1 hr, List.mem_singleton.1 hr']

/-- The run of a draft is the one that is found when the draft ends. -/
theorem exists_openRun (h : s.Sound) {d : Draft} (hd : d ∈ s.drafts) :
    ∃ r ∈ s.runs, s.openRun? d.module = some r ∧ r.module = d.module ∧ r.version = d.version ∧
      r.outcome = .active := by
  obtain ⟨r, hr, hmodule, hversion, hactive⟩ := h.running d hd
  unfold openRun?
  cases hfound : least? (fun a b => decide (b.id < a.id))
      (s.runs.filter fun r => r.module == d.module && r.outcome == .active) with
  | none =>
      have hnone := least?_eq_none_iff.1 hfound
      have : r ∈ s.runs.filter fun r => r.module == d.module && r.outcome == .active :=
        List.mem_filter.2 ⟨hr, by simp [hmodule, hactive]⟩
      rw [hnone] at this
      cases this
  | some r' =>
      obtain ⟨hr', hp⟩ := List.mem_filter.1 (least?_mem hfound)
      simp only [Bool.and_eq_true, beq_iff_eq] at hp
      have : r' = r := h.one_run r' hr' r hr hp.2 hactive (hp.1.trans hmodule.symm)
      exact ⟨r, hr, congrArg some this, hmodule, hversion, hactive⟩

theorem endDraft (h : s.Sound) {d : Draft} (hd : d ∈ s.drafts) {outcome : RunOutcome}
    (hclosed : outcome ≠ .active) (now : Instant) :
    ((s.closeOpenRun d.module outcome now).removeDraft d.module).Sound := by
  obtain ⟨r, hr, hopen, hmodule, -, hactive⟩ := h.exists_openRun hd
  unfold closeOpenRun
  rw [hopen]
  dsimp only
  have hids : (s.closeRun r.id outcome now).runs.map Run.id = s.runs.map Run.id :=
    map_key_update Run.id (f := fun e => { e with outcome, ended := some now }) (fun _ => rfl) r.id
      s.runs
  have hmem {e : Run} (he : e ∈ (s.closeRun r.id outcome now).runs) :
      (∃ e' ∈ s.runs, e'.version = e.version) ∧
        (e.outcome = .active → e ∈ s.runs ∧ e.module ≠ d.module) := by
    obtain ⟨e', he', hclose⟩ := List.mem_map.1 he
    split at hclose
    · subst hclose
      exact ⟨⟨e', he', rfl⟩, fun hne => absurd hne hclosed⟩
    · rename_i hid
      subst hclose
      refine ⟨⟨e', he', rfl⟩, fun hactive' => ⟨he', fun hm => hid ?_⟩⟩
      rw [h.one_run e' he' r hr hactive' hactive (hm.trans hmodule.symm)]
  have hkept {e : Run} (he : e ∈ s.runs) (hm : e.module ≠ d.module) :
      e ∈ (s.closeRun r.id outcome now).runs := by
    refine List.mem_map.2 ⟨e, he, if_neg fun hid => hm ?_⟩
    rw [List.inj_on_of_nodup_map h.run_ids he hr hid, hmodule]
  have hdrafts {e : Draft} (he : e ∈ s.drafts.filter fun d' => d'.module != d.module) :
      e ∈ s.drafts ∧ e.module ≠ d.module := by
    simpa using List.mem_filter.1 he
  refine { h with
    draft_modules := h.draft_modules.sublist (List.filter_sublist.map _)
    draft_module := fun e he => h.draft_module e (hdrafts he).1
    grounds := fun e he => h.grounds e (hdrafts he).1
    seats_ordered := fun e he => h.seats_ordered e (hdrafts he).1
    seats_storable := fun e he => h.seats_storable e (hdrafts he).1
    run_ids := hids ▸ h.run_ids, run_version := ?_, running := ?_, run_draft := ?_
    one_run := ?_ }
  · intro e he
    obtain ⟨e', he', hversion⟩ := (hmem he).1
    rw [← hversion]
    exact h.run_version e' he'
  · intro e he
    obtain ⟨he, hm⟩ := hdrafts he
    obtain ⟨r', hr', hrm, hrest⟩ := h.running e he
    exact ⟨r', hkept hr' (hrm ▸ hm), hrm, hrest⟩
  · intro e he hactive'
    obtain ⟨he', hm⟩ := (hmem he).2 hactive'
    obtain ⟨d', hd', hdm⟩ := List.mem_map.1 (h.run_draft e he' hactive')
    refine List.mem_map.2 ⟨d', List.mem_filter.2 ⟨hd', ?_⟩, hdm⟩
    simpa [hdm] using hm
  · intro e he e' he' ha ha' hm
    exact h.one_run e ((hmem he).2 ha).1 e' ((hmem he').2 ha').1 ha ha' hm

/-! ### Modules and memberships -/

theorem publish (h : s.Sound) (module : String) (document : Int) :
    (s.publish module document).Sound := by
  refine { h with draft_module := fun d hd => ?_ }
  have hids : (s.publish module document).modules.map Module.id = s.modules.map Module.id :=
    map_key_update Module.id (f := fun m => { m with document }) (fun _ => rfl) module s.modules
  rw [hids]
  exact h.draft_module d hd

theorem conclude (h : s.Sound) {d : Draft} (hd : d ∈ s.drafts) (now : Instant) :
    (s.conclude d now).Sound :=
  (h.publish d.module d.document).endDraft hd (by decide : RunOutcome.finished ≠ .active) now

theorem putModule (h : s.Sound) (m : Module) : (s.putModule m).Sound := by
  unfold Store.putModule
  split
  · refine { h with draft_module := fun d hd => ?_ }
    rw [map_key_replace Module.id]
    exact h.draft_module d hd
  · refine { h with draft_module := fun d hd => ?_ }
    rw [List.map_append]
    exact List.mem_append_left _ (h.draft_module d hd)

/-- A membership takes the place of the one of the same user in the same team, or there was none. -/
theorem putMember (h : s.Sound) {m : Member} (hm : isStorable m.user = true) :
    (s.putMember m).Sound := by
  unfold Store.putMember
  split
  · have hkey (e : Member) : (e.team = m.team ∧ e.user = m.user) = (e.key = m.key) := by
      simp [Member.key]
    simp only [hkey]
    refine { h with member_keys := ?_, member_user := forall_mem_replace _ h.member_user hm }
    rw [map_key_replace]
    exact h.member_keys
  · rename_i hnone
    have hnew : m.key ∉ s.members.map Member.key :=
      (find?_key_eq_none_iff Member.key).1 (Option.not_isSome_iff_eq_none.1 hnone)
    exact { h with
      member_keys := nodup_map_concat Member.key h.member_keys hnew
      member_user := forall_mem_concat h.member_user hm }

theorem removeMember (h : s.Sound) (team user : Int) : (s.removeMember team user).Sound :=
  { h with
    member_keys := h.member_keys.sublist (List.filter_sublist.map _)
    member_user := fun m hm => h.member_user m (List.mem_filter.1 hm).1 }

end Store.Sound

end Editorial
