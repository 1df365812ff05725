import Editorial.Proofs.Draft.Work
import Editorial.Proofs.Process.Work
import Editorial.Proofs.Store.Kept

/-!
# What a turn does to the tables

`Transition` lists the ways in which a turn may change the tables of a store, events apart, each
with what has been checked before. A transition keeps a sound store sound
(`Store.Sound.transition`): one case for each kind of change, settled by the lemma on that change.
-/

namespace Editorial

/-- A way in which a turn may change the tables of a store, events apart. -/
inductive Transition (s : Store) : Store → Prop where
  | stay : Transition s s
  | createProcess {now : Instant} {team : Int} {name : String} {raw : Json} {d : Description}
      (valid : Description.validate raw = .ok d) (whole : d.hasTornPart = false)
      (free : Definitions.requireFreeName s name none = .ok ()) (team_ok : isStorable team = true) :
      Transition s (Definitions.addVersion
        { s with processes := s.processes ++ [⟨nextId (s.processes.map Process.id), team, name⟩] }
        now (nextId (s.processes.map Process.id)) d).1
  | createVersion {now : Instant} {p : Process} {name : String} {raw : Json} {d : Description}
      (valid : Description.validate raw = .ok d) (whole : d.hasTornPart = false)
      (free : name ≠ p.name → Definitions.requireFreeName s name (some p.id) = .ok ())
      (found : s.process? p.id = some p) :
      Transition s (Definitions.addVersion (Definitions.setName s p.id name) now p.id d).1
  | rename {p : Process} {name : String}
      (free : Definitions.requireFreeName s name (some p.id) = .ok ())
      (found : s.process? p.id = some p) :
      Transition s (Definitions.setName s p.id name)
  | deleteVersion {id : Int} (unused : ∀ r ∈ s.runs, r.version ≠ id) :
      Transition s { s with versions := s.versions.filter fun v => v.id != id }
  | deleteProcess {id : Int}
      (unused : ∀ r ∈ s.runs, ∀ v ∈ s.versions, v.process = id → r.version ≠ v.id) :
      Transition s { s with
        versions := s.versions.filter fun v => v.process != id
        processes := s.processes.filter fun p => p.id != id }
  | begin {c : Conditions} {m : Module} {p : Process} {v : Version} {change : Change}
      (module : s.module? m.id = some m) (found : s.process? p.id = some p) (team : p.team = m.team)
      (idle : s.draft? m.id = none) (latest : s.latest? p.id = some v)
      (seats : (Drafting.freshStore c s m v).Seats (.start (Drafting.freshDraft c s m v)) change)
      (storable : change.draft.isOversized = false) :
      Transition s ((Drafting.freshStore c s m v).putDraft change.draft)
  | seat {d : Draft} {slot : Slot} {user : Int} (found : s.draft? d.module = some d)
      (present : s.slotIn? d.version slot.id = some slot)
      (admitted : s.requireRole slot d.team user = .ok ())
      (storable : (d.seat slot.id user).isOversized = false) :
      Transition s (s.putDraft (d.seat slot.id user))
  | vacate {d : Draft} {slot : Int} (found : s.draft? d.module = some d) :
      Transition s (s.putDraft (d.vacate slot))
  | move {d : Draft} {step : Step} {l : Link} {change : Change}
      (found : s.draft? d.module = some d) (current : s.stepOf? d = some step)
      (link : l ∈ step.links) (onward : s.isFinalFor d l.target = false)
      (seats : s.Seats (.start { d with step := l.target }) change)
      (storable : change.draft.isOversized = false) :
      Transition s (s.putDraft change.draft)
  | finish {d : Draft} {step : Step} {l : Link} {now : Instant}
      (found : s.draft? d.module = some d) (current : s.stepOf? d = some step)
      (link : l ∈ step.links) (final : s.isFinalFor d l.target = true) :
      Transition s (s.conclude d now)
  | cancel {d : Draft} {now : Instant} (found : s.draft? d.module = some d) :
      Transition s ((s.closeOpenRun d.module .cancelled now).removeDraft d.module)
  | setModule (m : Module) : Transition s (s.putModule m)
  | setMember {m : Member} (user : isStorable m.user = true) : Transition s (s.putMember m)
  | removeMember (team user : Int) : Transition s (s.removeMember team user)

/-! ### Soundness is kept -/

theorem Store.mem_of_latest? {s : Store} {process : Int} {v : Version}
    (h : s.latest? process = some v) : v ∈ s.versions ∧ v.process = process := by
  obtain ⟨hv, hprocess⟩ := List.mem_filter.1 (Ordered.least?_mem h)
  exact ⟨hv, beq_iff_eq.1 hprocess⟩

/-- Where the draft of an idle module is put, it is added. -/
theorem Drafting.freshStore_putDraft {c : Conditions} {s : Store} {m : Module} {v : Version}
    {d : Draft} (hidle : s.draft? m.id = none) (hmodule : d.module = m.id) :
    (freshStore c s m v).putDraft d = { s with
      documents := s.documents ++ [⟨nextId (s.documents.map Document.id), m.document, c.now⟩]
      drafts := s.drafts ++ [d]
      runs := s.runs ++ [⟨nextId (s.runs.map Run.id), m.id, v.id, .active, c.now, none⟩] } := by
  unfold freshStore Store.openDraft Store.putDraft
  dsimp only
  rw [List.map_append, List.map_singleton, if_pos hmodule.symm]
  congr 2
  refine (List.map_congr_left fun e he => if_neg fun hm => ?_).trans (List.map_id _)
  rw [Store.draft?, find?_key_eq_none_iff, ← hmodule, ← hm] at hidle
  exact hidle (List.mem_map_of_mem he)

namespace Store.Sound

variable {s : Store}

/-- A draft stays grounded when it is seated anew within its version. -/
theorem grounds_of_fit (h : s.Sound) {d d' : Draft} (hd : d ∈ s.drafts)
    (hversion : d'.version = d.version) (hteam : d'.team = d.team) (hfit : s.SeatsFit d')
    (hstep : ∀ v ∈ s.versions, v.id = d.version → d'.step ∈ v.steps.map Step.id) :
    s.Grounds d' := by
  obtain ⟨v, hv, hid, hcarries, p, hp, hpv, hpteam⟩ := h.grounds d hd
  have hfound := h.version?_eq_some_iff.2 ⟨hv, hid⟩
  refine ⟨v, hv, hid.trans hversion.symm, ⟨hstep v hv hid, fun seat hseat => ?_⟩, p, hp, hpv,
    hpteam.trans hteam.symm⟩
  have hslot := hfit.slots seat hseat
  rw [hversion] at hslot
  exact (slotIn?_isSome_iff hfound).1 hslot

theorem step_of_version (h : s.Sound) {d : Draft} (hd : d ∈ s.drafts) :
    ∀ v ∈ s.versions, v.id = d.version → d.step ∈ v.steps.map Step.id := by
  intro v hv hid
  obtain ⟨v', hv', hid', hcarries, -⟩ := h.grounds d hd
  rw [h.version_unique hv hv' (hid.trans hid'.symm)]
  exact hcarries.step

/-- The target of a link from the current step of a draft is a step of its version. -/
theorem target_of_version (h : s.Sound) {d : Draft} {step : Step} {l : Link}
    (hstep : s.stepOf? d = some step) (hl : l ∈ step.links) :
    ∀ v ∈ s.versions, v.id = d.version → l.target ∈ v.steps.map Step.id := by
  intro v hv hid
  unfold stepOf? stepIn? at hstep
  rw [h.version?_eq_some_iff.2 ⟨hv, hid⟩, Option.bind_some] at hstep
  exact (h.described v hv).wellFormed.link_target step (List.mem_of_find?_eq_some hstep) l hl

theorem isOversized_vacate {d : Draft} (h : d.isOversized = false) (slot : Int) :
    (d.vacate slot).isOversized = false := by
  rw [Draft.isOversized_eq_false_iff] at h ⊢
  exact fun seat hseat => h seat (List.mem_filter.1 hseat).1

theorem transition (h : s.Sound) {t : Store} (ht : Transition s t) : t.Sound := by
  cases ht with
  | stay => exact h
  | createProcess valid whole _ team_ok =>
      refine (h.addProcess _ team_ok).addVersion _ ?_ valid whole
      rw [List.map_append]
      exact List.mem_append_right _ (List.mem_singleton_self _)
  | createVersion valid whole _ found =>
      refine (h.setName _ _).addVersion _ ?_ valid whole
      rw [map_id_setName]
      exact List.mem_map_of_mem (h.process?_eq_some_iff.1 found).1
  | rename => exact h.setName _ _
  | deleteVersion unused =>
      have hdelete := h.delete (fun v => v.id != _) (fun _ => true)
        (fun v _ ⟨r, hr, hrv⟩ => by simpa [hrv] using unused r hr) (fun _ _ _ _ _ _ => rfl)
      rwa [List.filter_eq_self.2 fun _ _ => rfl] at hdelete
  | deleteProcess unused =>
      refine h.delete (fun v => v.process != _) (fun p => p.id != _) ?_ ?_
      · rintro v hv ⟨r, hr, hrv⟩
        simpa using fun hp => unused r hr v hv hp hrv
      · intro v _ p _ hkeep hpv
        rw [hpv]
        exact hkeep
  | @begin c m p v change module found team idle latest seats storable =>
      obtain ⟨hv, hprocess⟩ := mem_of_latest? latest
      obtain ⟨hp, -⟩ := h.process?_eq_some_iff.1 found
      have hfound := h.version?_eq_some_iff.2 ⟨hv, rfl⟩
      have hsame := seats.draft_eq
      have hm : change.draft.module = m.id := by rw [hsame]; rfl
      have hversion : change.draft.version = v.id := by rw [hsame]; rfl
      have hfit : s.SeatsFit change.draft := by
        have hempty : (Drafting.freshStore c s m v).SeatsFit (Drafting.freshDraft c s m v) :=
          ⟨List.Pairwise.nil, nofun⟩
        exact ⟨(seats.fit hempty).ordered, (seats.fit hempty).slots⟩
      rw [Drafting.freshStore_putDraft idle hm, ← hm, ← hversion]
      refine h.addDraft _ _ ?_ ?_ ?_ hfit.ordered storable
      · rw [hm]
        exact (find?_key_eq_none_iff Draft.module).1 idle
      · rw [hm]
        exact List.mem_map_of_mem (List.mem_of_find?_eq_some module)
      · refine ⟨v, hv, hversion.symm, ⟨?_, fun seat hseat => ?_⟩, p, hp, hprocess.symm, ?_⟩
        · rw [hsame]
          exact (h.described v hv).wellFormed.start
        · have hslot := hfit.slots seat hseat
          rw [hversion] at hslot
          exact (slotIn?_isSome_iff hfound).1 hslot
        · rw [team, hsame]
          rfl
  | @seat d slot user found present _ storable =>
      obtain ⟨hd, -⟩ := h.draft?_eq_some_iff.1 found
      have hfit := (h.seatsFit hd).seat user (Option.isSome_iff_exists.2 ⟨_, present⟩)
      exact h.putDraft hd rfl rfl
        (h.grounds_of_fit hd rfl rfl hfit (h.step_of_version hd)) hfit.ordered storable
  | @vacate d slot found =>
      obtain ⟨hd, -⟩ := h.draft?_eq_some_iff.1 found
      have hfit := (h.seatsFit hd).vacate slot
      exact h.putDraft hd rfl rfl
        (h.grounds_of_fit hd rfl rfl hfit (h.step_of_version hd)) hfit.ordered
        (isOversized_vacate (h.seats_storable d hd) slot)
  | @move d step l change found current link _ seats storable =>
      obtain ⟨hd, -⟩ := h.draft?_eq_some_iff.1 found
      have hmoved : s.SeatsFit { d with step := l.target } :=
        ⟨(h.seatsFit hd).ordered, (h.seatsFit hd).slots⟩
      have hfit := seats.fit hmoved
      have hsame := seats.draft_eq
      have hversion : change.draft.version = d.version := by rw [hsame]; rfl
      refine h.putDraft hd (by rw [hsame]; rfl) hversion
        (h.grounds_of_fit hd hversion (by rw [hsame]; rfl) hfit ?_) hfit.ordered storable
      rw [hsame]
      exact h.target_of_version current link
  | finish found =>
      exact h.conclude (h.draft?_eq_some_iff.1 found).1 _
  | cancel found =>
      exact h.endDraft (h.draft?_eq_some_iff.1 found).1 (by decide) _
  | setModule m => exact h.putModule m
  | setMember user => exact h.putMember user
  | removeMember team user => exact h.removeMember team user

end Store.Sound

end Editorial
