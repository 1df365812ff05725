import Editorial.Proofs.Draft.Publication
import Editorial.Proofs.Process.Graph

/-!
# Where a draft can be

A draft comes to its current step in one of two ways. A move along a link stores the draft only when
the process goes on from there, since a step without links concludes it. The beginning puts the
draft at the start step and does not ask whether the process goes on. So a draft is at a step
without links only where it has been begun (`Store.EndsAtStart`, kept by every transition), and
since the other steps are reached from the start, such a version has no other step
(`Version.Connected.steps_eq_of_start_ends`). Together these say when the process goes on from where
a draft is (`draft_leads_on`).
-/

namespace Editorial

open Relation

/-- The step with an id has no links in a version. -/
def Version.EndsAt (v : Version) (id : Int) : Prop :=
  ∃ step ∈ v.steps, step.id = id ∧ step.links = []

namespace Store

/-- A draft at a step without links is at the start of its version. -/
def EndsAtStart (s : Store) : Prop :=
  ∀ d ∈ s.drafts, ∀ v ∈ s.versions, v.id = d.version → v.EndsAt d.step → d.step = v.start

namespace EndsAtStart

variable {s t : Store}

/-- Drafts that stay where they are may go or be seated anew, and versions without drafts may come
and go. -/
theorem of_kept (h : s.EndsAtStart)
    (hdrafts : ∀ d ∈ t.drafts, ∃ e ∈ s.drafts, e.version = d.version ∧ e.step = d.step)
    (hversions : ∀ v ∈ t.versions, v ∈ s.versions ∨ ∀ d ∈ s.drafts, d.version ≠ v.id) :
    t.EndsAtStart := by
  intro d hd v hv hid hends
  obtain ⟨e, he, hversion, hstep⟩ := hdrafts d hd
  rw [← hstep] at hends ⊢
  rw [← hversion] at hid
  apply h e he v ((hversions v hv).resolve_right ?_) hid hends
  exact fun hunused => hunused e he hid.symm

theorem of_drafts (h : s.EndsAtStart) (hversions : t.versions = s.versions)
    (hdrafts : ∀ d ∈ t.drafts, ∃ e ∈ s.drafts, e.version = d.version ∧ e.step = d.step) :
    t.EndsAtStart :=
  h.of_kept hdrafts fun _ hv => Or.inl (hversions ▸ hv)

theorem of_versions (h : s.EndsAtStart) (hdrafts : t.drafts = s.drafts)
    (hversions : ∀ v ∈ t.versions, v ∈ s.versions ∨ ∀ d ∈ s.drafts, d.version ≠ v.id) :
    t.EndsAtStart :=
  h.of_kept (fun d hd => ⟨d, hdrafts ▸ hd, rfl, rfl⟩) hversions

/-- A version that is added has no drafts. -/
theorem addVersion (h : s.EndsAtStart) (hs : s.Sound) (hversions : t.versions = s.versions)
    (hdrafts : t.drafts = s.drafts) (now : Instant) (process : Int) (d : Description) :
    (Definitions.addVersion t now process d).1.EndsAtStart := by
  refine h.of_versions hdrafts fun v hv => ?_
  rcases List.mem_append.1 hv with hold | hnew
  · exact Or.inl (hversions ▸ hold)
  · right
    intro e he hid
    obtain ⟨v', hv', hversion, -⟩ := hs.grounds e he
    have hused : e.version ∈ t.versions.map Version.id := by
      rw [hversions, ← hversion]
      exact List.mem_map_of_mem hv'
    rw [hid, List.mem_singleton.1 hnew] at hused
    exact nextId_notMem _ hused

/-- A draft goes, with its run closed. -/
theorem endDraft (h : s.EndsAtStart) (module : String) (outcome : RunOutcome) (now : Instant) :
    ((s.closeOpenRun module outcome now).removeDraft module).EndsAtStart := by
  obtain ⟨runs, hruns⟩ := s.exists_runs_closeOpenRun module outcome now
  rw [hruns]
  exact h.of_drafts rfl fun e he => ⟨e, (List.mem_filter.1 he).1, rfl, rfl⟩

/-- One draft is put in its place, at the start or where the process goes on. -/
theorem putDraft (h : s.EndsAtStart) {d : Draft}
    (hd : ∀ v ∈ s.versions, v.id = d.version → v.EndsAt d.step → d.step = v.start) :
    (s.putDraft d).EndsAtStart :=
  forall_mem_replace Draft.module h hd

/-- Where a link does not conclude the process, the target has links. -/
theorem not_endsAt_of_onward (hs : s.Sound) {d : Draft} {v : Version} {target : Int}
    (hv : v ∈ s.versions) (hid : v.id = d.version) (honward : s.isFinalFor d target = false) :
    ¬v.EndsAt target := by
  rintro ⟨step, hstep, rfl, hnone⟩
  have hfinal : s.isFinalFor d step.id = true := by
    rw [hs.isFinalFor_eq_true_iff (hs.version?_eq_some_iff.2 ⟨hv, hid⟩) hstep,
      hs.linksOut_eq hv hstep, hnone]
  rw [honward] at hfinal
  cases hfinal

theorem transition (h : s.EndsAtStart) (hs : s.Sound) (ht : Transition s t) : t.EndsAtStart := by
  cases ht with
  | stay => exact h
  | createProcess => exact h.addVersion hs rfl rfl _ _ _
  | createVersion => exact h.addVersion hs rfl rfl _ _ _
  | rename => exact h.of_versions rfl fun v hv => Or.inl hv
  | deleteVersion => exact h.of_versions rfl fun v hv => Or.inl (List.mem_filter.1 hv).1
  | deleteProcess => exact h.of_versions rfl fun v hv => Or.inl (List.mem_filter.1 hv).1
  | @begin c m p v change module found team idle latest seats storable =>
      have hsame := seats.draft_eq
      have hmodule : change.draft.module = m.id := by rw [hsame]; rfl
      have hversion : change.draft.version = v.id := by rw [hsame]; rfl
      have hstart : change.draft.step = v.start := by rw [hsame]; rfl
      rw [Drafting.freshStore_putDraft idle hmodule]
      apply forall_mem_concat h
      intro v' hv' hid _
      rw [hs.version_unique hv' (mem_of_latest? latest).1 (hid.trans hversion), hstart]
  | @seat d _ _ found => exact h.putDraft (h d (hs.draft?_eq_some_iff.1 found).1)
  | @vacate d _ found => exact h.putDraft (h d (hs.draft?_eq_some_iff.1 found).1)
  | @move d step l change found current link onward seats storable =>
      have hsame := seats.draft_eq
      have hversion : change.draft.version = d.version := by rw [hsame]; rfl
      have htarget : change.draft.step = l.target := by rw [hsame]; rfl
      apply h.putDraft
      intro v hv hid hends
      rw [htarget] at hends
      exact absurd hends (not_endsAt_of_onward hs hv (hid.trans hversion) onward)
  | @finish d =>
      have hpublished : (s.publish d.module d.document).EndsAtStart := h
      exact hpublished.endDraft _ _ _
  | cancel => exact h.endDraft _ _ _
  | setModule m =>
      unfold Store.putModule
      split <;> exact h
  | setMember =>
      unfold Store.putMember
      split <;> exact h
  | removeMember => exact h

end EndsAtStart

end Store

/-! ### The start of a version -/

namespace Version

variable {v : Version}

/-- When no link leaves the start, no other step is within reach of it. -/
theorem Connected.steps_eq_of_start_ends (h : v.Connected) (hwell : v.WellFormed) {step : Step}
    (hstep : step ∈ v.steps) (hstart : step.id = v.start) (hnone : step.links = []) :
    v.steps = [step] := by
  have hunique {e : Step} (he : e ∈ v.steps) (hid : e.id = v.start) : e = step :=
    List.inj_on_of_nodup_map hwell.step_ids he hstep (hid.trans hstart.symm)
  have hall : ∀ e ∈ v.steps, e = step := by
    intro e he
    obtain hid | ⟨_, ⟨first, hfirst, hid, l, hl, -⟩, -⟩ := (h.reachable e he).cases_head
    · exact hunique he hid.symm
    · rw [hunique hfirst hid, hnone] at hl
      cases hl
  have hnodup : v.steps.Nodup := List.Nodup.of_map Step.id hwell.step_ids
  apply List.perm_singleton.1
  apply (List.perm_ext_iff_of_nodup hnodup (List.nodup_singleton step)).2
  intro e
  rw [List.mem_singleton]
  exact ⟨hall e, fun he => he ▸ hstep⟩

/-- No link leaves the only step of a version, since it could only lead back. -/
theorem Connected.links_eq_nil_of_steps (h : v.Connected) (hwell : v.WellFormed) {step : Step}
    (honly : v.steps = [step]) : step.links = [] := by
  have hstep : step ∈ v.steps := honly ▸ List.mem_singleton_self step
  apply List.eq_nil_iff_forall_not_mem.2
  intro l hl
  have htarget := hwell.link_target step hstep l hl
  rw [honly, List.map_singleton, List.mem_singleton] at htarget
  exact h.no_loop step.id ⟨step, hstep, rfl, l, hl, htarget⟩

end Version

/-! ### Where a draft is -/

theorem Reachable.endsAtStart {s : Store} (h : Reachable s) : s.EndsAtStart := by
  refine h.induction nofun fun s t hreach hends => ?_
  obtain ⟨u, hu, es, hes⟩ := s.after_settles t
  rw [hes]
  show u.EndsAtStart
  exact hends.transition hreach.sound hu

/-- An advance to a step without links concludes the draft. -/
theorem Store.Sound.finished_of_advance {s : Store} (h : s.Sound) {c : Conditions}
    {module : String} {user slot target : Int} {a : Advance}
    (hok : (Drafting.advance c s module user slot target).result = .ok a)
    (hend : s.linksOut target = []) : a = .finished := by
  rcases Drafting.advance_cases c s module user slot target with ⟨f, hf⟩ |
    ⟨d, step, l, w, -, hd, -, -, hstep, hl, -, hw, -, ho⟩
  · rw [hf] at hok
    cases hok
  obtain rfl := Step.target_of_link? hl
  have hfinal : s.isFinalFor d l.target = true := by
    obtain ⟨v, -, hv, hfound, -⟩ := h.exists_version (h.draft?_eq_some_iff.1 hd).1
    obtain ⟨next, hnext, hid⟩ := List.mem_map.1 (h.target_of_version hstep
      (List.mem_of_find?_eq_some hl) v hv (h.version?_eq_some_iff.1 hfound).2)
    rw [← hid] at hend ⊢
    exact (h.isFinalFor_eq_true_iff hfound hnext).2 hend
  rw [if_pos hfinal] at hw
  obtain ⟨-, -, rfl⟩ := Drafting.finish_eq_ok_iff.1 hw
  rw [ho] at hok
  exact (Except.ok.inj hok).symm

/-- A link leads on from where a draft is, unless the draft has been begun at the only step of its
version. An advance never gets a draft there: when no link leaves the target, the draft is gone. -/
theorem draft_leads_on {s : Store} (h : Reachable s) :
    (∀ d ∈ s.drafts, ∃ v step, s.version? d.version = some v ∧ s.step? d.step = some (v, step) ∧
      (s.linksOut d.step = [] ↔ v.steps = [step])) ∧
    ∀ c module user slot target a,
      (Drafting.advance c s module user slot target).result = .ok a → s.linksOut target = [] →
        a = .finished ∧
          (Drafting.advance c s module user slot target).store.draft? module = none := by
  have hs := h.sound
  refine ⟨fun d hd => ?_, fun c module user slot target a hok hend => ?_⟩
  · obtain ⟨v, step, hv, hfound, -, hwell, hstep, hid, -⟩ := hs.exists_version hd
    have hconnected := (hs.described v hv).connected
    rw [← hid, hs.linksOut_eq hv hstep]
    refine ⟨v, step, hfound, hs.step?_eq_some hv hstep, fun hnone => ?_, fun honly => ?_⟩
    · have hstart : d.step = v.start :=
        h.endsAtStart d hd v hv (hs.version?_eq_some_iff.1 hfound).2 ⟨step, hstep, hid, hnone⟩
      exact hconnected.steps_eq_of_start_ends hwell hstep (hid.trans hstart) hnone
    · exact hconnected.links_eq_nil_of_steps hwell honly
  · obtain rfl := hs.finished_of_advance hok hend
    exact ⟨rfl, Turn.draft?_of_concludes (t := ⟨c, _⟩) ⟨user, slot, target, rfl, hok⟩⟩

/-- In the review, the author leads on by submitting, and accepting takes the draft away. -/
theorem review_leads_on :
    (∃ v step, Review.store.version? 1 = some v ∧ Review.store.step? 1 = some (v, step) ∧
      (Review.store.linksOut 1 = [] ↔ v.steps = [step])) ∧
    Review.store.linksOut 1 ≠ [] ∧
    (Drafting.advance Review.conditions Review.reviewing "m" 6 2 3).store.draft? "m" = none := by
  have hbegun := (draft_leads_on Review.reachable).1 Review.begun
    (List.mem_of_find?_eq_some Review.draft?_store)
  obtain ⟨a, ha⟩ :
      ∃ a, (Drafting.advance Review.conditions Review.reviewing "m" 6 2 3).result = .ok a :=
    exists_ok_of_toBool (by decide +kernel)
  have haccepted := (draft_leads_on Review.reachable_reviewing).2 _ _ _ _ _ a ha (by decide +kernel)
  exact ⟨hbegun, by decide +kernel, haccepted.2⟩

open Json in
/-- A process whose only step ends it can be begun, and the draft stays where no link leads on. -/
theorem begun_without_links :
    let publishing := object [
      ("name", text "Publish"), ("start", int 0), ("slots", array []),
      ("steps", array [Review.step "Done" [] []])]
    let turns := [
      .direct (.setModule ⟨"m", 1, "", 100⟩), .define (.createProcess 1 publishing),
      .draft (.begin "m" 1 [])].map (Turn.mk Review.conditions)
    let s := Store.empty.afterAll turns
    Reachable s ∧ ∃ d ∈ s.drafts, d.module = "m" ∧ s.linksOut d.step = [] := by
  refine ⟨⟨_, rfl⟩, ?_⟩
  decide +kernel

end Editorial
