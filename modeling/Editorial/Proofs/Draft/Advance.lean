import Editorial.Proofs.Draft.Autofill
import Editorial.Proofs.Draft.Grants
import Editorial.Proofs.Event.Delivery

/-!
# How a draft advances

When nothing else fails, an advance is decided by the draft alone (`advance_decided`): there has to
be a draft, the user has to sit in the slot, and a link has to be stored that leads from the current
step to the target for that slot. `Draft.MovesOn` says what an advance to a step with links does,
`Draft.Concludes` what the last one does; both give the store afterwards exactly.
-/

namespace Editorial

open Json

/-! ### The two outcomes -/

/-- A draft moves on to a step: it keeps its seats and gets those that autofill adds in the slots
that take part in the step, every new user is told so, and all who are seated learn what they may do
now, which is what the stored grants of the step say of their slots. -/
structure Draft.MovesOn (c : Conditions) (s : Store) (d : Draft) (target : Int) (d' : Draft)
    (filled : List Seat) (may : Int → List Permission) (o : Outcome Advance) : Prop where
  result : o.result = .ok (.moved d')
  draft : d' = { d with step := target, seats := d'.seats }
  autofilled : ∃ change, change.draft = d' ∧
    s.autofill c.autofill (.start { d with step := target })
      (s.activeSlots { d with step := target }) = .ok (change, filled)
  seats : ∀ seat, seat ∈ d'.seats ↔ seat ∈ d.seats ∨ seat ∈ filled
  one_seat : (d'.seats.map Seat.slot).Nodup
  added : ∀ seat ∈ filled, d.occupant? seat.slot = none ∧
    ∃ slot ∈ s.activeSlots { d with step := target }, slot.id = seat.slot ∧ slot.autofill = true ∧
      seat.user ∈ s.candidates slot d.team
  holders : d'.holders.Nodup ∧ ∀ user, user ∈ d'.holders ↔ d'.isSeated user = true
  permissions : ∀ user ps, s.Allows target d'.seats user ps ↔ ps = may user
  store : o.store = Store.tell
    { s with drafts := s.drafts.map fun e => if e.module = d.module then d' else e }
    c.now (filled.map (fun seat => ⟨.slotFilled, seat.user, object (d.slotPayload seat.slot)⟩) ++
      d'.holders.map fun user => ⟨.draftAdvanced, user, object [
        ("module", text d.module), ("document", int d.document), ("step", int target),
        ("permissions", ofTexts ((may user).map Permission.text))]⟩)

/-- A draft is concluded: it is gone, its document is the module's, the one active run of the module
is finished and everyone who was seated is told so. -/
structure Draft.Concludes (c : Conditions) (s : Store) (d : Draft) (o : Outcome Advance) : Prop where
  result : o.result = .ok .finished
  gone : ∀ e ∈ o.store.drafts, e.module ≠ d.module
  published : ∃ m, s.module? d.module = some m ∧
    o.store.module? d.module = some { m with document := d.document }
  one_run : ∃ r ∈ s.runs, ∀ e ∈ s.runs, e.module = d.module ∧ e.outcome = .active ↔ e = r
  holders : d.holders.Nodup ∧ ∀ user, user ∈ d.holders ↔ d.isSeated user = true
  store : o.store = Store.tell
    { s with
      drafts := s.drafts.filter fun e => e.module != d.module
      modules := s.modules.map fun m =>
        if m.id = d.module then { m with document := d.document } else m
      runs := s.runs.map fun r =>
        if r.module = d.module ∧ r.outcome = .active then
          { r with outcome := .finished, ended := some c.now }
        else r }
    c.now (d.holders.map fun user =>
      ⟨.processEnded, user, object [("module", text d.module), ("version", int d.document)]⟩)

/-! ### Holders and payloads -/

namespace Draft

theorem mem_holders {d : Draft} {user : Int} : user ∈ d.holders ↔ d.isSeated user = true := by
  unfold holders isSeated
  rw [Ordered.mem_ascending, List.mem_map, List.any_eq_true]
  simp

theorem nodup_holders (d : Draft) : d.holders.Nodup := Ordered.nodup_ascending _

theorem ascending_holders (d : Draft) : Ordered.ascending d.holders = d.holders :=
  Ordered.ascending_eq_self (Ordered.pairwise_ascending _)

theorem holders_eq_nil_iff {d : Draft} : d.holders = [] ↔ d.seats = [] := by
  constructor
  · intro h
    refine List.eq_nil_iff_forall_not_mem.2 fun seat hseat => ?_
    have hholder : seat.user ∈ d.holders :=
      mem_holders.2 (List.any_eq_true.2 ⟨seat, hseat, beq_self_eq_true seat.user⟩)
    rw [h] at hholder
    cases hholder
  · intro h
    unfold holders
    rw [h]
    rfl

theorem isStorable_of_mem_holders {d : Draft} (h : d.isOversized = false) {user : Int}
    (huser : user ∈ d.holders) : isStorable user = true := by
  obtain ⟨seat, hseat, hu⟩ := List.any_eq_true.1 (mem_holders.1 huser)
  rw [← beq_iff_eq.1 hu]
  exact isOversized_eq_false_iff.1 h seat hseat

end Draft

theorem itemsDepth_ofText (ss : List String) : itemsDepth (ss.map ofText) = 0 := by
  induction ss with
  | nil => rfl
  | cons s rest ih => simp [itemsDepth, ofText, depth, ih]

theorem depth_slotPayload (d : Draft) (slot : Int) : (object (d.slotPayload slot)).depth = 1 := rfl

/-- What a user is told about a draft that has advanced. -/
def Store.advancedFields (s : Store) (d : Draft) (user : Int) : Fields :=
  [("module", text d.module), ("document", int d.document), ("step", int d.step),
    ("permissions", ofTexts ((s.permissionsFor d user).map Permission.text))]

theorem depth_advancedFields (s : Store) (d : Draft) (user : Int) :
    (object (s.advancedFields d user)).depth = 2 := by
  simp [Store.advancedFields, depth, fieldsDepth, ofTexts, itemsDepth_ofText,
    -List.map_map]

/-! ### The end of a run -/

namespace Store.Sound

variable {s : Store}

/-- A module with a draft has one active run. -/
theorem one_active_run (h : s.Sound) {d : Draft} (hd : d ∈ s.drafts) :
    ∃ r ∈ s.runs, ∀ e ∈ s.runs, e.module = d.module ∧ e.outcome = .active ↔ e = r := by
  obtain ⟨r, hr, hmodule, -, hactive⟩ := h.running d hd
  refine ⟨r, hr, fun e he => ⟨fun ⟨hm, ha⟩ => ?_, fun e' => e' ▸ ⟨hmodule, hactive⟩⟩⟩
  exact h.one_run e he r hr ha hactive (hm.trans hmodule.symm)

/-- To conclude a draft touches the draft, its module and the active run of the module. -/
theorem conclude_eq (h : s.Sound) {d : Draft} (hd : d ∈ s.drafts) (now : Instant) :
    s.conclude d now = { s with
      drafts := s.drafts.filter fun e => e.module != d.module
      modules := s.modules.map fun m =>
        if m.id = d.module then { m with document := d.document } else m
      runs := s.runs.map fun r =>
        if r.module = d.module ∧ r.outcome = .active then
          { r with outcome := .finished, ended := some now }
        else r } := by
  obtain ⟨r, hr, hopen, hmodule, -, hactive⟩ := h.exists_openRun hd
  have hopen' : (s.publish d.module d.document).openRun? d.module = some r := hopen
  unfold Store.conclude closeOpenRun
  rw [hopen']
  unfold Store.publish closeRun removeDraft
  congr 1
  refine List.map_congr_left fun e he => ?_
  have hsame : e.id = r.id ↔ e.module = d.module ∧ e.outcome = .active := by
    constructor
    · intro hid
      rw [List.inj_on_of_nodup_map h.run_ids he hr hid]
      exact ⟨hmodule, hactive⟩
    · rintro ⟨hm, ha⟩
      rw [h.one_run e he r hr ha hactive (hm.trans hmodule.symm)]
  simp only [hsame]

end Store.Sound

theorem Store.module?_publish (s : Store) (module : String) (document : Int) :
    (s.publish module document).module? module =
      (s.module? module).map fun m => { m with document := document } :=
  find?_key_update Module.id (f := fun m => { m with document }) (fun _ => rfl) module s.modules

/-! ### Advances that fail -/

section Advance

variable {c : Conditions} {s : Store} {module : String} {user slot target : Int}

theorem linkFor_of_elsewhere {d : Draft} (h : d.occupant? slot ≠ some user) :
    s.linkFor d user slot target = .error (.badUser user slot) := by
  unfold Store.linkFor
  rw [if_pos h]
  rfl

theorem linkFor_of_no_link (htarget : isStorable target = true) {d : Draft} {step : Step}
    (h : d.occupant? slot = some user) (hstep : s.stepOf? d = some step)
    (hlink : step.link? target slot = none) :
    s.linkFor d user slot target = .error (.badLink d.step target slot) := by
  unfold Store.linkFor
  rw [if_neg (not_not.2 h), Store.requireStorable_of htarget, hstep, Option.bind_some]
  simp only [bind, Except.bind, hlink]
  rfl

theorem advance_of_missing (hc : c.Smooth) (hd : s.draft? module = none) :
    Drafting.advance c s module user slot target = .failed s (.notFound .draft module) :=
  onLockedDraft_of_none hc.locks hd

theorem advance_of_elsewhere (hc : c.Smooth) {d : Draft} (hd : s.draft? module = some d)
    (h : d.occupant? slot ≠ some user) :
    Drafting.advance c s module user slot target = .failed s (.badUser user slot) := by
  refine onLockedDraft_of_error (f := .badUser user slot) hc.locks hd ?_
  rw [linkFor_of_elsewhere h]
  rfl

theorem advance_without_link (hs : s.Sound) (hc : c.Smooth) (htarget : isStorable target = true)
    {d : Draft} (hd : s.draft? module = some d) (h : d.occupant? slot = some user)
    (hnone : s.linksFor d.step target slot = []) :
    Drafting.advance c s module user slot target = .failed s (.badLink d.step target slot) := by
  obtain ⟨v, step, -, -, -, hcurrent, hlinks⟩ :=
    hs.exists_current (hs.draft?_eq_some_iff.1 hd).1
  rw [hlinks, Option.toList_eq_nil_iff] at hnone
  refine onLockedDraft_of_error (f := .badLink d.step target slot) hc.locks hd ?_
  rw [linkFor_of_no_link htarget h hcurrent hnone]
  rfl

/-! ### Advances that succeed -/

theorem advance_of_work (hc : c.Smooth) {d : Draft} {l : Link} {w : Work Advance}
    (hd : s.draft? module = some d) (hlink : s.linkFor d user slot target = .ok l)
    (hw : (if s.isFinalFor d l.target then Drafting.finish c s d
      else Drafting.move c s d l.target) = .ok w)
    (hflaw : w.flaw = none) (hevents : ∀ a ∈ w.events, a.Deliverable) :
    Drafting.advance c s module user slot target =
      { result := .ok w.value, store := w.store.tell c.now (w.events.flatMap Announcement.news)
        delivered := w.events.length, broken := false } := by
  refine onLockedDraft_of_deliverable hc hd ?_ hflaw hevents
  simp only [bind, Except.bind, hlink, hc.stamp]
  exact hw

/-- What users are told when a draft moves on: those whom autofill seats that a slot is filled, and
then all holders of slots what they may do now. -/
def Drafting.movedNews (s : Store) (d : Draft) (filled : List Seat) : List News :=
  (filled.map fun seat => ⟨.slotFilled, seat.user, object (d.slotPayload seat.slot)⟩) ++
    d.holders.map fun user => ⟨.draftAdvanced, user, object (s.advancedFields d user)⟩

/-- A draft that moves on is stored as autofill leaves it, and what there is to tell can be
delivered. -/
theorem moved_work (hs : s.Sound) {d : Draft} {slots : List Slot} {change : Change}
    {filled : List Seat}
    (hfilled : (Change.start { d with step := target }).FilledBy s slots change filled)
    (hsize : change.draft.isOversized = false) :
    let t := s.putDraft { d with step := target }
    let w : Work Advance :=
      { change with
        events := change.events ++
          change.draft.holders.flatMap (t.advancedEvent change.draft) }.work t (.moved change.draft)
    w.store = s.putDraft change.draft ∧
      w.events.flatMap Announcement.news = Drafting.movedNews s change.draft filled ∧
      ∀ a ∈ w.events, a.Deliverable := by
  have hsame := hfilled.draft
  -- The events of the seats that are added, and those of all holders.
  have hevents : change.events = filled.flatMap fun seat =>
      announce .slotFilled (change.draft.slotPayload seat.slot) [seat.user] := by
    rw [hfilled.events, hsame]
    rfl
  have hadded := deliverable_announce_each .slotFilled
    (fun seat : Seat => change.draft.slotPayload seat.slot) Seat.user
    (fun seat _ => by rw [depth_slotPayload]; decide) (hfilled.storable hs)
  have hadvanced := deliverable_announce_each .draftAdvanced (s.advancedFields change.draft) id
    (fun user (_ : user ∈ change.draft.holders) => by rw [depth_advancedFields]; decide)
    fun user huser => Draft.isStorable_of_mem_holders hsize huser
  have htold := news_announce_each .draftAdvanced (s.advancedFields change.draft) id
    change.draft.holders
  refine ⟨Store.putDraft_putDraft (by rw [hsame]; rfl), ?_, fun a ha => ?_⟩
  · unfold Change.work Drafting.movedNews
    dsimp only
    rw [List.flatMap_append, hevents, news_announce_each]
    exact congrArg (_ ++ ·) htold
  · rcases List.mem_append.1 ha with ha | ha
    · exact hadded a (hevents ▸ ha)
    · exact hadvanced a ha

/-- When a draft has moved along a link, what its holders may do is found among the stored grants of
the target. -/
theorem allows_moved (hs : s.Sound) {d d' : Draft} {l : Link} (hd : d ∈ s.drafts)
    (hlink : s.linkFor d user slot target = .ok l) (htarget : l.target = target)
    (hsame : d' = { d with step := target, seats := d'.seats }) (holder : Int) :
    s.Allows target d'.seats holder (s.permissionsFor d' holder) := by
  have hstep : d'.step = target := by rw [hsame]
  obtain ⟨-, -, step, hcurrent, hl⟩ := Store.linkFor_eq_ok_iff.1 hlink
  obtain ⟨v, hv, hid, -⟩ := hs.grounds d hd
  have hreached := hs.target_of_version hcurrent (List.mem_of_find?_eq_some hl) v hv hid
  rw [htarget, ← hstep] at hreached
  have hallows := hs.allows_permissionsFor hv (by rw [hsame]; exact hid) hreached holder
  rwa [hstep] at hallows

/-- A link that leads to a step with links of its own. -/
theorem advance_movesOn (hs : s.Sound) (hc : c.Smooth) {d : Draft} {l : Link}
    (hd : s.draft? module = some d) (hlink : s.linkFor d user slot target = .ok l)
    (htarget : l.target = target) (honward : s.isFinalFor d target = false) :
    ∃ d' filled may, d.MovesOn c s target d' filled may
      (Drafting.advance c s module user slot target) := by
  obtain ⟨hmem, -⟩ := hs.draft?_eq_some_iff.1 hd
  obtain ⟨change, filled, hok, hfilled⟩ :=
    hs.exists_autofill hmem c.autofill target (s.activeSlots { d with step := target })
      fun slot hslot => Store.mem_activeSlots (d := { d with step := target }) hslot
  have hsame : change.draft = { d with step := target, seats := change.draft.seats } :=
    hfilled.draft
  have hsize : change.draft.isOversized = false := hfilled.isOversized hs (hs.seats_storable d hmem)
  have hallows := allows_moved hs hmem hlink htarget hsame
  obtain ⟨hstore, hnews, hdeliverable⟩ := moved_work hs hfilled hsize
  have hadvance := advance_of_work hc hd hlink (by
    rw [htarget, honward, if_neg Bool.false_ne_true]
    exact Drafting.move_eq_ok_iff.2 ⟨change, filled,
      (Store.autofill_putDraft (c := .start { d with step := target }) rfl _ _).trans hok, rfl⟩)
    (oversizedIf_eq_none_iff.2 hsize) hdeliverable
  refine ⟨change.draft, filled, s.permissionsFor change.draft, ?_⟩
  rw [hadvance]
  exact {
    result := rfl
    draft := hsame
    autofilled := ⟨change, rfl, hok⟩
    seats := hfilled.seats
    one_seat := hfilled.ordered.nodup
    added := fun seat hseat => ⟨hfilled.free seat hseat, hfilled.slots seat hseat⟩
    holders := ⟨Draft.nodup_holders _, fun _ => Draft.mem_holders⟩
    permissions := fun holder ps =>
      ⟨fun h => h.unique (hallows holder), fun h => h ▸ hallows holder⟩
    store := by
      have hmodule : change.draft.module = d.module := by rw [hsame]
      have hdocument : change.draft.document = d.document := by rw [hsame]
      have hstep : change.draft.step = target := by rw [hsame]
      rw [hstore, hnews]
      unfold Drafting.movedNews Store.advancedFields Draft.slotPayload Store.putDraft
      rw [hmodule, hdocument, hstep] }

/-- A link that leads to a step without links. -/
theorem advance_concludes (hs : s.Sound) (hc : c.Smooth) {d : Draft} {l : Link}
    (hd : s.draft? module = some d) (hlink : s.linkFor d user slot target = .ok l)
    (htarget : l.target = target) (hfinal : s.isFinalFor d target = true) :
    d.Concludes c s (Drafting.advance c s module user slot target) := by
  obtain ⟨hmem, hmodule⟩ := hs.draft?_eq_some_iff.1 hd
  obtain ⟨m, hm, hmid⟩ := List.mem_map.1 (hs.draft_module d hmem)
  obtain ⟨m, hm⟩ : ∃ m, s.module? d.module = some m :=
    Option.isSome_iff_exists.1 (List.find?_isSome.2 ⟨m, hm, by simpa using hmid⟩)
  have hdepth : (object [("module", text d.module), ("version", int d.document)]).depth ≤
      Delivery.depthLimit := by
    simp [depth, fieldsDepth, Delivery.depthLimit]
  have hevents := deliverable_announce .processEnded hdepth fun user huser =>
    Draft.isStorable_of_mem_holders (hs.seats_storable d hmem) huser
  have hadvance := advance_of_work hc hd hlink (by
    rw [htarget, hfinal, if_pos rfl]
    exact Drafting.finish_eq_ok_iff.2 ⟨hc.merges, by rw [hm]; rfl, rfl⟩) rfl hevents
  rw [hadvance]
  exact {
    result := rfl
    gone := by
      intro e he
      simpa using (List.mem_filter.1 he).2
    published := ⟨m, hm, by
      have hmodules : (s.conclude d c.now).modules = (s.publish d.module d.document).modules := by
        rw [hs.conclude_eq hmem c.now]
        rfl
      change ((s.conclude d c.now).modules.find? fun m => m.id == d.module) = _
      rw [hmodules]
      exact (s.module?_publish d.module d.document).trans (by rw [hm]; rfl)⟩
    one_run := hs.one_active_run hmem
    holders := ⟨Draft.nodup_holders d, fun _ => Draft.mem_holders⟩
    store := by rw [← hs.conclude_eq hmem c.now, news_announce, d.ascending_holders] }

/-- A stored link is the only one to its target for its slot, and the links that leave the target
tell which way the advance along it ends. -/
theorem advance_along_link (hs : s.Sound) (hc : c.Smooth) (htarget : isStorable target = true)
    {d : Draft} (hd : s.draft? module = some d) (h : d.occupant? slot = some user) {l : Link}
    (hl : l ∈ s.linksFor d.step target slot) :
    s.linksFor d.step target slot = [l] ∧
      (s.linksOut target ≠ [] → ∃ d' filled may, d.MovesOn c s target d' filled may
        (Drafting.advance c s module user slot target)) ∧
      (s.linksOut target = [] →
        d.Concludes c s (Drafting.advance c s module user slot target)) := by
  obtain ⟨v, step, hv, hwell, hstep, hcurrent, hlinks⟩ :=
    hs.exists_current (hs.draft?_eq_some_iff.1 hd).1
  rw [hlinks, Option.mem_toList] at hl
  have hok : s.linkFor d user slot target = .ok l :=
    Store.linkFor_eq_ok_iff.2 ⟨h, htarget, step, hcurrent, hl⟩
  have hltarget := Step.target_of_link? hl
  obtain ⟨next, hnext, hid⟩ := List.mem_map.1
    (hwell.link_target step hstep l (List.mem_of_find?_eq_some hl))
  have hfinal : s.isFinalFor d target = true ↔ s.linksOut target = [] := by
    rw [← hltarget, ← hid]
    exact hs.isFinalFor_eq_true_iff hv hnext
  refine ⟨by rw [hlinks, hl]; rfl, fun honward => ?_, fun hend => ?_⟩
  · exact advance_movesOn hs hc hd hok hltarget
      (Bool.eq_false_iff.2 fun hf => honward (hfinal.1 hf))
  · exact advance_concludes hs hc hd hok hltarget (hfinal.2 hend)

end Advance

/-! ### What decides an advance -/

/-- Under conditions in which nothing else fails, an advance succeeds exactly when there is a draft of
the module, the user sits in the slot and a link is stored from the current step to the target for
the slot, of which there is one at most; otherwise it fails for the first of these that is missing.
The links that leave the target decide whether the draft moves on or is concluded. -/
theorem advance_decided {s : Store} (h : Reachable s) {c : Conditions} (hc : c.Smooth)
    (module : String) (user slot target : Int) (htarget : isStorable target = true) :
    let o := Drafting.advance c s module user slot target
    ((∃ a, o.result = .ok a) ↔ ∃ d l, s.draft? module = some d ∧ d.occupant? slot = some user ∧
      l ∈ s.linksFor d.step target slot) ∧
    (s.draft? module = none → o = .failed s (.notFound .draft module)) ∧
    ∀ d, s.draft? module = some d →
      (d.occupant? slot ≠ some user → o = .failed s (.badUser user slot)) ∧
      (d.occupant? slot = some user → s.linksFor d.step target slot = [] →
        o = .failed s (.badLink d.step target slot)) ∧
      (d.occupant? slot = some user → ∀ l ∈ s.linksFor d.step target slot,
        s.linksFor d.step target slot = [l] ∧
        (s.linksOut target ≠ [] → ∃ d' filled may, d.MovesOn c s target d' filled may o) ∧
        (s.linksOut target = [] → d.Concludes c s o)) := by
  have hs := h.sound
  intro o
  have hmissing (hd : s.draft? module = none) : o = .failed s (.notFound .draft module) :=
    advance_of_missing hc hd
  have helsewhere {d : Draft} (hd : s.draft? module = some d) (hu : d.occupant? slot ≠ some user) :
      o = .failed s (.badUser user slot) := advance_of_elsewhere hc hd hu
  have hnolink {d : Draft} (hd : s.draft? module = some d) (hu : d.occupant? slot = some user)
      (hnone : s.linksFor d.step target slot = []) : o = .failed s (.badLink d.step target slot) :=
    advance_without_link hs hc htarget hd hu hnone
  have hlink {d : Draft} (hd : s.draft? module = some d) (hu : d.occupant? slot = some user)
      {l : Link} (hl : l ∈ s.linksFor d.step target slot) :=
    advance_along_link hs hc htarget hd hu hl
  refine ⟨⟨?_, ?_⟩, hmissing, fun d hd => ⟨helsewhere hd, hnolink hd, fun hu l hl => hlink hd hu hl⟩⟩
  · rintro ⟨a, ha⟩
    cases hd : s.draft? module with
    | none =>
        rw [hmissing hd] at ha
        cases ha
    | some d =>
        have hu : d.occupant? slot = some user := by
          by_contra hu
          rw [helsewhere hd hu] at ha
          cases ha
        cases hl : s.linksFor d.step target slot with
        | nil =>
            rw [hnolink hd hu hl] at ha
            cases ha
        | cons l rest => exact ⟨d, l, rfl, hu, by rw [hl]; exact List.mem_cons_self⟩
  · rintro ⟨d, l, hd, hu, hl⟩
    obtain ⟨-, hmoves, hends⟩ := hlink hd hu hl
    by_cases hnext : s.linksOut target = []
    · exact ⟨_, (hends hnext).result⟩
    · obtain ⟨d', filled, may, hmoved⟩ := hmoves hnext
      exact ⟨_, hmoved.result⟩

/-- In the review, submitting moves the draft on and accepting it concludes it. -/
theorem advances_of_review :
    (∃ d' filled may, Review.begun.MovesOn Review.conditions Review.store 2 d' filled may
      (Drafting.advance Review.conditions Review.store "m" 4 1 2)) ∧
    Review.submitted.Concludes Review.conditions Review.reviewing
      (Drafting.advance Review.conditions Review.reviewing "m" 6 2 3) := by
  have hsmooth : Review.conditions.Smooth := Conditions.smooth_of_date rfl true
  have hsubmit : Review.store.linksFor 1 2 1 = [⟨1, "submit", 2, 1⟩] := by decide +kernel
  have haccept : Review.reviewing.linksFor 2 3 2 = [⟨3, "accept", 3, 2⟩] := by decide +kernel
  obtain ⟨-, -, hwriting⟩ := advance_decided Review.reachable hsmooth "m" 4 1 2 (by decide)
  obtain ⟨-, -, hreviewing⟩ := advance_decided Review.reachable_reviewing hsmooth "m" 6 2 3
    (by decide)
  obtain ⟨-, hmoves, -⟩ := (hwriting _ Review.draft?_store).2.2 (by decide) _
    (by rw [Review.begun, hsubmit]; exact List.mem_singleton_self _)
  obtain ⟨-, -, hends⟩ := (hreviewing _ Review.draft?_reviewing).2.2 (by decide) _
    (by rw [Review.submitted, haccept]; exact List.mem_singleton_self _)
  exact ⟨hmoves (by decide +kernel), hends (by decide +kernel)⟩

end Editorial
