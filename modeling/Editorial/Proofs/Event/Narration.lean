import Editorial.Proofs.Event.Told

/-!
# What a turn tells

A turn changes the draft of one module at most. Where the event sink stores what it is given, it
tells news about this module, and these lead from the seats before the turn to the seats after it
(`Store.Narrated`, `Turn.narrated`). If the draft has another step than before, the last of the news
that it has advanced names the step. Only to begin a process gives a module a draft
(`Turn.begins_of_draft?`).
-/

namespace Editorial

open Json

/-- Between two stores the draft of one module has changed at most, and news about it have been told
that lead to its seats and name its step. -/
structure Store.Narrated (s u : Store) (now : Instant) (module : String) (news : List News) :
    Prop where
  events : u.events = (s.tell now news).events
  about : ∀ n ∈ news, n.module? = some module
  others : ∀ other, other ≠ module → u.draft? other = s.draft? other
  seats : News.replay (s.seating module) news = some (u.seating module)
  advanced : ∀ d n, u.draft? module = some d → News.lastAdvance? news = some n →
    n.step? = some d.step
  kept : ∀ d d', s.draft? module = some d → u.draft? module = some d' →
    News.lastAdvance? news = none → d'.step = d.step

namespace Store

variable {s t u : Store}

theorem draft?_eq_of_drafts (h : u.drafts = s.drafts) (module : String) :
    u.draft? module = s.draft? module := by
  unfold draft?
  rw [h]

theorem seating_of_draft? {module : String} {d : Draft} (h : s.draft? module = some d) :
    s.seating module = fun slot => d.occupant? slot := by
  unfold seating
  rw [h]
  rfl

theorem seating_of_none {module : String} (h : s.draft? module = none) :
    s.seating module = .empty := by
  unfold seating
  rw [h]
  rfl

/-- Drafts and events are the same in two stores. -/
def SameDrafts (s u : Store) : Prop := u.drafts = s.drafts ∧ u.events = s.events

theorem SameDrafts.narrated (h : SameDrafts s u) (now : Instant) (module : String) :
    s.Narrated u now module [] := by
  have hdraft := draft?_eq_of_drafts h.1
  exact {
    events := by rw [tell_nil, h.2]
    about := nofun
    others := fun other _ => hdraft other
    seats := by
      unfold seating
      rw [hdraft]
      rfl
    advanced := nofun
    kept := fun d d' hd hd' _ => by
      rw [hdraft, hd] at hd'
      rw [Option.some.inj hd'] }

theorem narrated_refl (s : Store) (now : Instant) (module : String) : s.Narrated s now module [] :=
  SameDrafts.narrated ⟨rfl, rfl⟩ now module

theorem events_tell_congr (h : t.events = s.events) (now : Instant) (news : List News) :
    (t.tell now news).events = (s.tell now news).events := by
  unfold tell
  rw [h]

end Store

/-! ### Drafts that are there afterwards -/

/-- News of an advance, as the draft is afterwards. -/
structure News.Advances (n : News) (d : Draft) : Prop where
  kind : n.kind = .draftAdvanced
  module : n.module? = some d.module
  step : n.step? = some d.step

theorem News.lastAdvance?_of_advances {news : List News} {d : Draft}
    (h : ∀ n ∈ news, n.Advances d) : News.lastAdvance? news = news.getLast? := by
  unfold News.lastAdvance?
  rw [List.filter_eq_self.2 fun n hn => beq_iff_eq.2 (h n hn).kind]

/-- A draft that is put into the store with what has happened to its seats, and, if its step has
changed, with news that it has advanced. -/
theorem Change.Told.narrated {c : Conditions} {s t : Store} {change : Change} {news : List News}
    (h : change.Told c t (s.seating change.draft.module) news)
    (hsize : change.draft.isOversized = false) (hevents : t.events = s.events)
    (hdraft : t.draft? change.draft.module = some change.draft)
    (hothers : ∀ other, other ≠ change.draft.module → t.draft? other = s.draft? other)
    {advances : List News} (hadvances : ∀ n ∈ advances, n.Advances change.draft)
    (hstep : advances = [] → ∀ d, s.draft? change.draft.module = some d →
      change.draft.step = d.step) :
    s.Narrated (t.tell c.now (news ++ advances)) c.now change.draft.module (news ++ advances) := by
  have hlast : News.lastAdvance? (news ++ advances) = advances.getLast? := by
    rw [News.lastAdvance?_append, News.lastAdvance?_of_advances hadvances,
      News.lastAdvance?_eq_none fun n hn => (h.about n hn).2, Option.or_none]
  have hafter : (t.tell c.now (news ++ advances)).draft? change.draft.module = some change.draft :=
    hdraft
  exact {
    events := Store.events_tell_congr hevents c.now _
    about := fun n hn => (List.mem_append.1 hn).elim (fun hn => (h.about n hn).1)
      fun hn => (hadvances n hn).module
    others := hothers
    seats := by
      rw [News.replay_append, h.seats, Option.bind_some, Store.seating_of_draft? hafter,
        Draft.storedSeating_eq h.ordered hsize]
      refine News.replay_of_follow fun n hn => ?_
      unfold News.follow
      rw [(hadvances n hn).kind]
    advanced := fun d n hd hn => by
      rw [hafter] at hd
      rw [hlast] at hn
      rw [← Option.some.inj hd]
      exact (hadvances n (List.mem_of_getLast? hn)).step
    kept := fun d d' hd hd' hnone => by
      rw [hafter] at hd'
      rw [hlast, List.getLast?_eq_none_iff] at hnone
      rw [← Option.some.inj hd']
      exact hstep hnone d hd }

section Operations

variable {c : Conditions} {s : Store} {d : Draft}

/-- A draft of the store whose seats have changed. -/
theorem narrated_of_told {α : Type} {change : Change} (value : α) (hd : s.draft? d.module = some d)
    (hdraft : change.draft = { d with seats := change.draft.seats })
    (hsize : change.draft.isOversized = false)
    (htold : ∃ news, change.Told c (s.putDraft change.draft) (s.seating d.module) news) :
    ∃ news, s.Narrated ((change.work s value).outcome c).store c.now d.module news := by
  obtain ⟨news, htold⟩ := htold
  have hmodule : change.draft.module = d.module := by rw [hdraft]
  have hstore : ((change.work s value).outcome c).store =
      (s.putDraft change.draft).tell c.now news := htold.store
  rw [hstore, ← List.append_nil news, ← hmodule]
  rw [← hmodule] at hd htold
  refine ⟨_, htold.narrated hsize rfl ?_ (fun other hother => ?_) nofun fun _ e he => ?_⟩
  · rw [Store.draft?_putDraft, if_pos rfl, hd]
    rfl
  · rw [Store.draft?_putDraft, if_neg hother]
  · rw [Option.some.inj (he.symm.trans hd), hdraft]

namespace Drafting

/-! ### Seats -/

theorem narrated_seat {α : Type} (hs : s.Sound) (hc : c.Delivers) (value : α)
    (hd : s.draft? d.module = some d) (slot user : Int)
    (hsize : (d.seat slot user).isOversized = false) :
    ∃ news, s.Narrated ((((Change.start d).seat slot user).work s value).outcome c).store c.now
      d.module news := by
  obtain ⟨hmem, -⟩ := hs.draft?_eq_some_iff.1 hd
  have hstored := hs.seats_storable d hmem
  have hstart := Change.told_start c (s.putDraft (d.seat slot user)) (hs.seats_ordered d hmem)
    hstored
  rw [← Store.seating_of_draft? hd] at hstart
  exact narrated_of_told value hd rfl hsize
    (hstart.seat hc (Draft.fitsElsewhere_of_not_oversized hstored slot) user)

theorem narrated_assign (hs : s.Sound) (hc : c.Delivers) (module : String) (slot user : Int) :
    ∃ news, s.Narrated (assign c s module slot user).store c.now module news := by
  rcases assign_cases c s module slot user with ⟨f, hf⟩ |
    ⟨d, row, w, -, hd, -, -, -, rfl, hcommits, ho⟩
  · rw [hf]
    exact ⟨[], s.narrated_refl c.now module⟩
  · have hmodule := Store.module_of_draft? hd
    subst hmodule
    rw [ho]
    exact narrated_seat hs hc _ hd row.id user (oversizedIf_eq_none_iff.1 hcommits.flaw)

theorem narrated_claim (hs : s.Sound) (hc : c.Delivers) (module : String) (slot user : Int) :
    ∃ news, s.Narrated (claim c s module slot user).store c.now module news := by
  rcases claim_cases c s module slot user with ⟨f, hf⟩ |
    ⟨d, row, w, -, hd, -, -, -, -, -, rfl, hcommits, ho⟩
  · rw [hf]
    exact ⟨[], s.narrated_refl c.now module⟩
  · have hmodule := Store.module_of_draft? hd
    subst hmodule
    rw [ho]
    exact narrated_seat hs hc _ hd row.id user (oversizedIf_eq_none_iff.1 hcommits.flaw)

theorem narrated_unassign (hs : s.Sound) (hc : c.Delivers) (module : String) (slot : Int) :
    ∃ news, s.Narrated (unassign c s module slot).store c.now module news := by
  rcases unassign_cases c s module slot with ⟨f, hf⟩ | ⟨d, row, w, -, hd, -, -, rfl, -, ho⟩
  · rw [hf]
    exact ⟨[], s.narrated_refl c.now module⟩
  · have hmodule := Store.module_of_draft? hd
    subst hmodule
    obtain ⟨hmem, -⟩ := hs.draft?_eq_some_iff.1 hd
    have hstored := hs.seats_storable d hmem
    have hfits := Draft.fitsElsewhere_of_not_oversized hstored row.id
    have hstart := Change.told_start c (s.putDraft (d.vacate row.id)) (hs.seats_ordered d hmem)
      hstored
    rw [← Store.seating_of_draft? hd] at hstart
    rw [ho]
    exact narrated_of_told _ hd rfl hfits.isOversized_vacate (hstart.vacate hc hfits)

/-! ### Advances and ends -/

/-- What the holders of slots are told of an advance. -/
theorem news_advanced (s : Store) (hsize : d.isOversized = false) :
    (∀ a ∈ d.holders.flatMap (s.advancedEvent d), a.Deliverable) ∧
      ∃ news, (d.holders.flatMap (s.advancedEvent d)).flatMap Announcement.news = news ∧
        (∀ n ∈ news, n.Advances d) ∧ (news = [] → d.seats = []) := by
  have hnews := news_announce_each .draftAdvanced (s.advancedFields d) id d.holders
  refine ⟨deliverable_announce_each .draftAdvanced (s.advancedFields d) id
    (fun user _ => by rw [depth_advancedFields]; decide)
    (fun user huser => Draft.isStorable_of_mem_holders hsize huser), _, hnews, ?_, ?_⟩
  · intro n hn
    obtain ⟨user, -, rfl⟩ := List.mem_map.1 hn
    exact ⟨rfl, rfl, rfl⟩
  · intro hnone
    exact Draft.holders_eq_nil_iff.1 (List.map_eq_nil_iff.1 hnone)

theorem narrated_move (hs : s.Sound) (hc : c.Delivers) (hd : s.draft? d.module = some d)
    (hseated : d.seats ≠ []) {target : Int} {w : Work Advance}
    (hw : move c s d target = .ok w) (hflaw : w.flaw = none) :
    ∃ news, s.Narrated (w.outcome c).store c.now d.module news := by
  obtain ⟨change, filled, hfilled, rfl⟩ := move_eq_ok_iff.1 hw
  obtain ⟨hmem, -⟩ := hs.draft?_eq_some_iff.1 hd
  have hsize : change.draft.isOversized = false := oversizedIf_eq_none_iff.1 hflaw
  have hseats := Store.seats_autofill hfilled
  have hmodule : change.draft.module = d.module := by rw [hseats.draft_eq]; rfl
  have hput : (s.putDraft { d with step := target }).putDraft change.draft =
      s.putDraft change.draft := Store.putDraft_putDraft hmodule.symm
  -- First the seats that autofill adds are told, then the advance.
  have hstart : (Change.start { d with step := target }).Told c (s.putDraft change.draft)
      (s.seating change.draft.module) [] := by
    rw [hmodule, Store.seating_of_draft? hd]
    exact Change.told_start c _ (d := { d with step := target }) (hs.seats_ordered d hmem)
      (hs.seats_storable d hmem)
  obtain ⟨news, htold⟩ := Store.told_autofill (s := s.putDraft { d with step := target }) hc
    hs.member_user hfilled hstart (hs.seats_storable d hmem)
  obtain ⟨hdeliverable, advances, hnews, hadvances, hnobody⟩ :=
    news_advanced (s.putDraft { d with step := target }) hsize
  obtain ⟨hstore, -⟩ := Delivery.deliverAll_of_deliverable hc htold.commits
    (htold.broken.trans hsize) hdeliverable
  rw [htold.store, hnews, ← Store.tell_append,
    ← Change.delivery_append c _ change change.draft] at hstore
  unfold Change.work Work.outcome
  dsimp only
  rw [hput]
  unfold Change.delivery at hstore
  dsimp only at hstore
  rw [hstore, ← hmodule]
  refine ⟨_, htold.narrated hsize rfl ?_ (fun other hother => ?_) hadvances fun hnone => ?_⟩
  · rw [Store.draft?_putDraft, if_pos rfl, hmodule, hd]
    rfl
  · rw [Store.draft?_putDraft, if_neg hother]
  · exact absurd (hnobody hnone) (hseats.ne_nil hseated)

/-- A draft is gone, and all who were seated are told of the end of the process. -/
theorem narrated_end {α : Type} {t : Store} (hs : s.Sound) (hc : c.Delivers) (value : α)
    (hd : s.draft? d.module = some d) (hsame : s.SameDrafts t) {kind : EventKind}
    (hkind : kind = .processEnded ∨ kind = .processCancelled) {fields : Fields}
    (hdepth : (object fields).depth ≤ Delivery.depthLimit)
    (habout : ∀ user, (News.mk kind user (object fields)).module? = some d.module) :
    ∃ news, s.Narrated ((Work.mk value (t.removeDraft d.module) (announce kind fields d.holders)
      none).outcome c).store c.now d.module news := by
  obtain ⟨hmem, -⟩ := hs.draft?_eq_some_iff.1 hd
  have hdeliverable := deliverable_announce kind hdepth fun user huser =>
    Draft.isStorable_of_mem_holders (hs.seats_storable d hmem) huser
  have hgone : (t.removeDraft d.module).draft? d.module = none :=
    (Store.draft?_removeDraft _ _ _).trans (if_pos rfl)
  have hempty : d.holders = [] → s.seating d.module = .empty := by
    intro hnobody
    rw [Store.seating_of_draft? hd]
    unfold Draft.occupant?
    rw [Draft.holders_eq_nil_iff.1 hnobody]
    rfl
  rw [Work.outcome_of_deliverable hc hdeliverable, news_announce, d.ascending_holders]
  have hafter : ((t.removeDraft d.module).tell c.now
      (d.holders.map fun user => ⟨kind, user, object fields⟩)).draft? d.module = none := hgone
  refine ⟨_, {
    events := Store.events_tell_congr hsame.2 c.now _
    about := fun n hn => ?_
    others := fun other hother => ?_
    seats := ?_
    advanced := fun d' n hd' => absurd hd' (by rw [hafter]; nofun)
    kept := fun d' d'' _ hd'' => absurd hd'' (by rw [hafter]; nofun) }⟩
  · obtain ⟨user, -, rfl⟩ := List.mem_map.1 hn
    exact habout user
  · refine (Store.draft?_removeDraft t d.module other).trans ?_
    rw [if_neg hother, Store.draft?_eq_of_drafts hsame.1]
  · rw [News.replay_of_end hkind fields hempty, Store.seating_of_none hafter]

theorem sameDrafts_closeOpenRun (s : Store) (module : String) (outcome : RunOutcome)
    (now : Instant) : s.SameDrafts (s.closeOpenRun module outcome now) := by
  unfold Store.closeOpenRun
  split <;> exact ⟨rfl, rfl⟩

theorem narrated_cancel (hs : s.Sound) (hc : c.Delivers) (module : String) :
    ∃ news, s.Narrated (cancel c s module).store c.now module news := by
  rcases cancel_cases c s module with ⟨f, hf⟩ | ⟨d, w, -, hd, -, rfl, -, ho⟩
  · rw [hf]
    exact ⟨[], s.narrated_refl c.now module⟩
  · have hmodule := Store.module_of_draft? hd
    subst hmodule
    rw [ho]
    exact narrated_end hs hc () hd (sameDrafts_closeOpenRun s d.module .cancelled c.now)
      (Or.inr rfl) (by simp [depth, fieldsDepth, Delivery.depthLimit]) fun _ => rfl

theorem narrated_advance (hs : s.Sound) (hc : c.Delivers) (module : String)
    (user slot target : Int) :
    ∃ news, s.Narrated (advance c s module user slot target).store c.now module news := by
  rcases advance_cases c s module user slot target with ⟨f, hf⟩ |
    ⟨d, step, l, w, -, hd, hseated, -, -, -, -, hw, hcommits, ho⟩
  · rw [hf]
    exact ⟨[], s.narrated_refl c.now module⟩
  · have hmodule := Store.module_of_draft? hd
    subst hmodule
    rw [ho]
    cases hfinal : s.isFinalFor d l.target with
    | true =>
        rw [if_pos hfinal] at hw
        obtain ⟨-, -, rfl⟩ := finish_eq_ok_iff.1 hw
        have hsame := sameDrafts_closeOpenRun (s.publish d.module d.document) d.module .finished
          c.now
        exact narrated_end hs hc Advance.finished hd ⟨hsame.1, hsame.2⟩ (Or.inl rfl)
          (by simp [depth, fieldsDepth, Delivery.depthLimit]) fun _ => rfl
    | false =>
        rw [if_neg (by simp [hfinal])] at hw
        have hseats : d.seats ≠ [] := by
          intro hnone
          unfold Draft.occupant? at hseated
          rw [hnone] at hseated
          cases hseated
        exact narrated_move hs hc hd hseats hw hcommits.flaw

/-! ### Beginning -/

/-- The draft of a module that has none is the one that is opened. -/
theorem draft?_freshStore (c : Conditions) (s : Store) (m : Module) (v : Version)
    (module : String) :
    (freshStore c s m v).draft? module =
      (s.draft? module).or (if m.id = module then some (freshDraft c s m v) else none) := by
  unfold freshStore freshDraft Store.openDraft Store.draft?
  dsimp only
  rw [List.find?_append, List.find?_singleton]
  simp only [beq_iff_eq]

theorem narrated_begin (hs : s.Sound) (hc : c.Delivers) (module : String) (process : Int)
    (placements : List Placement) :
    ∃ news, s.Narrated (begin c s module process placements).store c.now module news := by
  rcases begin_cases c s module process placements with ⟨f, hf⟩ |
    ⟨m, p, v, ordered, placed, change, filled, hm, -, -, -, hidle, -, -, -, -, hplaced, hfilled,
      hcommits, ho⟩
  · rw [hf]
    exact ⟨[], s.narrated_refl c.now module⟩
  · have hsize : change.draft.isOversized = false := oversizedIf_eq_none_iff.1 hcommits.flaw
    obtain ⟨hseats, hstored⟩ := Store.seats_placeAll hplaced
    have hmodule : change.draft.module = module := by
      rw [(hseats.trans (Store.seats_autofill hfilled)).draft_eq]
      exact Store.id_of_module? hm
    have hmid : m.id = module := Store.id_of_module? hm
    have hstart : (Change.start (freshDraft c s m v)).Told c
        ((freshStore c s m v).putDraft change.draft) (s.seating change.draft.module) [] := by
      rw [hmodule, Store.seating_of_none hidle]
      exact Change.told_start c _ (d := freshDraft c s m v) List.Pairwise.nil rfl
    obtain ⟨_, htold⟩ := Store.told_placeAll hc hplaced hstart nofun
    obtain ⟨news, htold⟩ := Store.told_autofill (s := freshStore c s m v) hc hs.member_user hfilled
      htold hstored
    have hstore : ((change.work (freshStore c s m v) change.draft).outcome c).store =
      ((freshStore c s m v).putDraft change.draft).tell c.now news := htold.store
    have hquiet : ∀ n ∈ ([] : List News), n.Advances change.draft := nofun
    rw [ho, store_lookingBack, hstore, ← List.append_nil news, ← hmodule]
    refine ⟨_, htold.narrated hsize rfl ?_ (fun other hother => ?_) hquiet fun _ d hd => ?_⟩
    · rw [Store.draft?_putDraft, if_pos rfl, draft?_freshStore, hmodule, hidle, if_pos hmid]
      rfl
    · rw [Store.draft?_putDraft, if_neg hother, draft?_freshStore,
        if_neg fun h => hother (h.symm.trans (hmid.trans hmodule.symm)), Option.or_none]
    · rw [hmodule, hidle] at hd
      cases hd

end Drafting

/-! ### What tells nothing -/

theorem Definitions.Operation.sameDrafts (c : Conditions) (s : Store) (op : Operation) :
    s.SameDrafts (op.perform c s).store := by
  obtain ⟨processes, versions, hstore⟩ := op.onlyDefines c s
  rw [hstore]
  exact ⟨rfl, rfl⟩

theorem Directory.Operation.sameDrafts (c : Conditions) (s : Store) (op : Operation) :
    s.SameDrafts (op.perform c s).store := by
  obtain ⟨modules, members, hstore⟩ := op.store_perform c s
  rw [hstore]
  exact ⟨rfl, rfl⟩

end Operations

/-! ### Turns -/

namespace Drafting.Operation

/-- The module whose draft an operation is about. -/
def module : Operation → String
  | begin module _ _ | advance module _ _ _ | cancel module | assign module _ _
  | claim module _ _ | unassign module _ => module

theorem narrated {c : Conditions} {s : Store} (hs : s.Sound) (hc : c.Delivers) (op : Operation) :
    ∃ news, s.Narrated (op.perform c s).store c.now op.module news := by
  cases op with
  | begin module process placements => exact narrated_begin hs hc module process placements
  | advance module user slot target => exact narrated_advance hs hc module user slot target
  | cancel module => exact narrated_cancel hs hc module
  | assign module slot user => exact narrated_assign hs hc module slot user
  | claim module slot user => exact narrated_claim hs hc module slot user
  | unassign module slot => exact narrated_unassign hs hc module slot

/-- Nothing is done to a module without a draft except to begin one. -/
theorem begins_or_store_eq {c : Conditions} {s : Store} {op : Operation}
    (h : s.draft? op.module = none) :
    (∃ process placements, op = .begin op.module process placements) ∨
      (op.perform c s).store = s := by
  cases op with
  | begin module process placements => exact Or.inl ⟨process, placements, rfl⟩
  | advance module user slot target => exact Or.inr (store_onLockedDraft_of_none h)
  | cancel module => exact Or.inr (store_onLockedDraft_of_none h)
  | assign module slot user => exact Or.inr (store_onLockedDraft_of_none h)
  | claim module slot user => exact Or.inr (store_onLockedDraft_of_none h)
  | unassign module slot => exact Or.inr (store_onLockedDraft_of_none h)

end Drafting.Operation

namespace Turn

/-- Where it matters, the event sink stores what it is given. -/
def Delivers (t : Turn) : Prop := ∀ op, t.action = .draft op → t.conditions.Delivers

/-- A turn asks to begin a process on a module. -/
def Begins (t : Turn) (module : String) : Prop :=
  ∃ process placements, t.action = .draft (.begin module process placements)

theorem narrated {s : Store} (hs : s.Sound) {t : Turn} (ht : t.Delivers) :
    ∃ module news, s.Narrated (s.after t) t.conditions.now module news := by
  obtain ⟨c, action⟩ := t
  cases action with
  | define op => exact ⟨"", [], (Definitions.Operation.sameDrafts c s op).narrated c.now ""⟩
  | draft op => exact ⟨op.module, op.narrated hs (ht op rfl)⟩
  | direct op => exact ⟨"", [], (Directory.Operation.sameDrafts c s op).narrated c.now ""⟩

/-- A module that gets a draft has begun a process. -/
theorem begins_of_draft? {s : Store} (hs : s.Sound) {t : Turn} (ht : t.Delivers) {module : String}
    (hnone : s.draft? module = none) {d : Draft} (hd : (s.after t).draft? module = some d) :
    t.Begins module := by
  obtain ⟨c, action⟩ := t
  cases action with
  | define op =>
      have hsame := Store.draft?_eq_of_drafts (Definitions.Operation.sameDrafts c s op).1 module
      cases (hsame.trans hnone).symm.trans hd
  | draft op =>
      obtain ⟨news, hn⟩ := op.narrated hs (ht op rfl)
      have hmodule : op.module = module := by
        by_contra hne
        cases ((hn.others module (Ne.symm hne)).trans hnone).symm.trans hd
      subst hmodule
      rcases Drafting.Operation.begins_or_store_eq hnone with ⟨process, placements, hop⟩ | hkept
      · exact ⟨process, placements, congrArg Action.draft hop⟩
      · have hsame := congrArg (fun u => u.draft? op.module) hkept
        cases (hsame.trans hnone).symm.trans hd
  | direct op =>
      have hsame := Store.draft?_eq_of_drafts (Directory.Operation.sameDrafts c s op).1 module
      cases (hsame.trans hnone).symm.trans hd

end Turn

end Editorial
