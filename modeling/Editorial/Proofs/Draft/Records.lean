import Editorial.Proofs.Draft.Atomicity
import Editorial.Proofs.Event.Narration

/-!
# What a turn does to the records of runs

Every turn leaves the records of runs as they are, adds one for a module that gets a draft, or
closes one in place for a module that loses its draft (`Turn.Records`, `Turn.records`). The answer
of a turn says which: it is the draft that has been begun, the end of the process, or the success of
cancelling. Only the beginning of a draft may be stored without such an answer, and then the event
sink refuses to tell who has come into a slot, since the last one to be told of is someone who still
sits there (`Change.EndsSeated`).
-/

namespace Editorial

/-! ### Answers -/

namespace Turn

/-- A turn begins a draft of a module, and its answer is the draft. -/
def answersBegun (module : String) (s : Store) (t : Turn) : Bool :=
  match t.action with
  | .draft (.begin m process placements) =>
      m == module && (Drafting.begin t.conditions s m process placements).result.toBool
  | _ => false

/-- A turn ends the run of a module with an outcome: it advances the draft, and its answer is that
the process has ended, or it cancels the draft with success. -/
def answersEnded (outcome : RunOutcome) (module : String) (s : Store) (t : Turn) : Bool :=
  match t.action with
  | .draft (.advance m user slot target) =>
      m == module && outcome == .finished &&
        match (Drafting.advance t.conditions s m user slot target).result with
        | .ok .finished => true
        | _ => false
  | .draft (.cancel m) =>
      m == module && outcome == .cancelled && (Drafting.cancel t.conditions s m).result.toBool
  | _ => false

/-- After a turn a module has a draft that it did not have before. -/
def opensDraft (module : String) (s : Store) (t : Turn) : Bool :=
  (s.draft? module).isNone && ((s.after t).draft? module).isSome

/-- What a turn does to the records of runs, which modules have a draft after it, and what its
answer is. -/
inductive Records (s : Store) (t : Turn) : Prop where
  | nothing (runs : (s.after t).runs = s.runs)
      (drafts : ∀ m, ((s.after t).draft? m).isSome = (s.draft? m).isSome)
      (begun : ∀ m, t.answersBegun m s = false) (ended : ∀ o m, t.answersEnded o m s = false)
  | opened (r : Run) (active : r.outcome = .active) (runs : (s.after t).runs = s.runs ++ [r])
      (idle : s.draft? r.module = none)
      (drafts : ∀ m, ((s.after t).draft? m).isSome = ((s.draft? m).isSome || m == r.module))
      (asked : t.Begins r.module)
      (begun : ∀ m, t.answersBegun m s = true → m = r.module)
      (answered : t.conditions.refuses (.text EventKind.slotFilled.text) = false →
        t.answersBegun r.module s = true)
      (ended : ∀ o m, t.answersEnded o m s = false)
  | closed (outcome : RunOutcome) {r : Run} {before behind : List Run} {now : Instant}
      (active : r.outcome = .active) (found : s.runs = before ++ r :: behind)
      (runs : (s.after t).runs = before ++ { r with outcome, ended := some now } :: behind)
      (drafts : ∀ m, ((s.after t).draft? m).isSome = ((s.draft? m).isSome && m != r.module))
      (begun : ∀ m, t.answersBegun m s = false)
      (ended : ∀ o m, t.answersEnded o m s = (r.module == m && o == outcome))

end Turn

/-! ### Who is told last -/

/-- If anyone is told anything about a change, then last of all someone who has come into a slot and
still sits there. -/
def Change.EndsSeated (change : Change) : Prop :=
  change.events = [] ∨ ∃ (earlier : List Announcement) (d : Draft) (slot user : Int),
    change.events = earlier ++ d.filled slot user ∧ change.draft.occupant? slot = some user

theorem Change.EndsSeated.seat {change : Change} (h : change.EndsSeated) (slot user : Int) :
    (change.seat slot user).EndsSeated := by
  have hseat := Draft.occupant?_seat change.draft slot user
  by_cases hoccupied : change.draft.occupant? slot = some user
  · -- Nobody is told anything, and everyone stays.
    have hevents := Change.seat_of_occupant hoccupied
    refine h.imp hevents.trans fun ⟨earlier, d, slot', user', htold, hseated⟩ => ?_
    refine ⟨earlier, d, slot', user', hevents.trans htold, (hseat slot').trans ?_⟩
    split
    · rename_i hs
      rw [← hoccupied, ← hs, hseated]
    · exact hseated
  · right
    have hnew : (change.draft.seat slot user).occupant? slot = some user :=
      (hseat slot).trans (if_pos rfl)
    unfold Change.seat Draft.seatEvents
    cases hformer : change.draft.occupant? slot with
    | none => exact ⟨change.events, change.draft, slot, user, rfl, hnew⟩
    | some former =>
        have hne : former ≠ user := fun e => hoccupied (hformer.trans (congrArg some e))
        refine ⟨change.events ++ change.draft.vacated slot former, change.draft, slot, user, ?_,
          hnew⟩
        dsimp only
        rw [if_neg hne, List.append_assoc]

theorem Store.Seats.endsSeated {s : Store} {change change' : Change} (h : s.Seats change change')
    (hends : change.EndsSeated) : change'.EndsSeated := by
  induction h with
  | done => exact hends
  | next _ _ _ ih => exact ih (hends.seat _ _)

/-- To tell one user whom the database can hold leaves the connection usable, even if that fails. -/
theorem Delivery.broken_deliver_one {c : Conditions} {kind : EventKind}
    (hrefuses : c.refuses (.text kind.text) = false) (d : Delivery) (payload : Json) {user : Int}
    (huser : isStorable user = true) :
    (deliver c d (.ofUsers (.text kind.text) payload [user])).broken = false := by
  have hone : Ordered.ascending [user] = [user] :=
    Ordered.ascending_eq_self (List.pairwise_singleton _ _)
  have hkind : EventKind.ofJson? (.text kind.text) = some kind := EventKind.ofText?_text kind
  generalize ha : Announcement.ofUsers (.text kind.text) payload [user] = a
  obtain ⟨htaken, hsome, hstorable⟩ : a.isTaken c = true ∧ ¬a.recipients.isEmpty = true ∧
      a.recipients.all isStorable = true := by
    rw [← ha]
    simp [Announcement.isTaken, Announcement.ofUsers, hrefuses, hkind, hone, huser]
  rw [deliver_of_taken htaken, if_neg hsome, if_pos hstorable]
  split
  · rfl
  · rename_i husable
    have hd : d.broken = false := (Bool.or_eq_false_iff.1 (Bool.eq_false_iff.2 husable)).2
    split <;> exact hd

/-- Someone who still sits in a slot is in the way of nothing that looks at the database later. -/
theorem Change.EndsSeated.broken_deliverAll {change : Change} (h : change.EndsSeated)
    {c : Conditions} (hrefuses : c.refuses (.text EventKind.slotFilled.text) = false)
    (hsize : change.draft.isOversized = false) {d : Delivery} (hd : d.broken = false) :
    (d.deliverAll c change.events).broken = false := by
  rcases h with hnone | ⟨earlier, seated, slot, user, hevents, hseated⟩
  · rw [hnone]
    exact hd
  · have huser : isStorable user = true := by
      by_contra hlarge
      have hover := Drafting.Operation.isOversized_of_occupant hseated (by simpa using hlarge)
      rw [hover] at hsize
      cases hsize
    rw [hevents]
    unfold Delivery.deliverAll
    rw [List.foldl_append]
    exact Delivery.broken_deliver_one hrefuses _ _ huser

theorem Change.EndsSeated.not_broken {change : Change} (h : change.EndsSeated) {c : Conditions}
    (hrefuses : c.refuses (.text EventKind.slotFilled.text) = false)
    (hsize : change.draft.isOversized = false) {s : Store} {α : Type} (value : α) :
    ((change.work s value).outcome c).broken = false :=
  h.broken_deliverAll hrefuses hsize (d := .start _ 1) rfl

/-! ### What a turn does to the records -/

section Operations

variable {s : Store}

namespace Store

theorem isSome_draft?_putDraft (s : Store) (d : Draft) (module : String) :
    ((s.putDraft d).draft? module).isSome = (s.draft? module).isSome := by
  rw [draft?_putDraft]
  split
  · exact Option.isSome_map
  · rfl

theorem isSome_draft?_removeDraft (s : Store) (removed module : String) :
    ((s.removeDraft removed).draft? module).isSome =
      ((s.draft? module).isSome && module != removed) := by
  rw [draft?_removeDraft]
  by_cases h : module = removed <;> simp [h]

/-- Closing a run touches no other table. -/
theorem exists_runs_closeOpenRun (s : Store) (module : String) (outcome : RunOutcome)
    (now : Instant) : ∃ runs, s.closeOpenRun module outcome now = { s with runs } := by
  unfold closeOpenRun
  split
  · exact ⟨_, rfl⟩
  · exact ⟨s.runs, rfl⟩

/-- When a draft ends, the one active run of its module is closed in its place. -/
theorem Sound.runs_closeOpenRun (h : s.Sound) {d : Draft} (hd : d ∈ s.drafts)
    (outcome : RunOutcome) (now : Instant) :
    ∃ r before behind, r.module = d.module ∧ r.version = d.version ∧ r.outcome = .active ∧
      s.runs = before ++ r :: behind ∧
      (s.closeOpenRun d.module outcome now).runs =
        before ++ { r with outcome, ended := some now } :: behind := by
  obtain ⟨r, hr, hopen, hmodule, hversion, hactive⟩ := h.exists_openRun hd
  obtain ⟨before, behind, hsplit⟩ := List.append_of_mem hr
  refine ⟨r, before, behind, hmodule, hversion, hactive, hsplit, ?_⟩
  have hids := h.run_ids
  rw [hsplit, List.map_append, List.map_cons, List.nodup_middle, List.nodup_cons,
    ← List.map_append] at hids
  have hother {e : Run} (he : e ∈ before ++ behind) : e.id ≠ r.id :=
    fun hid => hids.1 (hid ▸ List.mem_map_of_mem he)
  have hkept {rows : List Run} (hrows : ∀ e ∈ rows, e ∈ before ++ behind) :
      rows.map (fun e => if e.id = r.id then { e with outcome, ended := some now } else e) = rows :=
    (List.map_congr_left fun e he => if_neg (hother (hrows e he))).trans (List.map_id _)
  unfold closeOpenRun closeRun
  rw [hopen]
  dsimp only
  rw [hsplit, List.map_append, List.map_cons, if_pos rfl,
    hkept fun _ => List.mem_append_left behind, hkept fun _ => List.mem_append_right before]

end Store

namespace Turn

open Drafting

variable {c : Conditions}

theorem answersBegun_begin (k module : String) (process : Int) (placements : List Placement) :
    answersBegun k s ⟨c, .draft (.begin module process placements)⟩ =
      (module == k && (begin c s module process placements).result.toBool) := rfl

theorem answersEnded_advance (o : RunOutcome) (k module : String) (user slot target : Int) :
    answersEnded o k s ⟨c, .draft (.advance module user slot target)⟩ =
      (module == k && o == .finished &&
        match (advance c s module user slot target).result with
        | .ok .finished => true
        | _ => false) := rfl

theorem answersEnded_cancel (o : RunOutcome) (k module : String) :
    answersEnded o k s ⟨c, .draft (.cancel module)⟩ =
      (module == k && o == .cancelled && (cancel c s module).result.toBool) := rfl

theorem records_begin (module : String) (process : Int) (placements : List Placement) :
    Records s ⟨c, .draft (.begin module process placements)⟩ := by
  rcases begin_cases c s module process placements with ⟨f, hf⟩ |
    ⟨m, p, v, ordered, placed, change, filled, hm, -, -, -, hidle, -, -, -, -, hplaced, hfilled,
      hcommits, ho⟩
  · have hafter : s.after ⟨c, .draft (.begin module process placements)⟩ = s :=
      congrArg Outcome.store hf
    refine .nothing (by rw [hafter]) (fun _ => by rw [hafter]) (fun k => ?_) fun _ _ => rfl
    rw [answersBegun_begin, hf]
    exact Bool.and_false _
  · have hmid := Store.id_of_module? hm
    subst hmid
    have hseats := (Store.seats_placeAll hplaced).1.trans (Store.seats_autofill hfilled)
    have hmodule : change.draft.module = m.id := by
      rw [hseats.draft_eq]
      rfl
    have hends : change.EndsSeated := hseats.endsSeated (Or.inl rfl)
    obtain ⟨es, hes⟩ := Work.extends_outcome c (change.work (freshStore c s m v) change.draft)
    have hafter : s.after ⟨c, .draft (.begin m.id process placements)⟩ = _ :=
      (congrArg Outcome.store ho).trans ((store_lookingBack _).trans hes)
    rw [Change.work, freshStore_putDraft hidle hmodule] at hafter
    refine .opened ⟨nextId (s.runs.map Run.id), m.id, v.id, .active, c.now, none⟩ rfl
      (by rw [hafter]) hidle (fun k => ?_) ⟨process, placements, rfl⟩ (fun k hk => ?_)
      (fun hrefuses => ?_) fun _ _ => rfl
    · rw [hafter]
      unfold Store.draft?
      dsimp only
      rw [List.find?_append, List.find?_singleton, Option.isSome_or, hmodule]
      by_cases h : m.id = k
      · simp [h]
      · simp [h, Ne.symm h]
    · exact (beq_iff_eq.1 (Bool.and_eq_true_iff.1 hk).1).symm
    · have hwhole := hends.not_broken (s := freshStore c s m v) hrefuses
        (oversizedIf_eq_none_iff.1 hcommits.flaw) change.draft
      rw [answersBegun_begin, ho, lookingBack_of_not_broken hwhole]
      exact Bool.and_eq_true_iff.2 ⟨beq_self_eq_true m.id, rfl⟩

theorem records_advance (h : s.Sound) (module : String) (user slot target : Int) :
    Records s ⟨c, .draft (.advance module user slot target)⟩ := by
  rcases advance_cases c s module user slot target with ⟨f, hf⟩ |
    ⟨d, step, l, w, -, hd, -, -, -, -, -, hw, -, ho⟩
  · have hafter : s.after ⟨c, .draft (.advance module user slot target)⟩ = s :=
      congrArg Outcome.store hf
    refine .nothing (by rw [hafter]) (fun _ => by rw [hafter]) (fun _ => rfl) fun o k => ?_
    rw [answersEnded_advance, hf]
    exact Bool.and_false _
  · have hmodule := Store.module_of_draft? hd
    subst hmodule
    obtain ⟨es, hes⟩ := w.extends_outcome c
    have hafter : s.after ⟨c, .draft (.advance d.module user slot target)⟩ = _ :=
      (congrArg Outcome.store ho).trans hes
    have hresult : (advance c s d.module user slot target).result = .ok w.value :=
      congrArg Outcome.result ho
    by_cases hfinal : s.isFinalFor d l.target = true
    · rw [if_pos hfinal] at hw
      obtain ⟨-, -, rfl⟩ := finish_eq_ok_iff.1 hw
      have hmem := (h.draft?_eq_some_iff.1 hd).1
      obtain ⟨r, before, behind, hrun, -, hactive, hfound, hruns⟩ :=
        (h.publish d.module d.document).runs_closeOpenRun hmem .finished c.now
      refine .closed .finished hactive hfound (by rw [hafter]; exact hruns) (fun k => ?_)
        (fun _ => rfl) fun o k => ?_
      · have hdrafts := (sameDrafts_closeOpenRun (s.publish d.module d.document) d.module .finished
          c.now).1
        rw [hafter, hrun]
        refine (Store.isSome_draft?_removeDraft _ d.module k).trans ?_
        rw [Store.draft?_eq_of_drafts hdrafts]
        rfl
      · rw [answersEnded_advance, hresult, hrun]
        exact Bool.and_true _
    · rw [if_neg hfinal] at hw
      obtain ⟨change, filled, hfilled, rfl⟩ := move_eq_ok_iff.1 hw
      refine .nothing (by rw [hafter]; rfl) (fun k => ?_) (fun _ => rfl) fun o k => ?_
      · rw [hafter]
        exact (Store.isSome_draft?_putDraft _ _ k).trans (Store.isSome_draft?_putDraft s _ k)
      · rw [answersEnded_advance, hresult]
        exact Bool.and_false _

theorem records_cancel (h : s.Sound) (module : String) :
    Records s ⟨c, .draft (.cancel module)⟩ := by
  rcases cancel_cases c s module with ⟨f, hf⟩ | ⟨d, w, -, hd, -, rfl, -, ho⟩
  · have hafter : s.after ⟨c, .draft (.cancel module)⟩ = s := congrArg Outcome.store hf
    refine .nothing (by rw [hafter]) (fun _ => by rw [hafter]) (fun _ => rfl) fun o k => ?_
    rw [answersEnded_cancel, hf]
    exact Bool.and_false _
  · have hmodule := Store.module_of_draft? hd
    subst hmodule
    obtain ⟨es, hes⟩ := Work.extends_outcome c _
    have hafter : s.after ⟨c, .draft (.cancel d.module)⟩ = _ :=
      (congrArg Outcome.store ho).trans hes
    obtain ⟨r, before, behind, hrun, -, hactive, hfound, hruns⟩ :=
      h.runs_closeOpenRun (h.draft?_eq_some_iff.1 hd).1 .cancelled c.now
    refine .closed .cancelled hactive hfound (by rw [hafter]; exact hruns) (fun k => ?_)
      (fun _ => rfl) fun o k => ?_
    · rw [hafter, hrun]
      refine (Store.isSome_draft?_removeDraft _ d.module k).trans ?_
      rw [Store.draft?_eq_of_drafts (sameDrafts_closeOpenRun s d.module .cancelled c.now).1]
    · rw [answersEnded_cancel, ho, hrun]
      exact Bool.and_true _

/-- Seating and vacating leave the records as they are. -/
theorem records_seating {op : Drafting.Operation} {α : Type} {o : Outcome α}
    (hafter : s.after ⟨c, .draft op⟩ = o.store)
    (hcases : (∃ f, o = .failed s f) ∨
      ∃ (w : Work α) (d : Draft), w.store = s.putDraft d ∧ o = w.outcome c)
    (hbegun : ∀ m, answersBegun m s ⟨c, .draft op⟩ = false)
    (hended : ∀ o m, answersEnded o m s ⟨c, .draft op⟩ = false) :
    Records s ⟨c, .draft op⟩ := by
  rcases hcases with ⟨f, rfl⟩ | ⟨w, d, hw, rfl⟩
  · exact .nothing (by rw [hafter]; rfl) (fun _ => by rw [hafter]; rfl) hbegun hended
  · obtain ⟨es, hes⟩ := w.extends_outcome c
    rw [hes, hw] at hafter
    refine .nothing (by rw [hafter]; rfl) (fun m => ?_) hbegun hended
    rw [hafter]
    exact Store.isSome_draft?_putDraft s d m

theorem records (h : s.Sound) (t : Turn) : t.Records s := by
  obtain ⟨c, action⟩ := t
  cases action with
  | define op =>
      obtain ⟨processes, versions, hafter⟩ := s.exists_after_define c op
      exact .nothing (by rw [hafter]) (fun _ => by rw [hafter]; rfl) (fun _ => rfl) fun _ _ => rfl
  | direct op =>
      obtain ⟨modules, members, hafter⟩ := s.exists_after_direct c op
      exact .nothing (by rw [hafter]) (fun _ => by rw [hafter]; rfl) (fun _ => rfl) fun _ _ => rfl
  | draft op =>
      cases op with
      | begin module process placements => exact records_begin module process placements
      | advance module user slot target => exact records_advance h module user slot target
      | cancel module => exact records_cancel h module
      | assign module slot user =>
          refine records_seating rfl ((assign_cases c s module slot user).imp_right ?_)
            (fun _ => rfl) fun _ _ => rfl
          rintro ⟨d, row, w, -, -, -, -, -, rfl, -, ho⟩
          exact ⟨_, _, rfl, ho⟩
      | claim module slot user =>
          refine records_seating rfl ((claim_cases c s module slot user).imp_right ?_)
            (fun _ => rfl) fun _ _ => rfl
          rintro ⟨d, row, w, -, -, -, -, -, -, -, rfl, -, ho⟩
          exact ⟨_, _, rfl, ho⟩
      | unassign module slot =>
          refine records_seating rfl ((unassign_cases c s module slot).imp_right ?_)
            (fun _ => rfl) fun _ _ => rfl
          rintro ⟨d, row, w, -, -, -, -, rfl, -, ho⟩
          exact ⟨_, _, rfl, ho⟩

/-- A module that gets a draft has begun a process. -/
theorem begins_of_isSome (h : s.Sound) {t : Turn} {module : String}
    (hnone : s.draft? module = none) (hsome : ((s.after t).draft? module).isSome = true) :
    t.Begins module := by
  cases records h t with
  | nothing _ drafts =>
      rw [drafts, hnone] at hsome
      cases hsome
  | opened r _ _ _ drafts asked =>
      rw [drafts, hnone] at hsome
      rwa [beq_iff_eq.1 hsome]
  | closed _ _ _ _ drafts =>
      rw [drafts, hnone] at hsome
      cases hsome

end Turn

end Operations

end Editorial
