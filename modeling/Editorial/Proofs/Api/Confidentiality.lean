import Editorial.Api.Handler
import Editorial.Proofs.Draft.Visibility
import Editorial.Proofs.Reachable

/-!
# What a user learns through requests

What a user learns by reading does not depend on drafts that the user may not read
(`reads_confidential`): where they are, what they hold and who sits in them makes no difference to
any answer. Every way to read is looked at on its own; a listing shows what the user may read
(`Store.AlikeFor.readable`), a single draft is shown only to whom it may be (`readableDraft`), and
process definitions are no drafts.
-/

namespace Editorial.Api

/-! ### Reading -/

/-- Only looks something up. -/
def Action.isReading : Action → Bool
  | listDrafts | showDraft _ | showDraftProcess _ | listFreeSlots | listProcesses | showProcess _
  | showTree _ | listVersions _ | showVersion .. | showVersionTree .. | showStep .. => true
  | _ => false

theorem isReading_of_get {place : Place} {a : Action}
    (h : place.endpoint? "GET" = some (.action a)) : a.isReading = true := by
  cases place <;> cases h
  all_goals rfl

variable {s t : Store} {user : Int}

theorem Reply.response_read_congr {x y : Except Response Response} (h : y = x) :
    (Reply.read t y).response = (Reply.read s x).response := by
  subst h
  cases y <;> rfl

/-- Access to a draft is decided once the ids of the user and the team have been looked at. -/
theorem readableDraft_of_found {module : String} {d : Draft} (hd : s.draft? module = some d) :
    readableDraft s module user =
      (do
        requireStorable user
        requireStorable d.team
        if s.mayRead user d then return d else throw .noAccess) := by
  unfold readableDraft
  rw [Store.draft_eq_ok_iff.2 hd]
  cases huser : requireStorable user with
  | error f => simp [Store.teamPermission, huser, bind, Except.bind]
  | ok _ =>
      cases hteam : requireStorable d.team with
      | error f => simp [Store.teamPermission, huser, hteam, bind, Except.bind]
      | ok _ =>
          simp only [Store.teamPermission, huser, hteam, bind, Except.bind, pure, Except.pure]
          change (if s.mayRead user d = true then _ else _) = _
          split <;> rfl

theorem readableDraft_alike (h : s.AlikeFor t user) (module : String) :
    readableDraft t module user = readableDraft s module user := by
  cases h.drafts module with
  | hidden left right team unread unread' =>
      rw [readableDraft_of_found left, readableDraft_of_found right, team, unread, unread']
      rfl
  | shown same =>
      cases hd : s.draft? module with
      | none =>
          unfold readableDraft Store.draft
          rw [same, hd]
          rfl
      | some d =>
          rw [readableDraft_of_found hd, readableDraft_of_found (same.trans hd), h.mayRead]

/-! ### One way to read after the other -/

theorem listDrafts_alike (h : s.AlikeFor t user) (hs : s.Sound) (ht : t.Sound) :
    (listDrafts t user).response = (listDrafts s user).response := by
  apply Reply.response_read_congr
  simp only [h.draftsFor hs ht, h.projection]

theorem listFreeSlots_alike (h : s.AlikeFor t user) (hs : s.Sound) (ht : t.Sound) :
    (listFreeSlots t user).response = (listFreeSlots s user).response := by
  apply Reply.response_read_congr
  simp only [h.freeSlots hs ht, h.projection]

theorem showDraft_alike (h : s.AlikeFor t user) (module : String) :
    (showDraft t user module).response = (showDraft s user module).response := by
  apply Reply.response_read_congr
  simp only [readableDraft_alike h, h.projection]

theorem showDraftProcess_alike (h : s.AlikeFor t user) (module : String) :
    (showDraftProcess t user module).response = (showDraftProcess s user module).response := by
  apply Reply.response_read_congr
  simp only [readableDraft_alike h, h.processStatus, h.version?]

/-- A user is answered alike in stores that are alike for the user. -/
theorem respond_alike (h : s.AlikeFor t user) (hs : s.Sound) (ht : t.Sound) (c : Conditions)
    (body : Body) {a : Action} (ha : a.isReading = true) :
    (respond c t user body a).response = (respond c s user body a).response := by
  cases a with
  | listDrafts => exact listDrafts_alike h hs ht
  | showDraft module => exact showDraft_alike h module
  | showDraftProcess module => exact showDraftProcess_alike h module
  | listFreeSlots => exact listFreeSlots_alike h hs ht
  | listProcesses | showProcess _ | showTree _ | listVersions _ | showVersion _ _
  | showVersionTree _ _ | showStep _ _ _ =>
      obtain ⟨_, _, _, _, rfl⟩ := h.exists_eq
      exact Reply.response_read_congr rfl
  | _ => cases ha

theorem answer_alike (h : s.AlikeFor t user) (hs : s.Sound) (ht : t.Sound) (c : Conditions)
    {r : Request} (huser : userOfHeader? r.user = some user) {place : Place} {e : Endpoint}
    (he : place.endpoint? "GET" = some e) :
    (answer c t r e).response = (answer c s r e).response := by
  cases e with
  | ready => rfl
  | live => rfl
  | action a =>
      unfold answer
      rw [huser]
      exact respond_alike h hs ht c r.body (isReading_of_get he)

/-- A request to read is answered alike whether or not its path names something. -/
theorem route_alike (h : s.AlikeFor t user) (hs : s.Sound) (ht : t.Sound) (c : Conditions)
    {r : Request} (hmethod : Place.fullMethod (methodName r.method) = "GET")
    (huser : userOfHeader? r.user = some user) :
    (route c t r).response = (route c s r).response := by
  unfold route
  cases Place.ofPath? r.path with
  | none =>
      dsimp only
      cases Place.ofPath? (mergeSlashes r.path) with
      | none => rfl
      | some place => rfl
  | some place =>
      dsimp only [answerAt]
      split
      · rfl
      · split
        · rfl
        · rw [hmethod]
          cases he : place.endpoint? "GET" with
          | none => rfl
          | some e => exact answer_alike h hs ht c huser he

/-- A user who asks to read something gets the same answer in any two reachable stores that differ
in nothing but drafts that the user may read in neither of them, and in what nobody is shown. -/
theorem reads_confidential (hs : Reachable s) (ht : Reachable t) (h : s.AlikeFor t user)
    (c : Conditions) {r : Request} (hmethod : Place.fullMethod (methodName r.method) = "GET")
    (huser : userOfHeader? r.user = some user) :
    (handle c t r).map Reply.response = (handle c s r).map Reply.response := by
  have hroute := route_alike h hs.sound ht.sound c hmethod huser
  unfold handle
  split
  · rfl
  · dsimp only [Except.map]
    split
    · rw [hroute]
    · rw [hroute]

/-! ### An onlooker -/

namespace Onlooker

open Review

/-- Somebody without a role joins the team. -/
def joining : Turn := ⟨conditions, .direct (.setMember ⟨1, 8, none, []⟩)⟩

/-- The run, and somebody who joins the team. -/
def writing : Store := Store.empty.afterAll (turns ++ [joining])

/-- The same once the author has submitted the draft. -/
def submitting : Store :=
  Store.empty.afterAll (turns ++ [joining, ⟨conditions, .draft (.advance "m" 4 1 2)⟩])

/-- Who has joined may not read the draft, neither before it is submitted nor afterwards. -/
theorem alike : writing.AlikeFor submitting 8 where
  processes := by decide +kernel
  versions := by decide +kernel
  modules := by decide +kernel
  members := by decide +kernel
  drafts := fun module => by
    have hwriting : writing.drafts = [begun] := by decide +kernel
    have hsubmitting : submitting.drafts = [submitted] := by decide +kernel
    by_cases hmodule : module = "m"
    · subst hmodule
      refine .hidden (d := begun) (e := submitted) ?_ ?_ rfl ?_ ?_
      · rw [Store.draft?, hwriting]
        rfl
      · rw [Store.draft?, hsubmitting]
        rfl
      · decide +kernel
      · decide +kernel
    · refine .shown ?_
      simp [Store.draft?, hwriting, hsubmitting, submitted, begun, Ne.symm hmodule]

end Onlooker

/-- Somebody who has no part in the draft cannot find out by asking for it whether it has been
submitted. -/
theorem review_confidential :
    let r : Request :=
      { method := "GET", path := "/api/v1/drafts/m", user := some "8", body := .absent }
    Reachable Onlooker.writing ∧ Reachable Onlooker.submitting ∧
      Onlooker.writing.draft? "m" ≠ Onlooker.submitting.draft? "m" ∧
      Onlooker.writing.AlikeFor Onlooker.submitting 8 ∧
      Place.fullMethod (methodName r.method) = "GET" ∧ userOfHeader? r.user = some 8 ∧
      (handle Review.conditions Onlooker.submitting r).map Reply.response =
        (handle Review.conditions Onlooker.writing r).map Reply.response := by
  intro r
  have hmethod : Place.fullMethod (methodName r.method) = "GET" := by decide +kernel
  have huser : userOfHeader? r.user = some 8 := by decide +kernel
  exact ⟨⟨_, rfl⟩, ⟨_, rfl⟩, by decide +kernel, Onlooker.alike, hmethod, huser,
    reads_confidential ⟨_, rfl⟩ ⟨_, rfl⟩ Onlooker.alike Review.conditions hmethod huser⟩

end Editorial.Api
