import Editorial.Api.Request
import Editorial.Proofs.Draft.Seating
import Editorial.Proofs.Refusal

/-!
# Responses to requests that fail

A request is answered when its response does not speak of an error, or tells the client of one
(`Response.IsAnswer`). Any other response has to have a cause (`Response.BlamedOn`). The response to
a failure is blamed on what the failure is blamed on (`Response.blamedOn_ofFailure`), and from there
on a rule for each kind of reply leads to the response to a request. What is read from a body is
judged here too.
-/

namespace Editorial.Api

open Json

/-! ### Responses -/

namespace Response

/-- The client is told of an error of its own: by the status and by a body with a message and a
code. -/
structure TellsError (r : Response) : Prop where
  at_least : 400 ≤ r.status
  below : r.status < 500
  told : ∃ (fields : Fields) (message code : Text.Wording), r.body = some (object fields) ∧
    find? fields "error" = some (text message) ∧ find? fields "code" = some (text code)

/-- The response does not speak of an error, or tells the client of one. -/
def IsAnswer (r : Response) : Prop := r.status < 400 ∨ r.TellsError

/-- A response that is an answer, and for the one that tells nothing the cause is there. -/
def BlamedOn (cause : Prop) (r : Response) : Prop := r.IsAnswer ∨ r = internal ∧ cause

theorem tellsError_json {status : Int} {code message : Text.Wording} {details : Json}
    (at_least : 400 ≤ status) (below : status < 500) :
    (json status (errorBody (text code) (text message) details)).TellsError where
  at_least := at_least
  below := below
  told := by
    unfold errorBody
    dsimp only
    split
    · exact ⟨_, message, code, rfl, rfl, rfl⟩
    · exact ⟨_, message, code, rfl, rfl, rfl⟩

theorem tellsError_requestError {e : RequestError} (h : e ≠ .internal) (message : String) :
    (requestError e message).TellsError := by
  cases e with
  | internal => exact absurd rfl h
  | _ => exact tellsError_json (by decide) (by decide)

/-- The code of a report is a text. -/
theorem exists_code {f : Failure} {r : Report} (h : f.report? = some r) :
    ∃ code, r.code = text code := by
  cases f <;> first
    | cases h
      exact ⟨_, rfl⟩
    | cases h

theorem tellsError_ofReport {f : Failure} {r : Report} (h : f.report? = some r)
    (hfinal : r.retryable = false) : (ofReport r).TellsError := by
  obtain ⟨code, hcode⟩ := exists_code h
  have hstatus : 400 ≤ r.status ∧ r.status < 500 := by
    unfold Report.retryable at hfinal
    unfold Report.status
    cases hcategory : r.category with
    | dependency | locked => simp [hcategory] at hfinal
    | denied =>
        dsimp only
        split <;> omega
    | _ =>
        dsimp only
        omega
  have htells : (json r.status (errorBody r.code (text r.message) r.details)).TellsError := by
    rw [hcode]
    exact tellsError_json (by omega) (by omega)
  exact ⟨htells.at_least, htells.below, htells.told⟩

theorem blamedOn_ofFailure {cause : Prop} {f : Failure} (h : f.BlamedOn cause) :
    (ofFailure f).BlamedOn cause := by
  unfold ofFailure
  rcases h with hanswered | ⟨hstray, hcause⟩
  · unfold Failure.isAnswered at hanswered
    cases hr : f.report? with
    | none => simp [hr] at hanswered
    | some r => exact Or.inl (Or.inr (tellsError_ofReport hr (by simpa [hr] using hanswered)))
  · have hnone : f.report? = none := by
      unfold Failure.isStray at hstray
      split at hstray
      · cases hstray
      · exact Option.isNone_iff_eq_none.1 hstray
    rw [hnone]
    exact Or.inr ⟨rfl, hcause⟩

end Response

open Response

/-! ### Replies -/

section Replies

variable {α : Type} {cause : Prop} {s : Store}

/-- A check of the operations refuses a request with the response to its failure. -/
theorem onlyFails_lift {x : Except Failure α} (h : OnlyFails (Failure.BlamedOn cause) x) :
    OnlyFails (Response.BlamedOn cause) (liftM x : Except Response α) :=
  h.mapError fun _ => blamedOn_ofFailure

theorem onlyFails_refuse {e : RequestError} (h : e ≠ .internal) (message : String) :
    OnlyFails (Response.BlamedOn cause) (refuse e message : Except Response α) :=
  Or.inl (Or.inr (tellsError_requestError h message))

theorem blamedOn_read {response : Except Response Response}
    (h : Ends (Response.BlamedOn cause) (fun r => r.status < 400) response) :
    (Reply.read s response).response.BlamedOn cause := by
  cases response with
  | ok r => exact Or.inl (Or.inl h)
  | error r => exact h

theorem ends_json {ε : Type} {P : ε → Prop} {status : Int} (h : status < 400) (v : Json) :
    Ends P (fun r => r.status < 400) (pure (Response.json status v)) :=
  h

theorem blamedOn_after {checks : Except Response α} {next : α → Reply}
    (hchecks : OnlyFails (Response.BlamedOn cause) checks)
    (hnext : ∀ a, checks = .ok a → (next a).response.BlamedOn cause) :
    (Reply.after s checks next).response.BlamedOn cause := by
  cases checks with
  | ok a => exact hnext a rfl
  | error r => exact hchecks

theorem blamedOn_ofOutcome {o : Outcome α} {view : Store → α → Except Failure Response}
    (hresult : OnlyFails (Failure.BlamedOn cause) o.result)
    (hview : ∀ a, o.result = .ok a →
      Ends (Failure.BlamedOn cause) (fun r => r.status < 400) (view o.store a)) :
    (Reply.ofOutcome o view).response.BlamedOn cause := by
  unfold Reply.ofOutcome
  cases hr : o.result with
  | error f =>
      rw [hr] at hresult
      exact blamedOn_ofFailure hresult
  | ok a =>
      have hshown := hview a hr
      dsimp only
      cases hv : view o.store a with
      | error f =>
          rw [hv] at hshown
          exact blamedOn_ofFailure hshown
      | ok r =>
          rw [hv] at hshown
          exact Or.inl (Or.inl hshown)

theorem blamedOn_done {o : Outcome α} (h : OnlyFails (Failure.BlamedOn cause) o.result) :
    (Reply.done o).response.BlamedOn cause :=
  blamedOn_ofOutcome h fun _ _ => show (204 : Int) < 400 by decide

end Replies

/-! ### What is read from a body -/

section Reading

variable {cause : Prop}

/-- A body that is no object although it counts as given. -/
def Body.IsShapeless (b : Body) : Prop :=
  ∃ v, b = .json v ∧ v.isGiven = true ∧ ∀ fields, v ≠ .object fields

theorem onlyFails_value {b : Body} (hdeep : b = .tooDeep → cause) :
    OnlyFails (Failure.BlamedOn cause) b.value? := by
  cases b with
  | tooDeep => exact Or.inr ⟨rfl, hdeep rfl⟩
  | _ => trivial

theorem onlyFails_fields {b : Body} (hdeep : b = .tooDeep → cause)
    (hshape : b.IsShapeless → cause) : OnlyFails (Failure.BlamedOn cause) b.fields := by
  refine .bind (onlyFails_value hdeep) fun v hv => ?_
  split
  · trivial
  · trivial
  · rename_i v hother
    refine .ite (fun hgiven => Or.inr ⟨rfl, hshape ⟨v, ?_, hgiven, ?_⟩⟩) fun _ => trivial
    · cases b with
      | json w => rw [Option.some.inj (Except.ok.inj hv)]
      | _ => cases hv
    · rintro fields rfl
      exact hother fields rfl

/-- A text of digits that is no numeral: some digit of it has no place value, or there are too many
of them. -/
def OddDigits (v : Json) : Prop :=
  ∃ t : String, v = text t ∧ isDigits t = true ∧ ∀ n, Number.readInteger t ≠ .ok n

theorem onlyFails_wholeField {fields : Fields} {name : String}
    (h : OddDigits (field fields name) → cause) :
    OnlyFails (Failure.BlamedOn cause) (wholeField fields name) := by
  unfold wholeField wholeNumber?
  split
  · trivial
  · rename_i t ht
    refine .ite (fun hdigits => ?_) fun _ => trivial
    cases hn : Number.readInteger t with
    | ok n => trivial
    | error e => exact Or.inr ⟨rfl, h ⟨t, ht, hdigits, by simp [hn]⟩⟩
  · trivial

/-- Some initial assignment speaks of an infinite number. -/
def AssignsInfinity (v : Json) : Prop :=
  ∃ pairs a b, pairs? v = some pairs ∧ some (a, b) ∈ pairs ∧
    (a.whole = .error .infinite ∨ b.whole = .error .infinite)

theorem onlyFails_idOf {v : Json} (h : v.whole = .error .infinite → cause) :
    OnlyFails (Failure.BlamedOn cause) (idOf? v) := by
  unfold idOf?
  split
  · trivial
  · rename_i hinfinite
    exact Or.inr ⟨rfl, h hinfinite⟩
  · trivial

theorem onlyFails_assignAll {seats : List Seat} {pairs : List (Option (Json × Json))}
    (h : ∀ a b, some (a, b) ∈ pairs →
      a.whole = .error .infinite ∨ b.whole = .error .infinite → cause) :
    OnlyFails (Failure.BlamedOn cause) (assignAll seats pairs) := by
  induction pairs generalizing seats with
  | nil => trivial
  | cons pair rest ih =>
      cases pair with
      | none => trivial
      | some pair =>
          obtain ⟨a, b⟩ := pair
          have hfirst := h a b List.mem_cons_self
          refine .bind (onlyFails_idOf fun hb => hfirst (Or.inr hb)) fun user _ => ?_
          cases user with
          | none => trivial
          | some user =>
              refine .bind (onlyFails_idOf fun ha => hfirst (Or.inl ha)) fun slot _ => ?_
              cases slot with
              | none => trivial
              | some slot => exact ih fun a b hmem => h a b (List.mem_cons_of_mem _ hmem)

theorem onlyFails_assignments {v : Json} (h : AssignsInfinity v → cause) :
    OnlyFails (Failure.BlamedOn cause) (assignments v) := by
  unfold assignments
  cases hpairs : pairs? v with
  | none => trivial
  | some pairs =>
      exact onlyFails_assignAll fun a b hmem hinfinite =>
        h ⟨pairs, a, b, hpairs, hmem, hinfinite⟩

theorem ordered_assignAll {seats assigned : List Seat} {pairs : List (Option (Json × Json))}
    (hseats : SeatsOrdered seats) (h : assignAll seats pairs = .ok (some assigned)) :
    SeatsOrdered assigned := by
  induction pairs generalizing seats with
  | nil =>
      cases h
      exact hseats
  | cons pair rest ih =>
      cases pair with
      | none => cases h
      | some pair =>
          obtain ⟨user, -, h⟩ := bind_eq_ok_iff.1 h
          cases user with
          | none => cases h
          | some user =>
              obtain ⟨slot, -, h⟩ := bind_eq_ok_iff.1 h
              cases slot with
              | none => cases h
              | some slot => exact ih (Draft.ordered_putSeat slot user hseats) h

theorem ordered_assignments {v : Json} {seats : List Seat} (h : assignments v = .ok (some seats)) :
    SeatsOrdered seats := by
  unfold assignments at h
  split at h
  · cases h
  · exact ordered_assignAll List.Pairwise.nil h

end Reading

end Editorial.Api
