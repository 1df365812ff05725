import Editorial.Api.Response
import Editorial.Proofs.Draft.Atomicity
import Editorial.Session

/-!
# What a client is told when the database fails

An operation on drafts that would have succeeded may meet an error of the database at its locking
read or at its own commit (`Struck`). It then fails and leaves everything as it was
(`perform_of_struck`). Whether the client is told that something the operation depends on has
failed, and that it makes sense to try again, hangs on where the error is met and of what kind it is
(`database_errors_reported`): behind the lock every error is reported so, at the locking read only
an operational one, and a beginning, which locks nothing, passes the error on as it is.
-/

namespace Editorial

/-! ### Conditions and errors -/

/-- The same conditions without an error of the database at the locking read or at the operation's
own commit. -/
def Conditions.undisturbed (c : Conditions) : Conditions :=
  { c with
    lockError := none
    commitError := fun n => if n = 0 then none else c.commitError n }

namespace DatabaseError

/-- An error of the connection, and not one of what was asked. -/
def isOperational : DatabaseError → Bool
  | operational .. => true
  | _ => false

/-- An error that says that a lock could not be had in time. -/
def isLockTimeout : DatabaseError → Bool
  | operational text code => Editorial.isLockTimeout text code
  | _ => false

end DatabaseError

/-- The category under which a failure is reported, if it is. -/
def Failure.category? (f : Failure) : Option Category := f.report?.map Report.category

/-- Clients are told that something the operation depends on has failed and that trying again makes
sense; a lock that could not be had in time is a special case. -/
structure Failure.IsDependency (f : Failure) : Prop where
  category : f.category? = some .dependency ∨ f.category? = some .locked
  report : ∃ r, f.report? = some r ∧ r.status = 503 ∧ r.retryable = true
  response : (Api.Response.ofFailure f).status = 503 ∧
    (Api.Response.ofFailure f).retryAfter = some "1"

theorem Failure.isDependency_of_category {f : Failure}
    (h : f.category? = some .dependency ∨ f.category? = some .locked) : f.IsDependency := by
  unfold category? at h
  cases hr : f.report? with
  | none =>
      rw [hr] at h
      rcases h with h | h <;> cases h
  | some r =>
      rw [hr, Option.map_some, Option.some.injEq, Option.some.injEq] at h
      have hstatus : r.status = 503 := by
        unfold Report.status
        rcases h with h | h <;> rw [h]
      have hretry : r.retryable = true := by
        unfold Report.retryable
        rcases h with h | h <;> rw [h] <;> rfl
      refine ⟨by simpa [category?, hr] using h, ⟨r, hr, hstatus, hretry⟩, ?_⟩
      unfold Api.Response.ofFailure
      rw [hr]
      dsimp only [Api.Response.ofReport]
      rw [hretry, if_pos rfl]
      exact ⟨congrArg Int.ofNat hstatus, rfl⟩

theorem Failure.isDependency_iff {f : Failure} :
    f.IsDependency ↔ f.category? = some .dependency ∨ f.category? = some .locked :=
  ⟨IsDependency.category, isDependency_of_category⟩

/-! ### Errors at the commit -/

section Commit

variable {α : Type} {c : Conditions} {s : Store} {error : DatabaseError} {a : α}

theorem complete_of_commitError {report : DatabaseError → Failure}
    {work : Except Failure (Work α)}
    (hok : (complete c.undisturbed s report work).result = .ok a)
    (herror : c.commitError 0 = some error) :
    complete c s report work = .failed s (report error) := by
  cases work with
  | error f => cases hok
  | ok w => simp only [complete, herror]

theorem onLockedDraft_of_commitError {module : String} {prepare : Draft → Except Failure (Work α)}
    (hok : (onLockedDraft c.undisturbed s module prepare).result = .ok a)
    (hlock : c.lockError = none) (herror : c.commitError 0 = some error) :
    onLockedDraft c s module prepare = .failed s .databaseFailed := by
  unfold onLockedDraft at hok ⊢
  rw [hlock]
  exact complete_of_commitError hok herror

theorem onLockedDraft_of_lockError {module : String} {prepare : Draft → Except Failure (Work α)}
    (herror : c.lockError = some error) :
    onLockedDraft c s module prepare = .failed s (lockFailure module error) := by
  simp only [onLockedDraft, herror]

theorem result_of_lookingBack {o : Outcome α} (h : o.lookingBack.result = .ok a) :
    o.result = .ok a := by
  unfold Outcome.lookingBack at h
  split at h
  · cases h
  · exact h

end Commit

/-! ### Operations that an error strikes -/

namespace Drafting.Operation

variable {c : Conditions} {s : Store} {op : Operation} {point : FaultPoint} {error : DatabaseError}

/-- An operation on drafts meets an error of the database: at its locking read, if it has one, or,
when there is none, at its own commit. -/
inductive Struck (c : Conditions) (op : Operation) : FaultPoint → DatabaseError → Prop where
  | lock {module : String} {error : DatabaseError} (locks : op.locked? = some module)
      (failed : c.lockError = some error) : Struck c op .lock error
  | commit {error : DatabaseError} (locks : op.locked?.isSome = true → c.lockError = none)
      (failed : c.commitError 0 = some error) : Struck c op .commit error

/-- What an operation makes of an error of the database: under a lock every one is reported, without
one it is passed on unless it is a violated constraint. -/
def failureOf (op : Operation) : FaultPoint → DatabaseError → Failure
  | .lock, error => lockFailure (op.locked?.getD "") error
  | _, error =>
      match op with
      | begin module .. => beginCommitFailure module error
      | _ => .databaseFailed

/-- What would have succeeded and is struck fails and leaves everything as it was. -/
theorem perform_of_struck {a : op.Answer} (hok : (op.perform c.undisturbed s).result = .ok a)
    (h : op.Struck c point error) : op.perform c s = .failed s (op.failureOf point error) := by
  cases h with
  | lock locks failed =>
      cases op with
      | begin module process placements => cases locks
      | _ => exact onLockedDraft_of_lockError failed
  | commit locks failed =>
      cases op with
      | begin module process placements =>
          have hcommit := complete_of_commitError (result_of_lookingBack hok) failed
          exact congrArg Outcome.lookingBack hcommit
      | _ => exact onLockedDraft_of_commitError hok (locks rfl) failed

theorem category?_lockFailure (module : String) (error : DatabaseError) :
    (lockFailure module error).category? =
      if error.isLockTimeout then some .locked
      else if error.isOperational then some .dependency else none := by
  cases error with
  | operational text code =>
      unfold lockFailure DatabaseError.isLockTimeout
      dsimp only
      split <;> rfl
  | _ => rfl

/-- Only an operational error is taken for a lock that could not be had in time. -/
theorem isOperational_of_isLockTimeout (h : error.isLockTimeout = true) :
    error.isOperational = true := by
  cases error with
  | operational text code => rfl
  | _ => cases h

theorem category?_failureOf (h : op.Struck c point error) (herror : error ≠ .integrity) :
    ((op.failureOf point error).category? = some .locked ↔
      point = .lock ∧ error.isLockTimeout = true) ∧
    ((op.failureOf point error).IsDependency ↔
      point = .lock ∧ error.isOperational = true ∨
        point = .commit ∧ op.locked?.isSome = true) ∧
    (¬(op.failureOf point error).IsDependency → op.failureOf point error = .database error) := by
  rw [Failure.isDependency_iff]
  cases h with
  | lock locks failed =>
      rw [show op.failureOf .lock error = lockFailure (op.locked?.getD "") error from rfl,
        category?_lockFailure]
      cases htimeout : error.isLockTimeout with
      | true => simp [isOperational_of_isLockTimeout htimeout]
      | false =>
          cases hoperational : error.isOperational with
          | true => simp
          | false =>
              refine ⟨by simp, by simp, fun _ => ?_⟩
              cases error with
              | operational text code => cases hoperational
              | _ => rfl
  | commit locks failed =>
      cases op with
      | begin module process placements =>
          cases error with
          | integrity => exact absurd rfl herror
          | _ => simp [failureOf, beginCommitFailure, locked?, Failure.category?, Failure.report?]
      | _ => simp [failureOf, locked?, Failure.category?, Failure.report?, Report.plain]

end Drafting.Operation

/-- An operation on drafts that would have succeeded, but for an error of the database at its
locking read or at its own commit other than a violated constraint, fails and leaves everything as
it was. The client is told of a lock that could not be had in time exactly when the locking read
says so, and of a failed dependency with that, on every other operational error of the locking read
and on every error of a commit under the lock. What is left are the other errors of a locking read
and all those of the commit of a beginning: these are passed on as they are. -/
theorem database_errors_reported {c : Conditions} {s : Store} {op : Drafting.Operation}
    {a : op.Answer} (hok : (op.perform c.undisturbed s).result = .ok a) {point : FaultPoint}
    {error : DatabaseError} (h : op.Struck c point error) (herror : error ≠ .integrity) :
    ∃ f, op.perform c s = .failed s f ∧
      (f.category? = some .locked ↔ point = .lock ∧ error.isLockTimeout = true) ∧
      (f.IsDependency ↔ point = .lock ∧ error.isOperational = true ∨
        point = .commit ∧ op.locked?.isSome = true) ∧
      (¬f.IsDependency → f = .database error) :=
  ⟨_, Drafting.Operation.perform_of_struck hok h, Drafting.Operation.category?_failureOf h herror⟩

/-- The author cannot submit the draft while the lock is held by somebody else, and is told so. -/
theorem locked_review :
    let error : DatabaseError := .operational "canceling statement due to lock timeout" none
    let c := { Review.conditions with lockError := some error }
    (Drafting.advance c.undisturbed Review.store "m" 4 1 2).result.toBool = true ∧
      error.isLockTimeout = true ∧
      ∃ f, Drafting.advance c Review.store "m" 4 1 2 = .failed Review.store f ∧
        f.category? = some .locked ∧ f.IsDependency := by
  intro error c
  let op : Drafting.Operation := .advance "m" 4 1 2
  have htimeout : error.isLockTimeout = true := by decide
  have hbool : (op.perform c.undisturbed Review.store).result.toBool = true := by decide +kernel
  obtain ⟨a, ha⟩ := exists_ok_of_toBool hbool
  have hstruck : op.Struck c .lock error := .lock rfl rfl
  obtain ⟨f, hf, hlocked, hdependency, -⟩ := database_errors_reported ha hstruck nofun
  exact ⟨hbool, htimeout, f, hf, hlocked.2 ⟨rfl, htimeout⟩, hdependency.2 (Or.inl ⟨rfl, rfl⟩)⟩

/-- When the database cannot write the draft of the review, which would have been begun otherwise,
or answers the locking read of an advance with an error that is not operational, the error is passed
on as it is, and the client is told of nothing. -/
theorem unreported_database_errors :
    let s := Store.empty.afterAll (Review.turns.take 3)
    let placements : List Placement := [⟨.int 1, .int 4⟩]
    let error : DatabaseError := .operational "disk I/O error" none
    let c := { Review.conditions with
      commitError := fun n => if n = 0 then some error else none }
    let c' := { Review.conditions with lockError := some .other }
    (Drafting.begin c.undisturbed s "m" 1 placements).result.toBool = true ∧
      Drafting.begin c s "m" 1 placements = .failed s (.database error) ∧
      ¬(Failure.database error).IsDependency ∧
      (Drafting.advance c'.undisturbed Review.store "m" 4 1 2).result.toBool = true ∧
      Drafting.advance c' Review.store "m" 4 1 2 = .failed Review.store (.database .other) ∧
      ¬(Failure.database .other).IsDependency := by
  intro s placements error c c'
  have hsilent (e : DatabaseError) : ¬(Failure.database e).IsDependency := fun h =>
    h.category.elim nofun nofun
  have hbegun : (Drafting.begin c.undisturbed s "m" 1 placements).result.toBool = true := by
    decide +kernel
  have hadvanced :
      (Drafting.advance c'.undisturbed Review.store "m" 4 1 2).result.toBool = true := by
    decide +kernel
  obtain ⟨d, hd⟩ := exists_ok_of_toBool hbegun
  obtain ⟨a, ha⟩ := exists_ok_of_toBool hadvanced
  have hcommit : (Drafting.Operation.begin "m" 1 placements).perform c s = _ :=
    Drafting.Operation.perform_of_struck hd (.commit nofun rfl)
  have hlock : (Drafting.Operation.advance "m" 4 1 2).perform c' Review.store = _ :=
    Drafting.Operation.perform_of_struck ha (.lock rfl rfl)
  exact ⟨hbegun, hcommit, hsilent error, hadvanced, hlock, hsilent .other⟩

end Editorial
