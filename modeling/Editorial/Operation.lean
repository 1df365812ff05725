import Editorial.Event.Delivery

/-!
# Operations

An operation that changes the store prepares its `Work`: a value, the store as it will be and what
it has to announce. `complete` commits it and then delivers the announcements. Whatever fails up to
and including the commit leaves the store as it was and announces nothing; what fails later costs
deliveries only, unless the operation looks back at the database (`Outcome.lookingBack`).
-/

namespace Editorial

/-- What an operation wants to commit. -/
structure Work (α : Type) where
  value : α
  store : Store
  events : List Announcement
  /-- Why the database cannot hold what is written, which the commit finds out. -/
  flaw : Option Failure

/-- What is wrong when something written is too large for the database. -/
def oversizedIf (tooLarge : Bool) : Option Failure :=
  if tooLarge then some .oversized else none

/-- How an operation ended. -/
structure Outcome (α : Type) where
  result : Except Failure α
  /-- The store afterwards. -/
  store : Store
  /-- The number of announcements delivered. -/
  delivered : Nat
  /-- Whether a delivery has left the connection to the database unusable. -/
  broken : Bool

namespace Outcome

variable {α : Type}

/-- An operation that changes nothing. -/
def read (s : Store) (result : Except Failure α) : Outcome α :=
  { result, store := s, delivered := 0, broken := false }

/-- An operation that fails. -/
def failed (s : Store) (f : Failure) : Outcome α := read s (.error f)

/-- The outcome of an operation that looks at the database once more in the end: over an unusable
connection it fails after all, although what it has committed is stored. -/
def lookingBack (o : Outcome α) : Outcome α :=
  if o.broken then { o with result := .error .connectionUnusable } else o

end Outcome

/-- Commits what an operation has prepared and delivers its announcements. `commitFailure` says what
an error of the commit is reported as. -/
def complete {α : Type} (c : Conditions) (s : Store) (commitFailure : DatabaseError → Failure)
    (work : Except Failure (Work α)) : Outcome α :=
  match work with
  | .error f => .failed s f
  | .ok w =>
      match c.commitError 0 with
      | some error => .failed s (commitFailure error)
      | none =>
          match w.flaw with
          | some f => .failed s f
          | none =>
              let d := (Delivery.start w.store 1).deliverAll c w.events
              { result := .ok w.value, store := d.store, delivered := d.delivered
                broken := d.broken }

/-- Shows what an operation would commit without committing it. -/
def rehearse {α : Type} (s : Store) (work : Except Failure (Work α)) : Outcome α :=
  .read s (work.map Work.value)

/-- A failure of an operation on a locked draft. An error of the database is reported as such,
whatever it is. -/
def Failure.whileLocked : Failure → Failure
  | .database _ => .databaseFailed
  | f => f

/-- Carries out an operation on the draft of a module, which it locks. -/
def onLockedDraft {α : Type} (c : Conditions) (s : Store) (module : String)
    (prepare : Draft → Except Failure (Work α)) : Outcome α :=
  match c.lockError with
  | some error => .failed s (lockFailure module error)
  | none =>
      complete c s (fun _ => .databaseFailed) do
        let d ← s.draft module
        (prepare d).mapError Failure.whileLocked

/-! ### Lemmas -/

theorem store_complete_of_error {α : Type} {c : Conditions} {s : Store}
    {commitFailure : DatabaseError → Failure} {work : Except Failure (Work α)} {f : Failure}
    (h : (complete c s commitFailure work).result = .error f) :
    (complete c s commitFailure work).store = s := by
  unfold complete at h ⊢
  cases work with
  | error g => rfl
  | ok w =>
      dsimp only at h ⊢
      cases hc : c.commitError 0 with
      | some error => rfl
      | none =>
          rw [hc] at h
          dsimp only at h ⊢
          cases hf : w.flaw with
          | some g => rfl
          | none => simp [hf] at h

theorem store_lookingBack {α : Type} (o : Outcome α) : o.lookingBack.store = o.store := by
  unfold Outcome.lookingBack
  split <;> rfl

theorem lookingBack_of_not_broken {α : Type} {o : Outcome α} (h : o.broken = false) :
    o.lookingBack = o := by
  simp [Outcome.lookingBack, h]

end Editorial
