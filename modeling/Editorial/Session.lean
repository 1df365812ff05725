import Editorial.Conditions
import Editorial.Json.Size
import Editorial.Operation

/-!
# Sessions

Operations carried out one after the other on one store. Between operations the clock stands still,
and the switches stay as they are set; an error of the database is laid in wait for the next
operation only.
-/

namespace Editorial

/-- Where an error of the database is laid in wait: at the locking read, at a health check, or at a
commit. -/
inductive FaultPoint where
  | lock
  | ping
  | commit
  | nowhere
  deriving DecidableEq, Repr

/-- An error of the database that is laid in wait. -/
structure Fault where
  point : FaultPoint
  /-- How often the point is passed without error first. -/
  skip : Nat
  error : DatabaseError
  deriving DecidableEq, Repr

/-- A store and what the next operation will find around it. -/
structure Session where
  store : Store
  now : Instant
  autofill : Bool
  copyFails : Bool
  mergeFails : Bool
  /-- The kinds of events that the event sink refuses. -/
  refused : List Json
  fault : Option Fault

namespace Session

/-- Nothing stored, nothing failing, at the first moment of 2020. -/
def start : Session :=
  { store := .empty, now := ⟨0⟩, autofill := true, copyFails := false, mergeFails := false
    refused := [], fault := none }

/-- The error that waits at a point that has been passed `count` times. -/
def errorAt (s : Session) (point : FaultPoint) (count : Nat) : Option DatabaseError :=
  match s.fault with
  | some f => if f.point = point ∧ f.skip = count then some f.error else none
  | none => none

/-- What the next operation finds around it. -/
def conditions (s : Session) : Conditions :=
  { now := s.now
    autofill := s.autofill
    copyFails := s.copyFails
    mergeFails := s.mergeFails
    refuses := fun kind => s.refused.any kind.same
    lockError := s.errorAt .lock 0
    pingError := s.errorAt .ping 0
    commitError := s.errorAt .commit }

/-- The session after an operation that has left a store. -/
def next (s : Session) (store : Store) : Session :=
  { s with store := store, fault := none }

/-- The events that are stored in a later session and not yet in an earlier one. -/
def newEvents (before after : Session) : List Event :=
  after.store.events.drop before.store.events.length

end Session

end Editorial
