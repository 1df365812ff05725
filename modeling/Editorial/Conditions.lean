import Editorial.Failure

/-!
# Conditions of an operation

What an operation finds around it: the time, the switch for filling slots automatically, and
everything that may go wrong outside of it. The document store may fail to copy or to merge, the
event sink may refuse kinds of events, and the database may fail at the locking read, at a health
check and at every commit; commits are numbered from zero, the operation's own commit first.
-/

namespace Editorial

/-- What an operation finds around it. -/
structure Conditions where
  now : Instant
  autofill : Bool
  copyFails : Bool
  mergeFails : Bool
  refuses : Json → Bool
  lockError : Option DatabaseError
  pingError : Option DatabaseError
  commitError : Nat → Option DatabaseError

/-- Conditions under which nothing fails. -/
def Conditions.smooth (now : Instant) (autofill : Bool) : Conditions :=
  { now, autofill, copyFails := false, mergeFails := false, refuses := fun _ => false
    lockError := none, pingError := none, commitError := fun _ => none }

/-! ### The date -/

/-- Fails when the moment of an operation that asks for its date has none. -/
def Conditions.requireDate (c : Conditions) : Except Failure Unit :=
  c.now.requireDate.mapError Failure.noDate

/-- Fails when there is no date to note with what is stored: the statement that stores it cannot be
prepared. -/
def Conditions.requireStamp (c : Conditions) : Except Failure Unit :=
  c.now.requireDate.mapError fun _ => .database .unprepared

/-! ### Locks -/

/-- What the text of an error says when a lock could not be had in time. -/
def lockMarkers : List String :=
  ["lock timeout", "lock_not_available", "lock wait timeout", "database is locked"]

/-- The code of the error that a lock is not available. -/
def lockNotAvailable : String := "55P03"

/-- A letter without its case. The Kelvin sign is a capital of the plain letter. -/
def foldCase (c : Char) : Char :=
  if c = Char.ofNat 0x212A then 'k' else c.toLower

/-- Whether one list occurs in another one. -/
def occursIn {α : Type} [BEq α] (part : List α) : List α → Bool
  | [] => part.isEmpty
  | c :: cs => part.isPrefixOf (c :: cs) || occursIn part cs

/-- Whether an error says that a lock could not be had in time. -/
def isLockTimeout (text : String) (code : Option String) : Bool :=
  code == some lockNotAvailable ||
    lockMarkers.any fun marker => occursIn marker.toList (text.toList.map foldCase)

/-- The failure of an operation on the draft of a module whose locking read failed. -/
def lockFailure (module : String) : DatabaseError → Failure
  | .operational text code =>
      if isLockTimeout text code then .draftLocked module else .databaseUnavailable
  | error => .database error

end Editorial
