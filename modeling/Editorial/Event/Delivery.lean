import Editorial.Conditions
import Editorial.Json.Depth
import Editorial.Json.Size
import Editorial.Store.Basic

/-!
# Delivery of events

Announcements are delivered one by one after the operation that made them is committed, each with a
commit of its own. A delivery that fails stores nothing and does not keep later ones from being
tried. A recipient that the database cannot hold leaves the connection unusable, however: the next
delivery that comes to its commit fails too, and only thereby restores the connection.
-/

namespace Editorial

open Ordered

/-- An announcement of that kind to the given users. -/
def Announcement.ofUsers (kind : Json) (payload : Json) (users : List Int) :
    Announcement :=
  ⟨kind, payload, ascending users⟩

/-- What to tell the given users, nothing when there are none. -/
def announce (kind : EventKind) (payload : Json.Fields) (users : List Int) : List Announcement :=
  if users.isEmpty then [] else [.ofUsers (.text kind.text) (.object payload) users]

/-- The state of a delivery in progress. -/
structure Delivery where
  store : Store
  /-- The number of the next commit. -/
  commits : Nat
  /-- Whether the connection cannot be used before it is restored. -/
  broken : Bool
  /-- The number of announcements delivered. -/
  delivered : Nat

/-- The events that tell the given users the same thing, with ids from the first argument on. -/
def eventsFor (id : Int) (kind : EventKind) (payload : Json) (now : Instant) :
    List Int → List Event
  | [] => []
  | user :: rest => ⟨id, user, kind, payload, now⟩ :: eventsFor (id + 1) kind payload now rest

/-- The store with an announcement of a known kind delivered. -/
def Store.addEvents (s : Store) (kind : EventKind) (a : Announcement) (now : Instant) : Store :=
  { s with events :=
      s.events ++ eventsFor (nextId (s.events.map Event.id)) kind a.payload now a.recipients }

namespace Delivery

/-- A delivery that has not begun. -/
def start (s : Store) (commits : Nat) : Delivery :=
  { store := s, commits, broken := false, delivered := 0 }

/-- How deep arrays and objects may be nested in what is told. -/
def depthLimit : Nat := 966

/-- Fails for an announcement that no statement can be prepared for. -/
def requirePrepared (c : Conditions) (a : Announcement) : Except Failure Unit :=
  if depthLimit < a.payload.depth then .error (.database .unprepared) else c.requireStamp

/-- Commits an announcement of a known kind. -/
def commit (c : Conditions) (kind : EventKind) (a : Announcement) (d : Delivery) :
    Except Failure Unit × Delivery :=
  let next := { d with commits := d.commits + 1 }
  match c.commitError d.commits with
  | some error => (.error (.database error), { next with broken := false })
  | none =>
      if d.broken then (.error (.database .other), { next with broken := false })
      else
        match requirePrepared c a with
        | .error f => (.error f, next)
        | .ok _ =>
            if a.recipients.all isStorable then
              (.ok (), { next with store := d.store.addEvents kind a c.now })
            else (.error .oversized, { next with broken := true })

/-- Hands an announcement to the event sink, which may refuse its kind. -/
def emit (c : Conditions) (a : Announcement) (d : Delivery) : Except Failure Unit × Delivery :=
  if c.refuses a.kind then (.error .eventRefused, d)
  else if !a.kind.isKey then (.error (.incomparable a.kind), d)
  else
    match EventKind.ofJson? a.kind with
    | none => (.error (.unknownEventKind a.kind), d)
    | some kind => if a.recipients.isEmpty then (.ok (), d) else commit c kind a d

/-- Tries to deliver an announcement. -/
def deliver (c : Conditions) (d : Delivery) (a : Announcement) : Delivery :=
  match emit c a d with
  | (.ok (), d) => { d with delivered := d.delivered + 1 }
  | (.error _, d) => d

/-- Tries to deliver announcements in turn. -/
def deliverAll (c : Conditions) (d : Delivery) (pending : List Announcement) : Delivery :=
  pending.foldl (deliver c) d

/-! ### Lemmas -/

theorem deliverAll_nil (c : Conditions) (d : Delivery) : deliverAll c d [] = d := rfl

theorem deliverAll_cons (c : Conditions) (d : Delivery) (a : Announcement)
    (pending : List Announcement) :
    deliverAll c d (a :: pending) = deliverAll c (deliver c d a) pending := rfl

end Delivery

end Editorial
