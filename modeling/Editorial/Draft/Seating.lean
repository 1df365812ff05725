import Editorial.Draft.Access
import Editorial.Operation

/-!
# Seating users

Users come into the slots of a draft by being assigned, by claiming a free slot, or by autofill,
which seats the least busy member of the team who may take the slot. All three go through
`Store.seatUser`: it checks the role limit, replaces whoever was there, and notes who left and who
came. A `Change` is a draft being worked on together with what there is to announce so far.
-/

namespace Editorial

open Json Number

/-- A draft that an operation works on, with what there is to announce so far. -/
structure Change where
  draft : Draft
  events : List Announcement

namespace Draft

/-- Whether someone seated in a draft has an id that the database cannot hold. -/
def isOversized (d : Draft) : Bool :=
  d.seats.any fun seat => !isStorable seat.user

/-- What an event about a slot of a draft says. -/
def slotPayload (d : Draft) (slot : Int) : Fields :=
  [("slot", int slot), ("module", text d.module), ("document", int d.document)]

/-- The announcement that a user has come into a slot of a draft. -/
def filled (d : Draft) (slot user : Int) : List Announcement :=
  announce .slotFilled (d.slotPayload slot) [user]

/-- The announcement that a user has left a slot of a draft. -/
def vacated (d : Draft) (slot user : Int) : List Announcement :=
  announce .slotVacated (d.slotPayload slot) [user]

/-- What there is to announce when a user comes into a slot: nothing if the user is there already,
otherwise that the former occupant has left and the user has come. -/
def seatEvents (d : Draft) (slot user : Int) : List Announcement :=
  match d.occupant? slot with
  | none => d.filled slot user
  | some former =>
      if former = user then [] else d.vacated slot former ++ d.filled slot user

/-- What there is to announce when a slot is vacated. -/
def vacateEvents (d : Draft) (slot : Int) : List Announcement :=
  match d.occupant? slot with
  | none => []
  | some former => d.vacated slot former

end Draft

namespace Change

/-- A draft that nothing has happened to yet. -/
def start (d : Draft) : Change := { draft := d, events := [] }

/-- A user comes into a slot, in place of whoever was there. -/
def seat (c : Change) (slot user : Int) : Change :=
  { draft := c.draft.seat slot user, events := c.events ++ c.draft.seatEvents slot user }

/-- Whoever is in a slot leaves it. -/
def vacate (c : Change) (slot : Int) : Change :=
  { draft := c.draft.vacate slot, events := c.events ++ c.draft.vacateEvents slot }

/-- What to commit for a changed draft. -/
def work {α : Type} (c : Change) (s : Store) (value : α) : Work α :=
  { value, store := s.putDraft c.draft, events := c.events
    flaw := oversizedIf c.draft.isOversized }

end Change

/-! ### Within an operation -/

namespace Store

/-- Seats a user in a slot. -/
def seatUser (s : Store) (c : Change) (slot : Slot) (user : Int) : Except Failure Change := do
  if (s.slotIn? c.draft.version slot.id).isNone then
    throw (.notFound .slot (integerText slot.id))
  s.requireRole slot c.draft.team user
  return c.seat slot.id user

/-- The user whom autofill seats in a slot of a draft, if the slot is to be filled. -/
def autofillUser? (s : Store) (d : Draft) (slot : Slot) : Option Int :=
  if slot.autofill && (d.occupant? slot.id).isNone then
    (s.putDraft d).candidate? slot d.team
  else none

/-- Fills slots of a draft in turn, each with regard to the seats taken before it, and tells who was
seated where. A slot that nobody may take stays empty. -/
def autofillSlots (s : Store) (c : Change) : List Slot → Except Failure (Change × List Seat)
  | [] => .ok (c, [])
  | slot :: rest =>
      match s.autofillUser? c.draft slot with
      | none => autofillSlots s c rest
      | some user => do
          let c ← s.seatUser c slot user
          let (c, seats) ← autofillSlots s c rest
          return (c, ⟨slot.id, user⟩ :: seats)

/-- Fills slots of a draft unless that is switched off. -/
def autofill (s : Store) (enabled : Bool) (c : Change) (slots : List Slot) :
    Except Failure (Change × List Seat) :=
  if enabled then s.autofillSlots c slots else .ok (c, [])

end Store

/-! ### Operations -/

namespace Drafting

/-- Seats a user in a slot of the draft of a module, in place of whoever was there. -/
def assign (c : Conditions) (s : Store) (module : String) (slot user : Int) : Outcome Draft :=
  onLockedDraft c s module fun d => do
    let slot ← s.slotIn d.version slot
    let change ← s.seatUser (.start d) slot user
    return change.work s change.draft

/-- Seats a member of the team in a slot of the draft of a module unless someone else is there. -/
def claim (c : Conditions) (s : Store) (module : String) (slot user : Int) : Outcome Draft :=
  onLockedDraft c s module fun d => do
    let slot ← s.slotIn d.version slot
    unless (s.membersOf d.team).contains user do throw (.notAMember user)
    if (d.occupant? slot.id).any (· ≠ user) then throw (.slotTaken slot.id slot.name)
    let change ← s.seatUser (.start d) slot user
    return change.work s change.draft

/-- Vacates a slot of the draft of a module and tells who was there. -/
def unassign (c : Conditions) (s : Store) (module : String) (slot : Int) : Outcome (Option Int) :=
  onLockedDraft c s module fun d => do
    let slot ← s.slotIn d.version slot
    return ((Change.start d).vacate slot.id).work s (d.occupant? slot.id)

/-- The free slots that a user could take in the drafts of the user's teams, drafts by age. -/
def freeSlots (s : Store) (user : Int) : Except Failure (List (Draft × Slot)) := do
  requireStorable user
  return (s.draftsOfTeams user).flatMap fun d => (s.freeSlots d user).map fun slot => (d, slot)

end Drafting

/-! ### Lemmas -/

theorem Change.seat_of_occupant {c : Change} {slot user : Int}
    (h : c.draft.occupant? slot = some user) : (c.seat slot user).events = c.events := by
  simp [Change.seat, Draft.seatEvents, h]

end Editorial
