import Editorial.Draft.Seating

/-!
# Seats by hand

Single steps of seating, without a lock: each can be committed, which also delivers what there is
to announce, or only be tried. Slots are named by id, of whatever version, and the step itself finds
out whether the slot belongs to the draft.
-/

namespace Editorial

/-- Commits what has been prepared, or only shows what the result would be, together with the kinds
of what there is to announce. -/
def attempt {α : Type} (c : Conditions) (s : Store) (commit : Bool)
    (work : Except Failure (Work α)) : Outcome (α × List Json) :=
  let work := work.map fun w =>
    { w with value := (w.value, w.events.map Announcement.kind) }
  if commit then complete c s Failure.database work else rehearse s work

namespace Drafting

/-- Seats a user in a slot of the draft of a module and tells whether that changes anything. -/
def seat (c : Conditions) (s : Store) (commit : Bool) (module : String) (slot user : Int) :
    Outcome (Bool × List Json) :=
  attempt c s commit do
    let d ← s.draft module
    let slot ← s.slot slot
    let change ← s.seatUser (.start d) slot user
    return change.work s (d.occupant? slot.id != some user)

/-- Vacates a slot of the draft of a module and tells who was there. -/
def vacate (c : Conditions) (s : Store) (commit : Bool) (module : String) (slot : Int) :
    Outcome (Option Int × List Json) :=
  attempt c s commit do
    let d ← s.draft module
    let slot ← s.slot slot
    return ((Change.start d).vacate slot.id).work s (d.occupant? slot.id)

/-- Fills slots of the draft of a module and tells who was seated where. -/
def fill (c : Conditions) (s : Store) (commit : Bool) (module : String) (slots : List Int) :
    Outcome (List Seat × List Json) :=
  attempt c s commit do
    let d ← s.draft module
    let slots ← slots.mapM s.slot
    let (change, seats) ← s.autofill c.autofill (.start d) slots
    return change.work s seats

/-- The announcements up to the first one whose payload is no object, and the payload of that
one. -/
def upToShapeless : List Announcement → List Announcement × Option Json
  | [] => ([], none)
  | a :: rest =>
      match a.payload with
      | .object _ => (a :: (upToShapeless rest).1, (upToShapeless rest).2)
      | payload => ([a], some payload)

/-- Delivers announcements that no operation has made; those without recipients are dropped. The
result tells the kinds of the others. The protocol of a delivery names the module in the payload,
which only an object can have: behind another payload nothing more is delivered. -/
def announceAll (c : Conditions) (s : Store) (events : List Announcement) :
    Outcome (List Json) :=
  let pending := events.filter fun a => !a.recipients.isEmpty
  let (tried, shapeless) := upToShapeless pending
  let d := (Delivery.start s 0).deliverAll c tried
  { result := match shapeless with
      | some payload => .error (.notAnObject payload)
      | none => .ok (pending.map Announcement.kind)
    store := d.store, delivered := d.delivered, broken := d.broken }

/-- Stores one announcement. -/
def announceOne (c : Conditions) (s : Store) (a : Announcement) : Outcome Unit :=
  let (result, d) := (Delivery.start s 0).emit c a
  { result, store := d.store, delivered := 0, broken := d.broken }

end Drafting

end Editorial
