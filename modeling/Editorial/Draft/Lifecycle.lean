import Editorial.Draft.Placement
import Editorial.Draft.Seating

/-!
# The life of a draft

A draft is begun at the start step of the newest version of a process, on a copy of the module's
document. It moves along links only: the acting user must hold the slot of a link from the current
step to the step asked for. A step without links concludes the process: the draft's document becomes
the module's and the draft is gone. A draft can also be cancelled, which leaves the module as it
was. Every run is recorded; the record outlives the draft.
-/

namespace Editorial

open Json Number

/-- How an advance ended: with the draft at another step, or with the end of the process. -/
inductive Advance where
  | moved (d : Draft)
  | finished

namespace Advance

/-- The code that tells a client how an advance ended. -/
def code : Advance → String
  | moved _ => "draft:process:advanced"
  | finished => "draft:process:finished"

end Advance

namespace Draft

/-- The users who hold a slot of a draft, in ascending order. -/
def holders (d : Draft) : List Int :=
  Ordered.ascending (d.seats.map Seat.user)

end Draft

namespace Store

/-- The store with a draft of a module, together with its copy of the module's document and the
record of its run. -/
def openDraft (s : Store) (now : Instant) (m : Module) (v : Version) : Store × Draft :=
  let document := nextId (s.documents.map Document.id)
  let draft : Draft :=
    { module := m.id, team := m.team, version := v.id, step := v.start, document, created := now
      seats := [] }
  let run : Run :=
    { id := nextId (s.runs.map Run.id), module := m.id, version := v.id, outcome := .active
      started := now, ended := none }
  ({ s with
      documents := s.documents ++ [⟨document, m.document, now⟩]
      drafts := s.drafts ++ [draft]
      runs := s.runs ++ [run] }, draft)

/-- The store with the newest active run of a module, if there is one, closed. -/
def closeOpenRun (s : Store) (module : String) (outcome : RunOutcome) (now : Instant) : Store :=
  match s.openRun? module with
  | some r => s.closeRun r.id outcome now
  | none => s

/-- Seats a user as a placement says, and tells in which slot. A user whom the database cannot hold
is found out at the next look into the store, which is when the next slot is looked up; the slot at
hand, which the placement before was about, is not looked up again. -/
def place (s : Store) (atHand : Option Int) (c : Change) (p : Placement) :
    Except Failure (Int × Change) := do
  let slot ← p.slot.whole.mapError Failure.notWhole
  if c.draft.isOversized && atHand != some slot then throw .oversized
  let slot ← s.slotIn c.draft.version slot
  let user ← p.user.whole.mapError Failure.notWhole
  return (slot.id, ← s.seatUser c slot user)

/-- Seats users as placements say, one after the other, with a slot at hand. -/
def placeAll (s : Store) (atHand : Option Int) (c : Change) :
    List Placement → Except Failure Change
  | [] => if c.draft.isOversized then .error .oversized else .ok c
  | p :: rest => do
      let (slot, c) ← s.place atHand c p
      placeAll s (some slot) c rest

/-- The link that a user follows who goes to a target through a slot. -/
def linkFor (s : Store) (d : Draft) (user slot target : Int) : Except Failure Link := do
  if d.occupant? slot ≠ some user then throw (.badUser user slot)
  requireStorable target
  match (s.stepOf? d).bind fun step => step.link? target slot with
  | some l => return l
  | none => throw (.badLink d.step target slot)

/-- Whether a step of the version of a draft ends the process. -/
def isFinalFor (s : Store) (d : Draft) (step : Int) : Bool :=
  match s.stepIn? d.version step with
  | some step => step.isFinal
  | none => false

/-- Concludes a draft: its document becomes the module's, the run is finished and the draft gone. -/
def conclude (s : Store) (d : Draft) (now : Instant) : Store :=
  ((s.publish d.module d.document).closeOpenRun d.module .finished now).removeDraft d.module

/-- What a holder of slots of a draft is told when it has advanced. -/
def advancedEvent (s : Store) (d : Draft) (user : Int) : List Announcement :=
  announce .draftAdvanced
    [("module", text d.module), ("document", int d.document), ("step", int d.step),
      ("permissions", ofTexts ((s.permissionsFor d user).map Permission.text))]
    [user]

end Store

namespace Drafting

/-- The failure of the commit that stores a new draft: a violated constraint means that the module
has got a draft meanwhile. -/
def beginCommitFailure (module : String) : DatabaseError → Failure
  | .integrity => .draftExists module
  | error => .database error

/-- Begins a draft of a module on the newest version of a process. When all is done, the process is
looked up once more. -/
def begin (c : Conditions) (s : Store) (module : String) (process : Int)
    (placements : List Placement) : Outcome Draft :=
  Outcome.lookingBack <| complete c s (beginCommitFailure module) do
    let m ← s.module module
    let p ← s.process process
    if p.team ≠ m.team then throw (.notFound .process (integerText process))
    if (s.draft? module).isSome then throw (.draftExists module)
    let v ← s.latest p.id
    if c.copyFails then throw (.copyFailed module)
    c.requireStamp
    let (s, d) := s.openDraft c.now m v
    let placements ← Placement.inOrder placements
    let change ← s.placeAll none (.start d) placements
    let (change, _) ← s.autofill c.autofill change (s.activeSlots d)
    return change.work s change.draft

/-- Moves a draft along a link to a step that does not end the process. -/
def move (c : Conditions) (s : Store) (d : Draft) (target : Int) :
    Except Failure (Work Advance) := do
  let d := { d with step := target }
  let s := s.putDraft d
  let (change, _) ← s.autofill c.autofill (.start d) (s.activeSlots d)
  let d := change.draft
  let events := d.holders.flatMap (s.advancedEvent d)
  return { change with events := change.events ++ events }.work s (.moved d)

/-- Ends the process of a draft. -/
def finish (c : Conditions) (s : Store) (d : Draft) : Except Failure (Work Advance) := do
  if c.mergeFails || (s.module? d.module).isNone then throw (.mergeFailed d.module)
  return {
    value := .finished
    store := s.conclude d c.now
    events := announce .processEnded
      [("module", text d.module), ("version", int d.document)] d.holders
    flaw := none }

/-- Moves the draft of a module along a link to the target, on behalf of the user in a slot. -/
def advance (c : Conditions) (s : Store) (module : String) (user slot target : Int) :
    Outcome Advance :=
  onLockedDraft c s module fun d => do
    let link ← s.linkFor d user slot target
    c.requireStamp
    if s.isFinalFor d link.target then finish c s d else move c s d link.target

/-- Discards the draft of a module. -/
def cancel (c : Conditions) (s : Store) (module : String) : Outcome Unit :=
  onLockedDraft c s module fun d => do
    if (s.openRun? module).isSome then c.requireDate
    return {
      value := ()
      store := (s.closeOpenRun module .cancelled c.now).removeDraft module
      events := announce .processCancelled [("module", text module)] d.holders
      flaw := none }

/-- Closes a run by hand. -/
def closeRun (c : Conditions) (s : Store) (run : Int) (outcome : Json) : Outcome Run :=
  complete c s Failure.database do
    let r ← s.run run
    match outcome with
    | .array _ | .object _ => throw (.incomparable outcome)
    | .text (.whole t) =>
        match RunOutcome.closing? t with
        | some o =>
            c.requireDate
            return {
              value := { r with outcome := o, ended := some c.now }
              store := s.closeRun r.id o c.now
              events := []
              flaw := none }
        | none => throw (.invalidOutcome outcome)
    | _ => throw (.invalidOutcome outcome)

/-- Makes a document the current revision of a module. -/
def merge (c : Conditions) (s : Store) (module : String) (document : Int) : Outcome Unit :=
  complete c s Failure.database do
    if c.mergeFails then throw .mergeRefused
    if (s.module? module).isNone then throw (.moduleGone module)
    c.requireDate
    return {
      value := ()
      store := s.publish module document
      events := []
      flaw := oversizedIf (!isStorable document) }

end Drafting

end Editorial
