import Editorial.Api.Request
import Editorial.Draft.Lifecycle
import Editorial.Draft.View

/-!
# Requests about drafts

Beginning and cancelling a draft, and vacating somebody else's slot, need the permission to manage
the drafts of the team; who takes part in a draft may read it, advance it and leave it. Taking a
free slot is open to every member of the team whom its role limit admits.
-/

namespace Editorial.Api

open Json

/-- A draft that a user may read. -/
def readableDraft (s : Store) (module : String) (user : Int) : Except Failure Draft := do
  let d ← s.draft module
  let manager ← s.teamPermission (some user) d.team managePermission
  unless s.canAccess d user manager do throw .noAccess
  return d

/-- The drafts that the user may read. -/
def listDrafts (s : Store) (user : Int) : Reply :=
  .read s do
    let drafts ← s.draftsFor user
    let shown ← drafts.mapM fun d => s.projection d user
    return .json 200 (array shown)

/-- A draft as the user sees it. -/
def showDraft (s : Store) (user : Int) (module : String) : Reply :=
  .read s do
    let d ← readableDraft s module user
    return .json 200 (← s.projection d user)

/-- All slots of a draft. -/
def showDraftProcess (s : Store) (user : Int) (module : String) : Reply :=
  .read s do
    let d ← readableDraft s module user
    return .json 200 <| object [
      ("process", ofOption (fun v => ofInts [v.process, d.version]) (s.version? d.version)),
      ("step", int d.step),
      ("slots", array (s.processStatus d))]

/-- Cancels a draft. -/
def cancelDraft (c : Conditions) (s : Store) (user : Int) (module : String) : Reply :=
  let checks : Except Response Unit := do
    let d ← s.draft module
    s.requireTeamPermission (some user) d.team managePermission
  .after s checks fun _ => .done (Drafting.cancel c s module)

/-- The step and the slot that a request to advance names. -/
def advanceFields (body : Body) : Except Response (Int × Int) := do
  let fields ← body.fields
  let target ← wholeField fields "target"
  let slot ← wholeField fields "slot"
  match target, slot with
  | some target, some slot => return (target, slot)
  | _, _ => refuse .required "target and slot are required"

/-- What is shown of an advance to the user. -/
def advanceView (user : Int) (s : Store) (a : Advance) : Except Failure Response := do
  match a with
  | .finished => return .json 200 (object [("code", text a.code)])
  | .moved d =>
      return .json 200 (object [("code", text a.code), ("draft", ← s.projection d user)])

/-- Advances a draft. -/
def advanceDraft (c : Conditions) (s : Store) (user : Int) (module : String) (body : Body) :
    Reply :=
  .after s (advanceFields body) fun (target, slot) =>
    .ofOutcome (Drafting.advance c s module user slot target) (advanceView user)

/-- Vacates a slot of a draft; the user may leave a slot without being a manager. -/
def vacateSlot (c : Conditions) (s : Store) (user : Int) (module : String) (slot : Int) : Reply :=
  let checks : Except Response Unit := do
    let d ← s.draft module
    unless d.occupant? slot = some user do
      s.requireTeamPermission (some user) d.team managePermission
  .after s checks fun _ => .done (Drafting.unassign c s module slot)

/-- The process and the initial assignments that a request to begin a draft names. -/
def beginFields (body : Body) : Except Response (Int × List Seat) := do
  let fields ← body.fields
  match ← wholeField fields "process" with
  | none => refuse .required "process is required"
  | some process =>
      match ← assignments (field fields "slots") with
      | none => refuse .invalid "slots must map slot ids to user ids"
      | some seats => return (process, seats)

/-- Begins a draft of a module. -/
def beginDraft (c : Conditions) (s : Store) (user : Int) (module : String) (body : Body) :
    Reply :=
  let checks : Except Response (Int × List Seat) := do
    let m ← s.module module
    s.requireTeamPermission (some user) m.team managePermission
    beginFields body
  .after s checks fun (process, seats) =>
    .ofOutcome (Drafting.begin c s module process (seats.map Placement.ofSeat)) fun s d => do
      return .json 201 (← s.projection d user)

/-- The draft, the slot and the user that a request to take a slot names; without a user the acting
one takes it. -/
def takeFields (user : Int) (body : Body) : Except Response (String × Int × Int) := do
  let fields ← body.fields
  let slot ← wholeField fields "slot"
  let module := field fields "draft"
  match slot, module.isGiven with
  | some slot, true =>
      let assignee ←
        if (field fields "user").isNull then pure (some user) else wholeField fields "user"
      match assignee with
      | some assignee =>
          match module with
          | .text (.torn _) => throw (.ofFailure .unstorable)
          | _ => return (module.plain, slot, assignee)
      | none => refuse .invalid "user must be a user id"
  | _, _ => refuse .required "draft and slot are required"

/-- Seats a user in a slot. Managers may seat anyone and replace whoever was there; everybody else
can take a free slot. -/
def takeSlot (c : Conditions) (s : Store) (user : Int) (body : Body) : Reply :=
  let checks : Except Response (Draft × Int × Int × Bool) := do
    let (module, slot, assignee) ← takeFields user body
    let d ← s.draft module
    let manager ← s.teamPermission (some user) d.team managePermission
    if assignee ≠ user ∧ manager = false then
      s.requireTeamPermission (some user) d.team managePermission
    return (d, slot, assignee, manager)
  .after s checks fun (d, slot, assignee, manager) =>
    if manager then .done (Drafting.assign c s d.module slot assignee)
    else .done (Drafting.claim c s d.module slot user)

/-- The slots that the user could take, each with its draft. -/
def listFreeSlots (s : Store) (user : Int) : Reply :=
  .read s do
    let free ← Drafting.freeSlots s user
    let shown ← free.mapM fun (d, slot) => do
      return object (extend slot.fields [("draft", ← s.projection d user)])
    return .json 200 (array shown)

end Editorial.Api
