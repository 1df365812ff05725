import Editorial.Api.Request
import Editorial.Draft.Access
import Editorial.Process.Definitions

/-!
# Requests about process definitions

The members of a team may read its processes; changing them needs the permission to edit processes
in the team.
-/

namespace Editorial.Api

open Json Text

/-- A process of one of the user's teams. -/
def visibleProcess (s : Store) (id user : Int) : Except Failure Process := do
  let p ← s.process id
  requireStorable user
  unless (s.teamsOf user).contains p.team do throw .foreignProcess
  return p

/-- A process that the user may change. -/
def editableProcess (s : Store) (id user : Int) : Except Failure Process := do
  let p ← s.process id
  s.requireTeamPermission (some user) p.team editPermission
  return p

/-- A version of a process of one of the user's teams. -/
def visibleVersion (s : Store) (process version user : Int) : Except Failure Version := do
  let p ← visibleProcess s process user
  s.version p.id version

/-- The processes of the user's teams. -/
def listProcesses (s : Store) (user : Int) : Reply :=
  .read s do
    requireStorable user
    let ps ← Definitions.processesOf s (s.teamsOf user)
    return .json 200 (array (ps.map fun p => object p.fields))

/-- The team for which a request asks to create a process, and the description: the other fields of
the body. -/
def createFields (body : Body) : Except Response (Int × Json) := do
  let fields ← body.fields
  match ← wholeField fields "team" with
  | none => refuse .required "team is required"
  | some team => return (team, object (fields.filter fun f => f.1 != "team"))

/-- Creates a process. -/
def createProcess (c : Conditions) (s : Store) (user : Int) (body : Body) : Reply :=
  let checks : Except Response (Int × Json) := do
    let (team, raw) ← createFields body
    s.requireTeamPermission (some user) team editPermission
    return (team, raw)
  .after s checks fun (team, raw) =>
    .ofOutcome (Definitions.createProcess c s team raw) fun s v => do
      let p ← s.process v.process
      return .json 201 (object (extend p.fields [("version", v.toJson s)]))

/-- A process with its versions. -/
def showProcess (s : Store) (user process : Int) : Reply :=
  .read s do
    let p ← visibleProcess s process user
    let versions := (s.versionsOf p.id).map (Version.toJson s)
    return .json 200 (object (extend p.fields [("versions", array versions)]))

/-- The answer to a request to rename a process whose body has no fields: `mentioned` says whether
the body mentions a name nevertheless. -/
def withoutName (mentioned : Bool) : Except Response Json :=
  if mentioned then throw .internal else refuse .required "name is required"

/-- The new name that a request to rename a process gives. A body that is a list or a text is only
asked whether the word occurs in it. -/
def renameField (body : Body) : Except Response Json := do
  match ← body.value? with
  | some (.text t) => withoutName (occursIn (Wording.whole "name").pieces t.pieces)
  | some (.array items) => withoutName (items.contains (.text "name"))
  | _ =>
      let fields ← body.fields
      match find? fields "name" with
      | some name => return name
      | none => refuse .required "name is required"

/-- Renames a process. -/
def renameProcess (c : Conditions) (s : Store) (user process : Int) (body : Body) : Reply :=
  let checks : Except Response (Process × Json) := do
    let p ← editableProcess s process user
    let name ← renameField body
    return (p, name)
  .after s checks fun (p, name) =>
    .ofOutcome (Definitions.rename c s p name) fun _ p => .ok (.json 200 (object p.fields))

/-- Deletes a process. -/
def deleteProcess (c : Conditions) (s : Store) (user process : Int) : Reply :=
  let checks : Except Response Process := do
    editableProcess s process user
  .after s checks fun p => .done (Definitions.deleteProcess c s p)

/-- The newest version of a process as a tree. -/
def showTree (s : Store) (user process : Int) : Reply :=
  .read s do
    let p ← visibleProcess s process user
    let v ← s.latest p.id
    return .json 200 (s.tree v)

/-- The versions of a process. -/
def listVersions (s : Store) (user process : Int) : Reply :=
  .read s do
    let p ← visibleProcess s process user
    return .json 200 (array ((s.versionsOf p.id).map (Version.toJson s)))

/-- Creates a version of a process. -/
def createVersion (c : Conditions) (s : Store) (user process : Int) (body : Body) : Reply :=
  let checks : Except Response (Process × Json) := do
    let p ← editableProcess s process user
    let raw ← body.value?
    return (p, raw.getD null)
  .after s checks fun (p, raw) =>
    .ofOutcome (Definitions.createVersion c s p raw) fun s v => .ok (.json 201 (v.toJson s))

/-- A version of a process. -/
def showVersion (s : Store) (user process version : Int) : Reply :=
  .read s do
    let v ← visibleVersion s process version user
    return .json 200 (v.toJson s)

/-- Deletes a version of a process. -/
def deleteVersion (c : Conditions) (s : Store) (user process version : Int) : Reply :=
  let checks : Except Response Version := do
    let p ← editableProcess s process user
    s.version p.id version
  .after s checks fun v => .done (Definitions.deleteVersion c s v)

/-- A version of a process as a tree. -/
def showVersionTree (s : Store) (user process version : Int) : Reply :=
  .read s do
    let v ← visibleVersion s process version user
    return .json 200 (s.tree v)

/-- A step of a version of a process. -/
def showStep (s : Store) (user process version step : Int) : Reply :=
  .read s do
    let v ← visibleVersion s process version user
    let step ← s.step v step
    return .json 200 (object (extend (step.fields v) [("final", bool step.isFinal)]))

end Editorial.Api
