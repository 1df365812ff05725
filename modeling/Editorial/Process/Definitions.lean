import Editorial.Operation
import Editorial.Process.Validation
import Editorial.Process.Version

/-!
# Process definitions

Creating, renaming and deleting processes and their versions. A version is never changed: a new
description makes a new version. Names of processes are distinct. What a run has used cannot be
deleted any more.
-/

namespace Editorial

open Text

namespace Definitions

/-- Fails when a process other than the given one has the name. -/
def requireFreeName (s : Store) (name : String) (except : Option Int) : Except Failure Unit :=
  match s.processNamed? name with
  | none => .ok ()
  | some p => if some p.id = except then .ok () else .error (.processExists name (some p.id))

/-- The failure of a commit that sets the name of a process: a violated constraint means that the
name has been taken meanwhile. -/
def nameCommitFailure (name : String) : DatabaseError → Failure
  | .integrity => .processExists name none
  | error => .database error

/-- The store with a new version of a process, and that version. -/
def addVersion (s : Store) (now : Instant) (process : Int) (d : Description) : Store × Version :=
  let v := Version.ofDescription (nextId (s.versions.map Version.id)) process now s.firstIds d
  ({ s with versions := s.versions ++ [v] }, v)

/-- The store with another name of a process. -/
def setName (s : Store) (process : Int) (name : String) : Store :=
  { s with processes := s.processes.map fun p =>
      if p.id = process then { p with name := name } else p }

/-- The name as it is stored; one with half characters cannot be. -/
def requireWhole : Wording → Except Failure String
  | .whole name => .ok name
  | .torn _ => .error .unstorable

/-- Fails for a description of which some slot, step or link has a name that cannot be stored. -/
def requireParts (d : Description) : Except Failure Unit :=
  if d.hasTornPart then .error .unstorable else .ok ()

/-- What an operation without announcements wants to commit. -/
def work {α : Type} (value : α) (store : Store) : Work α :=
  { value, store, events := [], flaw := none }

/-- Creates a process of a team together with its first version. -/
def createProcess (c : Conditions) (s : Store) (team : Int) (raw : Json) : Outcome Version :=
  match Description.validate raw with
  | .error f => .failed s f
  | .ok d =>
      complete c s (nameCommitFailure d.name.shown) do
        let name ← requireWhole d.name
        requireFreeName s name none
        c.requireStamp
        requireStorable team
        requireParts d
        let process : Process := ⟨nextId (s.processes.map Process.id), team, name⟩
        let (s, v) := addVersion { s with processes := s.processes ++ [process] } c.now process.id d
        return work v s

/-- Creates a version of a process; a description with another name renames the process. -/
def createVersion (c : Conditions) (s : Store) (p : Process) (raw : Json) : Outcome Version :=
  match Description.validate raw with
  | .error f => .failed s f
  | .ok d =>
      complete c s (nameCommitFailure d.name.shown) do
        let name ← requireWhole d.name
        if name ≠ p.name then requireFreeName s name (some p.id)
        c.requireStamp
        requireParts d
        let (s, v) := addVersion (setName s p.id name) c.now p.id d
        return work v s

/-- Renames a process. Nothing is committed when it has the name already. -/
def rename (c : Conditions) (s : Store) (p : Process) (name : Json) : Outcome Process :=
  match readName .top .process name with
  | .error f => .failed s f
  | .ok stripped =>
      if stripped = .whole p.name then .read s (.ok p)
      else
        complete c s (nameCommitFailure stripped.shown) do
          let name ← requireWhole stripped
          requireFreeName s name (some p.id)
          return work { p with name } (setName s p.id name)

/-- Deletes a version together with its slots and steps. -/
def deleteVersion (c : Conditions) (s : Store) (v : Version) : Outcome Unit :=
  complete c s Failure.database do
    if s.runs.any fun r => r.version == v.id then throw (.inUse .version v.id)
    return work () { s with versions := s.versions.filter fun e => e.id != v.id }

/-- Deletes a process together with all its versions. -/
def deleteProcess (c : Conditions) (s : Store) (p : Process) : Outcome Unit :=
  complete c s Failure.database do
    let versions := (s.versionsOf p.id).map Version.id
    if s.runs.any fun r => versions.contains r.version then throw (.inUse .process p.id)
    return work ()
      { s with
        versions := s.versions.filter fun v => v.process != p.id
        processes := s.processes.filter fun e => e.id != p.id }

/-- The processes of some teams, oldest first. -/
def processesOf (s : Store) (teams : List Int) : Except Failure (List Process) := do
  teams.forM requireStorable
  return s.processes.filter fun p => teams.contains p.team

/-- A version of a process: the one with that id, or the newest one. -/
def versionOrLatest (s : Store) (p : Process) : Option Int → Except Failure Version
  | some id => s.version p.id id
  | none => s.latest p.id

/-- A version of the process with an id: the one with that id, or the newest one. -/
def versionOf (s : Store) (process : Int) (version : Option Int) : Except Failure Version := do
  let p ← s.process process
  versionOrLatest s p version

/-- Carries out an operation on the process with an id. -/
def onProcess {α : Type} (s : Store) (id : Int) (next : Process → Outcome α) : Outcome α :=
  match s.process id with
  | .ok p => next p
  | .error f => .failed s f

/-- Carries out an operation on a version of the process with an id. -/
def onVersion {α : Type} (s : Store) (process : Int) (version : Option Int)
    (next : Version → Outcome α) : Outcome α :=
  match versionOf s process version with
  | .ok v => next v
  | .error f => .failed s f

end Definitions

end Editorial
