import Editorial.Json.Literal
import Editorial.Store.Basic

/-!
# Rows as shown to clients

The JSON form of every kind of row, the line that names a row in a log, and the listing of a whole
store.
-/

namespace Editorial

open Json Ordered Number

/-- The texts of permissions. -/
def permissionTexts (ps : List Permission) : Json :=
  ofTexts (ps.map Permission.text)

namespace Process

/-- The fields of a process as shown. -/
def fields (p : Process) : Fields :=
  [("id", int p.id), ("team", int p.team), ("name", text p.name)]

/-- A process as shown. -/
def toJson (p : Process) : Json := object p.fields

/-- The line that names a process. -/
def line (p : Process) : String :=
  "<Process " ++ integerText p.id ++ ": " ++ p.name ++ ">"

end Process

namespace Slot

/-- A slot as shown. -/
def fields (s : Slot) : Fields :=
  [("id", int s.id), ("name", text s.name), ("roles", ofInts s.roles),
    ("autofill", bool s.autofill)]

/-- The line that names a slot. -/
def line (s : Slot) : String :=
  "<Slot " ++ integerText s.id ++ ": " ++ s.name ++ ">"

end Slot

namespace Link

/-- A link as shown. -/
def toJson (l : Link) : Json :=
  object [("name", text l.name), ("to", int l.target), ("slot", int l.slot)]

/-- The line that names a link out of a step. -/
def line (step : Int) (l : Link) : String :=
  "<Link " ++ integerText step ++ "->" ++ integerText l.target ++ " via slot " ++
    integerText l.slot ++ ": " ++ l.name ++ ">"

end Link

namespace Step

/-- The slots to which a step grants anything, in the order of its grants. -/
def grantedSlots (s : Step) : List Int :=
  (s.grants.map Grant.slot).eraseDups

/-- A step of a version as shown. -/
def fields (v : Version) (s : Step) : Fields :=
  [("id", int s.id),
    ("process", ofInts [v.process, v.id]),
    ("name", text s.name),
    ("slots", array <| s.grantedSlots.map fun slot =>
      object [("slot", int slot), ("permissions", permissionTexts (s.permissionsOf slot))]),
    ("links", array (s.links.map Link.toJson))]

/-- The line that names a step. -/
def line (s : Step) : String :=
  "<Step " ++ integerText s.id ++ ": " ++ s.name ++ ">"

/-- The line that names a grant of a step. -/
def grantLine (s : Step) (g : Grant) : String :=
  "<StepSlotPermission step=" ++ integerText s.id ++ " slot=" ++ integerText g.slot ++ " " ++
    g.permission.text ++ ">"

end Step

namespace Version

/-- A version as shown, with the name of its process. -/
def toJson (s : Store) (v : Version) : Json :=
  object [
    ("id", int v.id),
    ("process", int v.process),
    ("name", ofOption ofText ((s.process? v.process).map Process.name)),
    ("version", text v.created.text),
    ("start", ofOption int ((v.step? v.start).map Step.id))]

/-- The line that names a version. -/
def line (v : Version) : String :=
  "<ProcessVersion " ++ integerText v.id ++ " of process " ++ integerText v.process ++ ">"

end Version

namespace Seat

/-- A seat as a pair. -/
def pair (s : Seat) : Json := ofInts [s.slot, s.user]

/-- A seat of the draft of a module as shown. -/
def toJson (module : String) (s : Seat) : Json :=
  object [("draft", text module), ("slot", int s.slot), ("user", int s.user)]

/-- The line that names a seat of the draft of a module. -/
def line (module : String) (s : Seat) : String :=
  "<DraftSlot " ++ module ++ "/" ++ integerText s.slot ++ ": user " ++ integerText s.user ++ ">"

end Seat

namespace Draft

/-- A draft as shown. -/
def fields (s : Store) (d : Draft) : Fields :=
  [("module", text d.module),
    ("team", int d.team),
    ("process", ofOption (fun v => ofInts [v.process, d.version]) (s.version? d.version)),
    ("step", int d.step),
    ("document", int d.document),
    ("title", ofOption ofText ((s.module? d.module).map Module.title)),
    ("created_at", text d.created.text)]

/-- The position and the seats of a draft. -/
def summary (d : Draft) : Json :=
  object [
    ("module", text d.module),
    ("version", int d.version),
    ("step", int d.step),
    ("document", int d.document),
    ("seats", array (d.seats.map Seat.pair))]

/-- The line that names a draft. -/
def line (d : Draft) : String :=
  "<Draft " ++ d.module ++ " at step " ++ integerText d.step ++ ">"

end Draft

namespace Run

/-- A run as shown. -/
def toJson (r : Run) : Json :=
  object [
    ("id", int r.id),
    ("module", text r.module),
    ("version", int r.version),
    ("outcome", text r.outcome.text),
    ("started_at", text r.started.text),
    ("ended_at", ofOption (fun t => text t.text) r.ended)]

/-- The line that names a run. -/
def line (r : Run) : String :=
  "<DraftRun " ++ integerText r.id ++ ": " ++ r.module ++ " " ++ r.outcome.text ++ ">"

end Run

namespace Module

/-- A module as shown. -/
def toJson (m : Module) : Json :=
  object [
    ("id", text m.id),
    ("team", int m.team),
    ("title", text m.title),
    ("document", int m.document)]

/-- The line that names a module, with the first forty characters of its title. -/
def line (m : Module) : String :=
  "<Module " ++ m.id ++ ": " ++ String.ofList (m.title.toList.take 40) ++ ">"

end Module

namespace Document

/-- A document as shown. -/
def toJson (d : Document) : Json :=
  object [("id", int d.id), ("source", int d.source), ("created_at", text d.created.text)]

/-- The line that names a document. -/
def line (d : Document) : String :=
  "<Document " ++ integerText d.id ++ " from " ++ integerText d.source ++ ">"

end Document

namespace Member

/-- A membership as shown, its permissions in the order of their texts. -/
def toJson (m : Member) : Json :=
  object [
    ("team", int m.team),
    ("user", int m.user),
    ("role", ofOption int m.role),
    ("permissions", ofTexts (sortBy (fun a b => !(b < a : Bool)) m.permissions))]

/-- The line that names a membership. -/
def line (m : Member) : String :=
  "<TeamMember team=" ++ integerText m.team ++ " user=" ++ integerText m.user ++ " role=" ++
    (ofOption int m.role).literal ++ ">"

end Member

namespace Event

/-- An event as shown. Nothing marks events as read. -/
def toJson (e : Event) : Json :=
  object [
    ("id", int e.id),
    ("user", int e.user),
    ("kind", text e.kind.text),
    ("payload", e.payload),
    ("unread", bool true),
    ("timestamp", text e.created.text)]

/-- The kind, the user and the payload of an event. -/
def triple (e : Event) : Json :=
  array [text e.kind.text, int e.user, e.payload]

/-- The line that names an event. -/
def line (e : Event) : String :=
  "<Event " ++ integerText e.id ++ ": " ++ e.kind.text ++ " -> user " ++ integerText e.user ++ ">"

end Event

namespace Store

/-- The drafts by module. -/
def draftsByModule (s : Store) : List Draft :=
  sortBy (fun a b => !(b.module < a.module : Bool)) s.drafts

/-- The modules by id. -/
def modulesById (s : Store) : List Module :=
  sortBy (fun a b => !(b.id < a.id : Bool)) s.modules

/-- The memberships by team and user. -/
def membersByKey (s : Store) : List Member :=
  sortBy (fun a b => a.team < b.team || (a.team == b.team && a.user ≤ b.user)) s.members

/-- Every link with the step that it leaves, by id. -/
def linksById (s : Store) : List (Int × Link) :=
  sortBy (fun a b => a.2.id ≤ b.2.id)
    (s.allSteps.flatMap fun step => step.links.map fun l => (step.id, l))

/-- Everything that is stored. -/
def toJson (s : Store) : Json :=
  object [
    ("processes", array (s.processes.map fun p => object p.fields)),
    ("versions", array (s.versions.map (Version.toJson s))),
    ("slots", array <| s.versions.flatMap fun v =>
      v.slots.map fun slot => array [int v.id, object slot.fields]),
    ("steps", array <| s.versions.flatMap fun v =>
      v.steps.map fun step => array [bool (step.id == v.start), object (step.fields v)]),
    ("permissions", array <| s.allSteps.flatMap fun step =>
      step.grants.map fun g => array [int step.id, int g.slot, text g.permission.text]),
    ("links", array <| s.linksById.map fun l => array [int l.2.id, int l.1, l.2.toJson]),
    ("drafts", array (s.draftsByModule.map fun d => object (d.fields s))),
    ("draft_slots", array <| s.draftsByModule.flatMap fun d => d.seats.map (Seat.toJson d.module)),
    ("runs", array (s.runs.map Run.toJson)),
    ("modules", array (s.modulesById.map Module.toJson)),
    ("documents", array (s.documents.map Document.toJson)),
    ("members", array (s.membersByKey.map Member.toJson)),
    ("events", array (s.events.map Event.toJson))]

/-- The lines that name all rows. -/
def lines (s : Store) : List String :=
  s.processes.map Process.line ++ s.versions.map Version.line ++ s.allSlots.map Slot.line ++
    s.allSteps.map Step.line ++
    (s.allSteps.flatMap fun step => step.grants.map step.grantLine) ++
    (s.linksById.map fun l => Link.line l.1 l.2) ++
    s.draftsByModule.map Draft.line ++
    (s.draftsByModule.flatMap fun d => d.seats.map (Seat.line d.module)) ++
    s.runs.map Run.line ++ s.modulesById.map Module.line ++ s.documents.map Document.line ++
    s.membersByKey.map Member.line ++ s.events.map Event.line

end Store

end Editorial
