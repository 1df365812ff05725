import Editorial.Failure
import Editorial.Number.Numeral

/-!
# Reports of failures

What a client is told of a failure: a category, a message, a machine-readable code, details and
sometimes a kind. Category and kind alone decide the status of the answer and whether trying again
makes sense. `Failure.report?` gives the report of every failure that has one.
-/

namespace Editorial

open Json Number Text

/-- The categories of failures that are reported. -/
inductive Category where
  | general
  | description
  | notFound
  | denied
  | conflict
  | inUse
  | dependency
  | locked
  deriving DecidableEq, Repr

/-- The code of a report that names none of its own. -/
def Category.defaultCode : Category → String
  | general => "editing:error"
  | description => "edit-process:new:invalid-description"
  | notFound => "not-found"
  | denied => "forbidden"
  | conflict => "conflict"
  | inUse => "edit-process:in-use"
  | dependency => "dependency-failure"
  | locked => "draft:locked"

/-- What a client is told of a failure. -/
structure Report where
  category : Category
  message : String
  code : Json
  details : Json
  /-- The kind, null when there is none. -/
  kind : Json

namespace Report

/-- The status of the answer that carries a report. A user whom a slot's role limit rejects has sent
a bad request and is not denied anything. -/
def status (r : Report) : Nat :=
  match r.category with
  | .general | .description => 400
  | .notFound => 404
  | .denied => if r.kind == text "badRole" then 400 else 403
  | .conflict | .inUse => 409
  | .dependency | .locked => 503

/-- Whether trying again makes sense. -/
def retryable (r : Report) : Bool :=
  r.category = .dependency || r.category = .locked

/-- A report that consists of a message, with a code of its own unless that is null, and details if
they count as given. -/
def plain (category : Category) (message : String) (code details : Json) : Report :=
  { category
    message
    code := if code.isNull then text category.defaultCode else code
    details := if details.isGiven then details else object []
    kind := null }

/-- Further details as fields: none if they do not count as given, nothing if they have no
fields. -/
def detailFields? (details : Json) : Option Fields :=
  match details with
  | object fields => some fields
  | _ => if details.isGiven then none else some []

/-- Details that begin with a kind; further details may replace it. -/
def withKind (kind : Json) (details : Fields) : Fields :=
  details.foldl (fun acc f => put acc f.1 f.2) [("kind", kind)]

/-- The report of a defect of that kind. -/
def description (kind : Json) (message : String) (details : Fields) : Report :=
  { plain .description message null (object (withKind kind details)) with kind }

/-- The report that nothing is stored, under a key unless that is null. -/
def notFound (resource key : Json) : Report :=
  let found := if key.isNull then resource.plain else resource.plain ++ " id=" ++ key.plain
  plain .notFound (found ++ " not found") null (object [("resource", resource)])

/-- The report that a user may not do something. -/
def denied (kind : Json) (message : String) (code : Json) : Report :=
  { plain .denied message code (object [("kind", kind)]) with kind }

/-- The report that something is in the way; a kind that does not count as given is not among the
details. -/
def conflict (code : Json) (message : String) (kind : Json) (details : Fields) : Report :=
  let details := if kind.isGiven then withKind kind details else details
  { plain .conflict message code (object details) with kind }

/-- The report that something cannot be deleted. -/
def inUse (resource id : Json) : Report :=
  plain .inUse
    (resource.plain ++ " id=" ++ id.plain ++ " has been used by a draft and cannot be deleted")
    null (object [("resource", resource)])

end Report

/-- The code of a refusal for want of a team permission or membership. -/
def insufficientPermissions : String := "user:insufficient-permissions"

/-- The code of a clash of process names. -/
def processExistsCode : String := "edit-process:new:exists"

/-- The report of a failure, if clients are told about it. -/
def Failure.report? : Failure → Option Report
  | invalid d => some <| .description (text d.kind.text) d.message d.details
  | notFound resource key => some <| .notFound (text resource.text) (text key)
  | badRole user slotName => some <| .denied (text "badRole")
      ("User " ++ integerText user ++ " does not have a role required by slot " ++ quoted slotName)
      (text "draft:process:bad-role")
  | badUser user slot => some <| .denied (text "badUser")
      ("User " ++ integerText user ++ " does not occupy slot " ++ integerText slot ++
        " in this draft")
      (text "draft:advance:bad-user")
  | notAMember user => some <| .denied (text "forbidden")
      ("User " ++ integerText user ++ " is not a member of the draft's team")
      (text insufficientPermissions)
  | missingTeamPermission permission => some <| .denied (text "forbidden")
      ("Missing team permission " ++ permission) (text insufficientPermissions)
  | foreignProcess => some <| .denied (text "forbidden") "Process belongs to another team" null
  | noAccess => some <| .denied (text "forbidden") "You don't have access to this draft" null
  | badLink step target slot => some <| .conflict (text "draft:advance:bad-link")
      ("No link from step " ++ integerText step ++ " to step " ++ integerText target ++
        " for slot " ++ integerText slot)
      (text "badLink") []
  | processExists name holder => some <| .conflict (text processExistsCode)
      ("A process named " ++ quoted name ++ " already exists") null
      (match holder with
        | some id => [("process", int id)]
        | none => [])
  | draftExists module => some <| .conflict (text "draft:create:exists")
      "Module already has a draft" null [("module", text module)]
  | slotTaken slot slotName => some <| .conflict (text "draft:slot:occupied")
      ("Slot " ++ quoted slotName ++ " is already taken") null [("slot", int slot)]
  | inUse resource id => some <| .inUse (text resource.text) (int id)
  | copyFailed module => some <| .plain .dependency
      "Could not copy the module document, no draft was created" null
      (object [("module", text module)])
  | mergeFailed module => some <| .plain .dependency
      "Could not merge draft into module, no changes were made" null
      (object [("draft", text module)])
  | databaseUnavailable => some <| .plain .dependency "Database unavailable" null null
  | databaseFailed => some <| .plain .dependency "Database error, no changes were made" null null
  | draftLocked module => some <| .plain .locked
      "Draft is locked by another operation, retry later" null (object [("draft", text module)])
  | _ => none

end Editorial
