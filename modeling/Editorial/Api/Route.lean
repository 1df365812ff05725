import Editorial.Api.Path
import Editorial.Number.Numeral

/-!
# Routes

Which part of the interface an address names (`Place`), and what a method does there (`Endpoint`).
An id in a path is a row of decimal digits (`PathId`), a module any segment that is not empty.
Nothing follows the last segment, not even a slash. The head of a page can be asked for where the
page can be, and every place tells its options (`Place.serves`).
-/

namespace Editorial.Api

open Number Text

/-- An id in a path, as its decimal digits. -/
structure PathId where
  digits : List Nat
  deriving DecidableEq, Repr

namespace PathId

/-- The number that an id is. -/
def value (id : PathId) : Int := ofDigits id.digits

/-- Whether an id has more digits than a numeral may have. -/
def isTooLong (id : PathId) : Bool := digitLimit < id.digits.length

end PathId

/-- What an address names. -/
inductive Place where
  | drafts
  | draft (module : String)
  | draftAdvance (module : String)
  | draftProcess (module : String)
  | draftSlot (module : String) (slot : PathId)
  | moduleProcess (module : String)
  | processes
  | process (process : PathId)
  | tree (process : PathId)
  | versions (process : PathId)
  | version (process version : PathId)
  | versionTree (process version : PathId)
  | step (process version step : PathId)
  | slots
  | freeSlots
  | ready
  | live
  deriving DecidableEq, Repr

/-- What a user can ask for. -/
inductive Action where
  | listDrafts
  | showDraft (module : String)
  | cancelDraft (module : String)
  | advanceDraft (module : String)
  | showDraftProcess (module : String)
  | vacateSlot (module : String) (slot : Int)
  | beginDraft (module : String)
  | listProcesses
  | createProcess
  | showProcess (process : Int)
  | renameProcess (process : Int)
  | deleteProcess (process : Int)
  | showTree (process : Int)
  | listVersions (process : Int)
  | createVersion (process : Int)
  | showVersion (process version : Int)
  | deleteVersion (process version : Int)
  | showVersionTree (process version : Int)
  | showStep (process version step : Int)
  | takeSlot
  | listFreeSlots
  deriving DecidableEq, Repr

/-- What can be asked for: whether the service is up, by anybody, or something that a user does. -/
inductive Endpoint where
  | ready
  | live
  | action (a : Action)
  deriving DecidableEq, Repr

/-- The id that a segment of a path is. -/
def idSegment? (segment : String) : Option PathId :=
  if segment.isEmpty then none else (segment.toList.mapM digitValue?).map PathId.mk

/-- The name of a module that a segment of a path is. -/
def moduleSegment? (segment : String) : Option String :=
  if segment.isEmpty then none else some segment

namespace Place

/-- What the segments name that follow the common beginning of all addresses. -/
def ofSegments? : List String → Option Place
  | ["drafts"] => some drafts
  | ["drafts", m] => return draft (← moduleSegment? m)
  | ["drafts", m, "advance"] => return draftAdvance (← moduleSegment? m)
  | ["drafts", m, "process"] => return draftProcess (← moduleSegment? m)
  | ["drafts", m, "slots", slot] => return draftSlot (← moduleSegment? m) (← idSegment? slot)
  | ["modules", m, "process"] => return moduleProcess (← moduleSegment? m)
  | ["processes"] => some processes
  | ["processes", "slots"] => some slots
  | ["processes", "slots", "free"] => some freeSlots
  | ["processes", p] => return process (← idSegment? p)
  | ["processes", p, "structure"] => return tree (← idSegment? p)
  | ["processes", p, "versions"] => return versions (← idSegment? p)
  | ["processes", p, "versions", v] => return version (← idSegment? p) (← idSegment? v)
  | ["processes", p, "versions", v, "structure"] =>
      return versionTree (← idSegment? p) (← idSegment? v)
  | ["processes", p, "versions", v, "steps", s] =>
      return step (← idSegment? p) (← idSegment? v) (← idSegment? s)
  | ["health", "ready"] => some ready
  | ["health", "live"] => some live
  | _ => none

/-- What a path names. -/
def ofPath? (path : String) : Option Place :=
  match segments path with
  | "" :: "api" :: "v1" :: rest => ofSegments? rest
  | _ => none

/-- The ids in a path, in order. -/
def ids : Place → List PathId
  | draftSlot _ slot => [slot]
  | process p | tree p | versions p => [p]
  | version p v | versionTree p v => [p, v]
  | step p v s => [p, v, s]
  | _ => []

/-- What a method does at a place. -/
def endpoint? : Place → String → Option Endpoint
  | drafts, "GET" => some (.action .listDrafts)
  | draft m, "GET" => some (.action (.showDraft m))
  | draft m, "DELETE" => some (.action (.cancelDraft m))
  | draftAdvance m, "POST" => some (.action (.advanceDraft m))
  | draftProcess m, "GET" => some (.action (.showDraftProcess m))
  | draftSlot m slot, "DELETE" => some (.action (.vacateSlot m slot.value))
  | moduleProcess m, "POST" => some (.action (.beginDraft m))
  | processes, "GET" => some (.action .listProcesses)
  | processes, "POST" => some (.action .createProcess)
  | process p, "GET" => some (.action (.showProcess p.value))
  | process p, "PUT" => some (.action (.renameProcess p.value))
  | process p, "DELETE" => some (.action (.deleteProcess p.value))
  | tree p, "GET" => some (.action (.showTree p.value))
  | versions p, "GET" => some (.action (.listVersions p.value))
  | versions p, "POST" => some (.action (.createVersion p.value))
  | version p v, "GET" => some (.action (.showVersion p.value v.value))
  | version p v, "DELETE" => some (.action (.deleteVersion p.value v.value))
  | versionTree p v, "GET" => some (.action (.showVersionTree p.value v.value))
  | step p v s, "GET" => some (.action (.showStep p.value v.value s.value))
  | slots, "POST" => some (.action .takeSlot)
  | freeSlots, "GET" => some (.action .listFreeSlots)
  | .ready, "GET" => some .ready
  | .live, "GET" => some .live
  | _, _ => none

/-- The method that does what is asked for by a method, responses without a body aside. -/
def fullMethod (method : String) : String :=
  if method = "HEAD" then "GET" else method

/-- The method that comes first at a place. -/
def firstMethod : Place → String
  | draftAdvance _ | moduleProcess _ | slots => "POST"
  | draftSlot .. => "DELETE"
  | _ => "GET"

/-- Whether what is asked for by a method is the first thing to be asked for at a place; so are the
options. -/
def isFirst (p : Place) (method : String) : Bool :=
  method == "OPTIONS" || fullMethod method == p.firstMethod

/-- Whether a method is allowed at a place. -/
def serves (p : Place) (method : String) : Bool :=
  method == "OPTIONS" || (p.endpoint? (fullMethod method)).isSome

end Place

end Editorial.Api
