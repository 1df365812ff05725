import Editorial.Json.Whole
import Editorial.Process.Defect
import Editorial.Time

/-!
# Failures

Why an operation was not carried out. Most failures are part of the contract with clients and have a
report (`Editorial.Report`); the last ones, from `oversized` on, are not, and a client only learns
that something went wrong.
-/

namespace Editorial

/-- The kinds of stored things that can be asked for by key. -/
inductive Resource where
  | process
  | version
  | step
  | slot
  | draft
  | module
  | run
  | member
  deriving DecidableEq, Repr

/-- What a message calls a kind of stored thing. -/
def Resource.text : Resource → String
  | process => "Process"
  | version => "ProcessVersion"
  | step => "Step"
  | slot => "Slot"
  | draft => "Draft"
  | module => "Module"
  | run => "DraftRun"
  | member => "TeamMember"

/-- An error of the database: an operational one with the text and code that the database gave, a
violated constraint, a statement that could not be prepared, or any other one. -/
inductive DatabaseError where
  | operational (text : String) (code : Option String)
  | integrity
  | unprepared
  | other
  deriving DecidableEq, Repr

/-- Why an operation was not carried out. -/
inductive Failure where
  | invalid (defect : Defect)
  | notFound (resource : Resource) (key : String)
  | badRole (user : Int) (slotName : String)
  | badUser (user slot : Int)
  | notAMember (user : Int)
  | missingTeamPermission (permission : String)
  | foreignProcess
  | noAccess
  | badLink (step target slot : Int)
  | processExists (name : String) (holder : Option Int)
  | draftExists (module : String)
  | slotTaken (slot : Int) (slotName : String)
  | inUse (resource : Resource) (id : Int)
  | copyFailed (module : String)
  | mergeFailed (module : String)
  | databaseUnavailable
  | databaseFailed
  | draftLocked (module : String)
  /-- A whole number that the database cannot hold. -/
  | oversized
  /-- A value given as an id that denotes no whole number. -/
  | notWhole (cause : NotWhole)
  /-- A text with half characters, which the database cannot hold. -/
  | unstorable
  /-- Two values given for slots of which neither comes before the other. -/
  | unordered (left right : Json)
  /-- A value of another shape than an object where fields are asked for. -/
  | notAnObject (value : Json)
  /-- A request body with arrays and objects nested too deep. -/
  | tooDeep
  /-- The moment of the operation has no date. -/
  | noDate (cause : NoDate)
  /-- An array or an object where a value is to be looked up among others. -/
  | incomparable (value : Json)
  /-- A value that is asked about as a permission and is none. -/
  | unknownPermission (value : Json)
  /-- A run closed with something that is no outcome. -/
  | invalidOutcome (value : Json)
  | unknownEventKind (kind : Json)
  /-- A kind of event that the event sink refuses. -/
  | eventRefused
  /-- A draft merged into a module that is not stored. -/
  | moduleGone (module : String)
  /-- A merge that the document store refuses. -/
  | mergeRefused
  /-- An error of the database that is passed on as it is. -/
  | database (error : DatabaseError)
  /-- A look into the database over a connection that a delivery has left unusable. -/
  | connectionUnusable
  deriving Repr

end Editorial
