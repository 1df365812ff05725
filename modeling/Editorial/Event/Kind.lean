import Editorial.Json.Basic

/-!
# Kinds of events

What can happen in an editing process that a user is told about, and announcements: what an
operation has to tell, before it is delivered. An announcement may name anything as its kind; only
the known kinds can be delivered.
-/

namespace Editorial

/-- The kinds of events that can be delivered. -/
inductive EventKind where
  | assigned
  | processEnded
  | processCancelled
  | slotFilled
  | slotVacated
  | draftAdvanced
  deriving DecidableEq, Repr

namespace EventKind

/-- All kinds of events. -/
def all : List EventKind :=
  [assigned, processEnded, processCancelled, slotFilled, slotVacated, draftAdvanced]

/-- The text that stands for a kind of event. -/
def text : EventKind → String
  | assigned => "assigned"
  | processEnded => "process-ended"
  | processCancelled => "process-cancelled"
  | slotFilled => "slot-filled"
  | slotVacated => "slot-vacated"
  | draftAdvanced => "draft-advanced"

/-- The kind that a text stands for. -/
def ofText? (s : String) : Option EventKind :=
  all.find? fun k => k.text == s

/-- The kind that a value stands for. -/
def ofJson? : Json → Option EventKind
  | .text (.whole s) => ofText? s
  | _ => none

/-! ### Lemmas -/

theorem ofText?_text (k : EventKind) : ofText? k.text = some k := by
  cases k <;> decide

end EventKind

/-- Something to tell some users. -/
structure Announcement where
  kind : Json
  payload : Json
  /-- The users to tell, in ascending order. -/
  recipients : List Int
  deriving Repr

end Editorial
