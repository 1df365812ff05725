import Editorial.Event.Kind
import Editorial.Process.Permission
import Editorial.Time

/-!
# Stored things

The rows of the store. A version holds its slots and steps, a step its grants and links, a draft its
seats: these belong to one owner and come and go with it. Ids are whole numbers; modules, and with
them drafts, are named by a text.
-/

namespace Editorial

/-- A family of versions of one editing process, owned by a team. -/
structure Process where
  id : Int
  team : Int
  name : String
  deriving DecidableEq, Repr

/-- A seat that a version provides. An empty list of roles admits every member of the team. -/
structure Slot where
  id : Int
  name : String
  roles : List Int
  autofill : Bool
  deriving DecidableEq, Repr

/-- A permission that a step grants to a slot. -/
structure Grant where
  slot : Int
  permission : Permission
  deriving DecidableEq, Repr

/-- A way out of a step to the target step, open to the occupant of a slot. -/
structure Link where
  id : Int
  name : String
  target : Int
  slot : Int
  deriving DecidableEq, Repr

/-- A node of the process graph. Grants are ordered by slot and permission, links by slot and
target. -/
structure Step where
  id : Int
  name : String
  grants : List Grant
  links : List Link
  deriving DecidableEq, Repr

/-- One immutable description of a process; `start` is the id of its start step. -/
structure Version where
  id : Int
  process : Int
  created : Instant
  start : Int
  slots : List Slot
  steps : List Step
  deriving DecidableEq, Repr

/-- A user in a slot. -/
structure Seat where
  slot : Int
  user : Int
  deriving DecidableEq, Repr

/-- The working copy of a module while its editing process runs. Seats are ordered by slot. -/
structure Draft where
  module : String
  team : Int
  version : Int
  step : Int
  document : Int
  created : Instant
  seats : List Seat
  deriving DecidableEq, Repr

/-- How a run of an editing process stands. -/
inductive RunOutcome where
  | active
  | finished
  | cancelled
  deriving DecidableEq, Repr

/-- The record of one run of an editing process on a module. -/
structure Run where
  id : Int
  module : String
  version : Int
  outcome : RunOutcome
  started : Instant
  ended : Option Instant
  deriving DecidableEq, Repr

/-- A published document; `document` is its current revision. -/
structure Module where
  id : String
  team : Int
  title : String
  document : Int
  deriving DecidableEq, Repr

/-- A revision of a document, copied from another one. -/
structure Document where
  id : Int
  source : Int
  created : Instant
  deriving DecidableEq, Repr

/-- The membership of a user in a team. -/
structure Member where
  team : Int
  user : Int
  role : Option Int
  permissions : List String
  deriving DecidableEq, Repr

/-- Something that a user has been told. -/
structure Event where
  id : Int
  user : Int
  kind : EventKind
  payload : Json
  created : Instant
  deriving Repr

namespace RunOutcome

/-- The text that stands for an outcome. -/
def text : RunOutcome → String
  | active => "active"
  | finished => "finished"
  | cancelled => "cancelled"

/-- The outcome with which a run is closed that a text stands for. -/
def closing? (s : String) : Option RunOutcome :=
  [finished, cancelled].find? fun o => o.text == s

end RunOutcome

namespace Step

/-- A step without links ends the process. -/
def isFinal (s : Step) : Bool := s.links.isEmpty

/-- Whether a step grants a permission to a slot. -/
def grantsTo (s : Step) (slot : Int) (p : Permission) : Bool :=
  s.grants.any fun g => g.slot == slot && g.permission == p

/-- The permissions that a step grants to a slot. -/
def permissionsOf (s : Step) (slot : Int) : List Permission :=
  Permission.all.filter fun p => s.grantsTo slot p

/-- Whether a step grants a slot anything. -/
def isActive (s : Step) (slot : Int) : Bool :=
  s.grants.any fun g => g.slot == slot

/-- The link of a step to a target for a slot. -/
def link? (s : Step) (target slot : Int) : Option Link :=
  s.links.find? fun l => l.target == target && l.slot == slot

end Step

namespace Version

/-- The slot of a version with an id. -/
def slot? (v : Version) (id : Int) : Option Slot :=
  v.slots.find? fun s => s.id == id

/-- The step of a version with an id. -/
def step? (v : Version) (id : Int) : Option Step :=
  v.steps.find? fun s => s.id == id

/-- The slots to which a step grants anything, by id. -/
def activeSlots (v : Version) (s : Step) : List Slot :=
  v.slots.filter fun slot => s.isActive slot.id

end Version

namespace Draft

/-- The user in a slot of a draft. -/
def occupant? (d : Draft) (slot : Int) : Option Int :=
  (d.seats.find? fun s => s.slot == slot).map Seat.user

/-- Whether a user holds a slot of a draft. -/
def isSeated (d : Draft) (user : Int) : Bool :=
  d.seats.any fun s => s.user == user

/-- Seats with a user in a slot, in place of whoever was there; the order by slot is kept. -/
def putSeat (slot user : Int) : List Seat → List Seat
  | [] => [⟨slot, user⟩]
  | s :: rest =>
      if s.slot = slot then ⟨slot, user⟩ :: rest
      else if slot < s.slot then ⟨slot, user⟩ :: s :: rest
      else s :: putSeat slot user rest

/-- A draft with a user in a slot, in place of whoever was there. -/
def seat (d : Draft) (slot user : Int) : Draft :=
  { d with seats := putSeat slot user d.seats }

/-- A draft with nobody in a slot. -/
def vacate (d : Draft) (slot : Int) : Draft :=
  { d with seats := d.seats.filter fun s => s.slot != slot }

end Draft

/-- Whether a user with that role may take a slot, as far as roles go. -/
def Slot.admits (s : Slot) (role : Option Int) : Bool :=
  s.roles.isEmpty ||
    match role with
    | some r => s.roles.contains r
    | none => false

/-! ### Lemmas -/

theorem Slot.admits_eq_true_iff {s : Slot} {role : Option Int} :
    s.admits role = true ↔ s.roles = [] ∨ ∃ r ∈ s.roles, role = some r := by
  cases role <;> simp [admits]

namespace Draft

theorem find?_putSeat (slot user other : Int) (seats : List Seat) :
    ((putSeat slot user seats).find? fun s => s.slot == other) =
      if other = slot then some ⟨slot, user⟩ else seats.find? fun s => s.slot == other := by
  induction seats with
  | nil =>
      by_cases h : other = slot
      · simp [putSeat, h]
      · simp [putSeat, h, Ne.symm h]
  | cons s rest ih =>
      unfold putSeat
      by_cases hs : s.slot = slot
      · rw [if_pos hs]
        by_cases h : other = slot
        · simp [h]
        · have hne : s.slot ≠ other := fun e => h (e.symm.trans hs)
          simp [h, hne, Ne.symm h]
      · rw [if_neg hs]
        by_cases hlt : slot < s.slot
        · rw [if_pos hlt]
          by_cases h : other = slot
          · simp [h]
          · simp [h, Ne.symm h]
        · rw [if_neg hlt]
          by_cases ho : s.slot = other
          · have hne : other ≠ slot := fun e => hs (ho.trans e)
            simp [ho, hne]
          · simp [ho, ih]

theorem occupant?_seat (d : Draft) (slot user other : Int) :
    (d.seat slot user).occupant? other =
      if other = slot then some user else d.occupant? other := by
  unfold occupant? seat
  dsimp only
  rw [find?_putSeat]
  split <;> rfl

theorem occupant?_vacate (d : Draft) (slot other : Int) :
    (d.vacate slot).occupant? other = if other = slot then none else d.occupant? other := by
  unfold occupant? vacate
  dsimp only
  rw [List.find?_filter]
  by_cases h : other = slot
  · rw [if_pos h]
    simp [h]
  · rw [if_neg h]
    congr 2
    funext s
    by_cases hs : s.slot = other
    · simp [hs, h]
    · simp [hs]

end Draft

end Editorial
