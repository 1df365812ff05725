import Editorial.Json.Basic
import Editorial.Process.Permission

/-!
# Process descriptions

A process described by position: steps and slots are named by their index in the description. A
`Description` is what a raw value says once every field has its type and every name is stripped;
whether its indices exist and its graph makes sense is judged separately, and so is whether its
names can be stored.
-/

namespace Editorial

open Text

/-- A seat that the process provides for a user. -/
structure SlotSpec where
  name : Wording
  /-- The roles that may take the slot, in ascending order; none means that everyone may. -/
  roles : List Int
  autofill : Bool
  deriving DecidableEq, Repr

/-- A permission granted to a slot. -/
structure GrantSpec where
  slot : Int
  permission : Permission
  deriving DecidableEq, Repr

/-- A way from a step to another one, open to the occupant of a slot. -/
structure LinkSpec where
  name : Wording
  target : Int
  slot : Int
  deriving DecidableEq, Repr

/-- A stage of the process. -/
structure StepSpec where
  name : Wording
  grants : List GrantSpec
  links : List LinkSpec
  deriving DecidableEq, Repr

/-- A process described by position. -/
structure Description where
  name : Wording
  start : Int
  slots : List SlotSpec
  steps : List StepSpec
  deriving DecidableEq, Repr

/-- A step without links ends the process. -/
def StepSpec.isFinal (s : StepSpec) : Bool := s.links.isEmpty

namespace Description

/-- The name of the slot at an index. -/
def slotName (d : Description) (index : Int) : Wording :=
  ((d.slots[index.toNat]?).map SlotSpec.name).getD ""

/-- The name of the step at an index. -/
def stepName (d : Description) (index : Int) : Wording :=
  ((d.steps[index.toNat]?).map StepSpec.name).getD ""

/-- The links out of the step at an index. -/
def linksFrom (d : Description) (index : Nat) : List LinkSpec :=
  ((d.steps[index]?).map StepSpec.links).getD []

/-- Every link together with the index of the step that it leaves, in order. -/
def allLinks (d : Description) : List (Nat × LinkSpec) :=
  d.steps.zipIdx.flatMap fun s => s.1.links.map fun l => (s.2, l)

/-- Whether the name of a slot, a step or a link has half characters in it. -/
def hasTornPart (d : Description) : Bool :=
  d.slots.any (·.name.isTorn) || d.steps.any fun s => s.name.isTorn || s.links.any (·.name.isTorn)

open Json

/-- A description as a value: grants as pairs, and each step marked when it is final. -/
def toJson (d : Description) : Json :=
  object [
    ("name", text d.name),
    ("start", int d.start),
    ("slots", array <| d.slots.map fun s =>
      object [("name", text s.name), ("roles", ofInts s.roles), ("autofill", bool s.autofill)]),
    ("steps", array <| d.steps.map fun s =>
      object [
        ("name", text s.name),
        ("final", bool s.isFinal),
        ("permissions", array <| s.grants.map fun g =>
          array [int g.slot, text g.permission.text]),
        ("links", array <| s.links.map fun l =>
          object [("name", text l.name), ("to", int l.target), ("slot", int l.slot)])])]

end Description

end Editorial
