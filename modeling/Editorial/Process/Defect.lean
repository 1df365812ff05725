import Editorial.Json.Literal
import Editorial.Process.Permission

/-!
# Defects of a process description

Everything that can be wrong with a description, one constructor for each cause. A defect has a
kind, a message, and details that name the elements at fault by index.
-/

namespace Editorial

open Json Text Number

/-- The lists of a description. -/
inductive ListName where
  | steps
  | slots
  | roles
  | grants
  | links
  deriving DecidableEq, Repr

/-- What a message calls a list. -/
def ListName.text : ListName → String
  | steps => "Process steps"
  | slots => "Process slots"
  | roles => "Slot roles"
  | grants => "Step slots"
  | links => "Step links"

/-- The elements of a description that have a name. -/
inductive Named where
  | process
  | slot
  | step
  | link
  deriving DecidableEq, Repr

/-- What a message calls an element. -/
def Named.text : Named → String
  | process => "Process"
  | slot => "Slot"
  | step => "Step"
  | link => "Link"

/-- Where in a description a malformed value stands. -/
inductive Place where
  | top
  | slot (index : Nat)
  | step (index : Nat)
  deriving DecidableEq, Repr

/-- A value of the wrong shape. -/
inductive Malformation where
  | notADescription
  | noStart
  | noSteps
  | notAList (list : ListName)
  | noName (element : Named)
  | notASlot
  | badRoles
  | badAutofill
  | notAStep
  | badGrant
  | unknownPermission (value : Json)
  | badLink
  deriving Repr

/-- What is wrong with a process description. -/
inductive Defect where
  | malformed (place : Place) (cause : Malformation)
  | noSuchStart (start : Int)
  | grantToNoSlot (step : Nat) (stepName : Wording) (slot : Int)
  | linkToNoStep (step : Nat) (link : Wording) (target : Int)
  | linkOfNoSlot (step : Nat) (link : Wording) (slot : Int)
  | repeatedSlotName (slot : Nat) (name : Wording)
  | repeatedStepName (step : Nat) (name : Wording)
  | repeatedLinkName (step : Nat) (stepName name : Wording)
  | selfLoop (step : Nat) (stepName link : Wording)
  | ambiguousTarget (step other : Nat) (target slot : Int) (slotName targetName : Wording)
  | sharedPermission (step : Nat) (stepName : Wording) (permission : Permission) (slots : List Int)
  | mixedPermissions (step : Nat) (stepName : Wording)
  | unreachableStep (step : Nat) (name : Wording)
  | noFinalStep
  deriving Repr

/-- The check that a defect fails. -/
inductive DefectKind where
  | malformed
  | badReference
  | duplicateName
  | selfLoop
  | ambiguousTarget
  | exclusivePermission
  | unreachableStep
  | noFinalStep
  deriving DecidableEq, Repr

/-- The text that stands for a kind of defect. -/
def DefectKind.text : DefectKind → String
  | malformed => "malformed"
  | badReference => "badReference"
  | duplicateName => "duplicateName"
  | selfLoop => "selfLoop"
  | ambiguousTarget => "ambiguousTarget"
  | exclusivePermission => "exclusivePermission"
  | unreachableStep => "unreachableStep"
  | noFinalStep => "noFinalStep"

/-- The message about a value of the wrong shape. -/
def Malformation.message : Malformation → String
  | notADescription => "Process description must be an object"
  | noStart => "Process description must name a start step index"
  | noSteps => "Process must have at least one step"
  | notAList list => list.text ++ " must be a list"
  | noName element => element.text ++ " must have a non-empty name"
  | notASlot => "Slot must be an object"
  | badRoles => "Slot roles must be role ids"
  | badAutofill => "Slot autofill must be a boolean"
  | notAStep => "Step must be an object"
  | badGrant => "Step slot entry must reference a slot index"
  | unknownPermission value => "Unknown slot permission " ++ value.literal
  | badLink => "Link must reference a step and a slot index"

/-- The details that name a place. -/
def Place.details : Place → Fields
  | top => []
  | slot index => [("slot", int index)]
  | step index => [("step", int index)]

namespace Defect

/-- The check that a defect fails. -/
def kind : Defect → DefectKind
  | malformed .. => .malformed
  | noSuchStart .. | grantToNoSlot .. | linkToNoStep .. | linkOfNoSlot .. => .badReference
  | repeatedSlotName .. | repeatedStepName .. | repeatedLinkName .. => .duplicateName
  | selfLoop .. => .selfLoop
  | ambiguousTarget .. => .ambiguousTarget
  | sharedPermission .. | mixedPermissions .. => .exclusivePermission
  | unreachableStep .. => .unreachableStep
  | noFinalStep => .noFinalStep

/-- The message about a defect. -/
def message : Defect → String
  | malformed _ cause => cause.message
  | noSuchStart _ => "Start step does not exist"
  | grantToNoSlot _ stepName _ =>
      "Step " ++ quoted stepName ++ " grants a permission to a missing slot"
  | linkToNoStep _ link _ => "Link " ++ quoted link ++ " leads to a missing step"
  | linkOfNoSlot _ link _ => "Link " ++ quoted link ++ " is usable by a missing slot"
  | repeatedSlotName _ name => "Duplicate slot name " ++ quoted name
  | repeatedStepName _ name => "Duplicate step name " ++ quoted name
  | repeatedLinkName _ stepName name =>
      "Duplicate link name " ++ quoted name ++ " in step " ++ quoted stepName
  | selfLoop _ stepName link =>
      "Link " ++ quoted link ++ " leads back to step " ++ quoted stepName
  | ambiguousTarget _ _ _ _ slotName targetName =>
      "Slot " ++ quoted slotName ++ " has more than one link into step " ++ quoted targetName
  | sharedPermission _ stepName permission _ =>
      "Permission " ++ quoted permission.text ++ " granted to more than one slot in step " ++
        quoted stepName
  | mixedPermissions _ stepName =>
      "Step " ++ quoted stepName ++ " grants both editing and proposing changes"
  | unreachableStep _ name =>
      "Step " ++ quoted name ++ " cannot be reached from the start step"
  | noFinalStep => "Process has no final step and could never conclude"

/-- The elements at fault. -/
def details : Defect → Fields
  | malformed place (.unknownPermission value) => extend place.details [("permission", value)]
  | malformed place _ => place.details
  | noSuchStart start => [("start", int start)]
  | grantToNoSlot step _ slot => [("step", int step), ("slot", int slot)]
  | linkToNoStep step link target => [("step", int step), ("link", text link), ("to", int target)]
  | linkOfNoSlot step link slot => [("step", int step), ("link", text link), ("slot", int slot)]
  | repeatedSlotName slot name => [("slot", int slot), ("name", text name)]
  | repeatedStepName step name => [("step", int step), ("name", text name)]
  | repeatedLinkName step _ name => [("step", int step), ("name", text name)]
  | selfLoop step _ link => [("step", int step), ("link", text link)]
  | ambiguousTarget step other target slot _ _ =>
      [("step", int step), ("other_step", int other), ("to", int target), ("slot", int slot)]
  | sharedPermission step _ permission slots =>
      [("step", int step), ("permission", text permission.text), ("slots", ofInts slots)]
  | mixedPermissions step _ => [("step", int step)]
  | unreachableStep step name => [("step", int step), ("name", text name)]
  | noFinalStep => []

end Defect

end Editorial
