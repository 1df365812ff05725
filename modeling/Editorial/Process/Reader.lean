import Editorial.Failure
import Editorial.Ordered
import Editorial.Process.Description
import Editorial.Text.Blank

/-!
# Reading a process description

`Description.ofJson` turns a raw value into a description or names the first value of the wrong
shape: the start and the list of steps are looked at first, then the name, then the slots, then the
steps in order. A missing or null list reads as the empty one, names are stripped, and a grant that
is repeated within a step counts once.
-/

namespace Editorial

open Text Ordered

/-- The failure for a value of the wrong shape. -/
def malformedAt (place : Place) (cause : Malformation) : Failure :=
  .invalid (.malformed place cause)

/-- The stripped name of an element. -/
def readName (place : Place) (element : Named) : Json → Except Failure Wording
  | .text w => if w.isBlank then .error (malformedAt place (.noName element)) else .ok w.strip
  | _ => .error (malformedAt place (.noName element))

/-- The items of a list, none for null. -/
def readList (place : Place) (list : ListName) : Json → Except Failure (List Json)
  | .null => .ok []
  | .array items => .ok items
  | _ => .error (malformedAt place (.notAList list))

/-- Reads every value of a list together with its index, counted from the first argument on, up to
the first failure. -/
def readEach {α : Type} (read : Nat → Json → Except Failure α) :
    Nat → List Json → Except Failure (List α)
  | _, [] => .ok []
  | index, v :: vs => do
      let a ← read index v
      let rest ← readEach read (index + 1) vs
      return a :: rest

/-- The role ids of a list, if all its values are whole numbers. -/
def roleIds? (items : List Json) : Option (List Int) :=
  items.mapM Json.asIndex?

/-- Whether a slot is filled automatically; a missing mark means that it is not. -/
def readAutofill (place : Place) : Option Json → Except Failure Bool
  | none => .ok false
  | some (.bool b) => .ok b
  | some _ => .error (malformedAt place .badAutofill)

namespace SlotSpec

/-- Reads the slot at an index. -/
def ofJson (index : Nat) : Json → Except Failure SlotSpec
  | .object fields => do
      let items ← readList (.slot index) .roles (Json.field fields "roles")
      match roleIds? items with
      | none => .error (malformedAt (.slot index) .badRoles)
      | some roles =>
          let autofill ← readAutofill (.slot index) (Json.find? fields "autofill")
          let name ← readName (.slot index) .slot (Json.field fields "name")
          return { name, roles := ascending roles, autofill }
  | _ => .error (malformedAt (.slot index) .notASlot)

end SlotSpec

/-- The permission that a value stands for. An array or object cannot even be compared with the
texts that stand for permissions. -/
def readPermission (place : Place) : Json → Except Failure Permission
  | .array items => .error (.incomparable (.array items))
  | .object fields => .error (.incomparable (.object fields))
  | .text (.whole s) =>
      match Permission.ofText? s with
      | some p => .ok p
      | none => .error (malformedAt place (.unknownPermission (.text s)))
  | v => .error (malformedAt place (.unknownPermission v))

/-- Reads a grant of the step at an index. -/
def GrantSpec.ofJson (step : Nat) : Json → Except Failure GrantSpec
  | .object fields =>
      match (Json.field fields "slot").asIndex? with
      | none => .error (malformedAt (.step step) .badGrant)
      | some slot => do
          let permission ← readPermission (.step step) (Json.field fields "permission")
          return { slot, permission }
  | _ => .error (malformedAt (.step step) .badGrant)

/-- Reads a link of the step at an index. -/
def LinkSpec.ofJson (step : Nat) : Json → Except Failure LinkSpec
  | .object fields =>
      match (Json.field fields "to").asIndex?, (Json.field fields "slot").asIndex? with
      | some target, some slot => do
          let name ← readName (.step step) .link (Json.field fields "name")
          return { name, target, slot }
      | _, _ => .error (malformedAt (.step step) .badLink)
  | _ => .error (malformedAt (.step step) .badLink)

/-- Reads the step at an index. -/
def StepSpec.ofJson (index : Nat) : Json → Except Failure StepSpec
  | .object fields => do
      let name ← readName (.step index) .step (Json.field fields "name")
      let rawGrants ← readList (.step index) .grants (Json.field fields "slots")
      let grants ← readEach (fun _ => GrantSpec.ofJson index) 0 rawGrants
      let rawLinks ← readList (.step index) .links (Json.field fields "links")
      let links ← readEach (fun _ => LinkSpec.ofJson index) 0 rawLinks
      return { name, grants := grants.eraseDups, links }
  | _ => .error (malformedAt (.step index) .notAStep)

/-- Reads a description without judging its references or its graph. -/
def Description.ofJson : Json → Except Failure Description
  | .object fields =>
      match (Json.field fields "start").asIndex? with
      | none => .error (malformedAt .top .noStart)
      | some start => do
          let rawSteps ← readList .top .steps (Json.field fields "steps")
          if rawSteps.isEmpty then .error (malformedAt .top .noSteps)
          else
            let name ← readName .top .process (Json.field fields "name")
            let rawSlots ← readList .top .slots (Json.field fields "slots")
            let slots ← readEach SlotSpec.ofJson 0 rawSlots
            let steps ← readEach StepSpec.ofJson 0 rawSteps
            return { name, start, slots, steps }
  | _ => .error (malformedAt .top .notADescription)

end Editorial
