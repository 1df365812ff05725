import Editorial.Process.Reach
import Editorial.Process.Reader

/-!
# Validation of a process description

The checks run in a fixed order, so that a description always shows the same defect: dangling
references, repeated names, self loops and ambiguous targets, exclusive permissions, steps out of
reach, and last the lack of a final step. Each check is a function that gives the first defect of
its kind; `Description.defect?` is the first one of all.
-/

namespace Editorial

open Ordered

/-- The first element of a list that has occurred before, with its index. -/
def firstRepeat? {α : Type} [DecidableEq α] (seen : List α) (index : Nat) :
    List α → Option (Nat × α)
  | [] => none
  | a :: rest =>
      if a ∈ seen then some (index, a) else firstRepeat? (a :: seen) (index + 1) rest

/-- Whether a number is an index of a list of that length. -/
def isIndex (n : Int) (length : Nat) : Bool :=
  0 ≤ n && n < length

namespace Description

/-! ### References -/

/-- The first reference of a step to a slot or step that does not exist. -/
def stepReferenceDefect? (d : Description) (step : StepSpec) (index : Nat) : Option Defect :=
  let grant := step.grants.findSome? fun g =>
    if isIndex g.slot d.slots.length then none
    else some (.grantToNoSlot index step.name g.slot)
  let link := step.links.findSome? fun l =>
    if !isIndex l.target d.steps.length then some (.linkToNoStep index l.name l.target)
    else if !isIndex l.slot d.slots.length then some (.linkOfNoSlot index l.name l.slot)
    else none
  grant <|> link

/-- The first reference to a slot or step that does not exist. -/
def referenceDefect? (d : Description) : Option Defect :=
  if isIndex d.start d.steps.length then
    d.steps.zipIdx.findSome? fun s => d.stepReferenceDefect? s.1 s.2
  else some (.noSuchStart d.start)

/-! ### Names -/

/-- The first name that is repeated: among the slots, among the steps, among the links of a step. -/
def nameDefect? (d : Description) : Option Defect :=
  let slot := (firstRepeat? [] 0 (d.slots.map SlotSpec.name)).map fun r =>
    Defect.repeatedSlotName r.1 r.2
  let step := (firstRepeat? [] 0 (d.steps.map StepSpec.name)).map fun r =>
    Defect.repeatedStepName r.1 r.2
  let link := d.steps.zipIdx.findSome? fun s =>
    (firstRepeat? [] 0 (s.1.links.map LinkSpec.name)).map fun r =>
      Defect.repeatedLinkName s.2 s.1.name r.2
  slot <|> step <|> link

/-! ### Links -/

/-- The defect of a link given those before it: it leads back to its own step, or its slot can
already reach its target. -/
def linkDefectAfter? (d : Description) (earlier : List (Nat × LinkSpec)) (step : Nat)
    (link : LinkSpec) : Option Defect :=
  if link.target = step then some (.selfLoop step (d.stepName step) link.name)
  else
    (earlier.find? fun e => e.2.target == link.target && e.2.slot == link.slot).map fun e =>
      .ambiguousTarget step e.1 link.target link.slot (d.slotName link.slot)
        (d.stepName link.target)

/-- The first defect among links, given those before them. -/
def linkDefectFrom? (d : Description) (earlier : List (Nat × LinkSpec)) :
    List (Nat × LinkSpec) → Option Defect
  | [] => none
  | (step, link) :: rest =>
      d.linkDefectAfter? earlier step link <|> d.linkDefectFrom? (earlier ++ [(step, link)]) rest

/-- The first link that is a self loop or has the slot and target of an earlier one. -/
def linkDefect? (d : Description) : Option Defect :=
  d.linkDefectFrom? [] d.allLinks

/-! ### Exclusive permissions -/

/-- The slots to which a step grants a permission. -/
def holders (step : StepSpec) (p : Permission) : List Int :=
  (step.grants.filter (·.permission == p)).map GrantSpec.slot

/-- The exclusive permissions that a step grants, in the order in which they first occur. -/
def exclusiveGranted (step : StepSpec) : List Permission :=
  ((step.grants.map GrantSpec.permission).filter Permission.isExclusive).eraseDups

/-- What is wrong with the exclusive permissions of a step. -/
def stepPermissionDefect? (step : StepSpec) (index : Nat) : Option Defect :=
  let granted := exclusiveGranted step
  let shared := granted.findSome? fun p =>
    if (holders step p).length > 1 then
      some (.sharedPermission index step.name p (holders step p))
    else none
  shared <|> (if granted.length > 1 then some (.mixedPermissions index step.name) else none)

/-- The first step whose exclusive permissions are shared or mixed. -/
def permissionDefect? (d : Description) : Option Defect :=
  d.steps.zipIdx.findSome? fun s => stepPermissionDefect? s.1 s.2

/-! ### Reachability -/

/-- The indices of the steps to which links lead from the step at an index. -/
def successors (d : Description) (index : Nat) : List Nat :=
  (d.linksFrom index).map fun l => l.target.toNat

/-- The indices of the steps that can be reached from the start step. -/
def reached (d : Description) : List Nat :=
  Reach.seenFrom d.steps.length d.successors d.start.toNat

/-- The first step that cannot be reached, or the lack of a final step. -/
def reachDefect? (d : Description) : Option Defect :=
  let reached := d.reached
  let lost := d.steps.zipIdx.findSome? fun s =>
    if s.2 ∈ reached then none else some (.unreachableStep s.2 s.1.name)
  lost <|> (if d.steps.any StepSpec.isFinal then none else some .noFinalStep)

/-! ### All checks -/

/-- The first defect of a description whose fields have the right types. -/
def defect? (d : Description) : Option Defect :=
  d.referenceDefect? <|> d.nameDefect? <|> d.linkDefect? <|> d.permissionDefect? <|> d.reachDefect?

/-- Reads a description and accepts it only without defect. -/
def validate (raw : Json) : Except Failure Description := do
  let d ← ofJson raw
  match d.defect? with
  | some defect => .error (.invalid defect)
  | none => .ok d

/-! ### Lemmas -/

theorem isIndex_iff {n : Int} {length : Nat} :
    isIndex n length = true ↔ 0 ≤ n ∧ n < length := by
  simp [isIndex]

theorem validate_eq_ok_iff {raw : Json} {d : Description} :
    validate raw = .ok d ↔ ofJson raw = .ok d ∧ d.defect? = none := by
  unfold validate
  cases ofJson raw with
  | error e => simp [bind, Except.bind]
  | ok d' =>
      simp only [bind, Except.bind, Except.ok.injEq]
      cases hd : d'.defect? with
      | none =>
          simp only [Except.ok.injEq]
          exact ⟨fun h => ⟨h, h ▸ hd⟩, fun h => h.1⟩
      | some e =>
          simp only [reduceCtorEq, false_iff, not_and]
          rintro rfl
          simp [hd]

end Description

end Editorial
