import Editorial.Process.Description
import Editorial.Store.Listing

/-!
# Versions and descriptions

`Version.ofDescription` gives the parts of a description ids: slots, steps and links are numbered in
the order of the description, links across its steps. `Version.description` goes back to positions,
and `Version.tree` shows a version by position with the ids of its slots and steps added.
-/

namespace Editorial

open Json Ordered

namespace Grant

/-- The order of the grants of a step. -/
def le (a b : Grant) : Bool :=
  a.slot < b.slot || (a.slot == b.slot && a.permission.rank ≤ b.permission.rank)

end Grant

namespace Link

/-- The order of the links of a step. -/
def le (a b : Link) : Bool :=
  a.slot < b.slot || (a.slot == b.slot && a.target ≤ b.target)

end Link

/-- The slots of a description, numbered from the first argument on. -/
def numberSlots : Int → List SlotSpec → List Slot
  | _, [] => []
  | id, s :: rest => ⟨id, s.name.shown, s.roles, s.autofill⟩ :: numberSlots (id + 1) rest

/-- The links of a step, numbered from the third argument on, given the ids of the first slot and
the first step. -/
def numberLinks (firstSlot firstStep : Int) : Int → List LinkSpec → List Link
  | _, [] => []
  | id, l :: rest =>
      ⟨id, l.name.shown, firstStep + l.target, firstSlot + l.slot⟩ ::
        numberLinks firstSlot firstStep (id + 1) rest

/-- The grants of a step, given the id of the first slot. -/
def numberGrants (firstSlot : Int) (grants : List GrantSpec) : List Grant :=
  grants.map fun g => ⟨firstSlot + g.slot, g.permission⟩

/-- The steps of a description, numbered from `id` on, and their links from `link` on. -/
def numberSteps (firstSlot firstStep : Int) : (id link : Int) → List StepSpec → List Step
  | _, _, [] => []
  | id, link, s :: rest =>
      { id
        name := s.name.shown
        grants := sortBy Grant.le (numberGrants firstSlot s.grants)
        links := sortBy Link.le (numberLinks firstSlot firstStep link s.links) } ::
        numberSteps firstSlot firstStep (id + 1) (link + s.links.length) rest

/-- The ids that the first parts of a new version get. -/
structure FirstIds where
  slot : Int
  step : Int
  link : Int

/-- The ids that the first parts of the next version of a store get. -/
def Store.firstIds (s : Store) : FirstIds :=
  { slot := nextId (s.allSlots.map Slot.id)
    step := nextId (s.allSteps.map Step.id)
    link := nextId (s.allLinks.map Link.id) }

namespace Version

/-- The version of a process that a description describes. -/
def ofDescription (id process : Int) (created : Instant) (first : FirstIds) (d : Description) :
    Version :=
  { id
    process
    created
    start := first.step + d.start
    slots := numberSlots first.slot d.slots
    steps := numberSteps first.slot first.step first.step first.link d.steps }

/-- The position of a slot. -/
def slotIndex (v : Version) (id : Int) : Int := (v.slots.map Slot.id).idxOf id

/-- The position of a step. -/
def stepIndex (v : Version) (id : Int) : Int := (v.steps.map Step.id).idxOf id

/-- The description of a step by position. -/
def stepSpec (v : Version) (s : Step) : StepSpec :=
  { name := s.name
    grants := s.grants.map fun g => ⟨v.slotIndex g.slot, g.permission⟩
    links := s.links.map fun l => ⟨l.name, v.stepIndex l.target, v.slotIndex l.slot⟩ }

/-- The description of a version under the name of its process. -/
def description (v : Version) (name : String) : Description :=
  { name
    start := v.stepIndex v.start
    slots := v.slots.map fun s => ⟨s.name, s.roles, s.autofill⟩
    steps := v.steps.map v.stepSpec }

/-- A step of the tree of a version. -/
def stepTree (v : Version) (s : Step) : Json :=
  let spec := v.stepSpec s
  object [
    ("id", int s.id),
    ("name", text spec.name),
    ("slots", array <| spec.grants.map fun g =>
      object [("slot", int g.slot), ("permission", text g.permission.text)]),
    ("links", array <| spec.links.map fun l =>
      object [("name", text l.name), ("to", int l.target), ("slot", int l.slot)])]

/-- A version by position, with the ids of its slots and steps. -/
def tree (v : Version) (name : String) : Json :=
  object [
    ("name", text name),
    ("start", int (v.description name).start),
    ("slots", array <| v.slots.map fun s => object s.fields),
    ("steps", array (v.steps.map v.stepTree))]

/-! ### Lemmas -/

theorem length_numberSlots (id : Int) (specs : List SlotSpec) :
    (numberSlots id specs).length = specs.length := by
  induction specs generalizing id with
  | nil => rfl
  | cons s rest ih => simp [numberSlots, ih]

theorem length_numberSteps (firstSlot firstStep id link : Int) (specs : List StepSpec) :
    (numberSteps firstSlot firstStep id link specs).length = specs.length := by
  induction specs generalizing id link with
  | nil => rfl
  | cons s rest ih => simp [numberSteps, ih]

end Version

/-- The tree of a version under the name of its process. -/
def Store.tree (s : Store) (v : Version) : Json :=
  v.tree (((s.process? v.process).map Process.name).getD "")

end Editorial
