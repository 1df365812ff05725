import Editorial.Failure
import Editorial.Ordered
import Editorial.Store.Row

/-!
# The store

All rows, each table a list in the order in which its rows were added, and the questions that
operations ask of it. A row that is added gets the largest id of its table plus one. `Store.draft`
and its like look a row up by key or fail with the report that names it.
-/

namespace Editorial

open Ordered Number

/-- Everything that is stored. -/
structure Store where
  processes : List Process
  versions : List Version
  drafts : List Draft
  runs : List Run
  modules : List Module
  documents : List Document
  members : List Member
  events : List Event

/-- The first whole number that is too large for the database, the 63rd power of two. -/
def storableLimit : Int := 9223372036854775808

/-- Whether the database can hold a whole number. -/
def isStorable (n : Int) : Bool :=
  -storableLimit ≤ n && n < storableLimit

/-- Fails for a whole number that the database cannot hold. -/
def requireStorable (n : Int) : Except Failure Unit :=
  if isStorable n then .ok () else .error .oversized

/-- The id of the next row of a table with these ids. -/
def nextId (ids : List Int) : Int :=
  ids.foldl max 0 + 1

namespace Store

/-- Nothing stored. -/
def empty : Store :=
  { processes := [], versions := [], drafts := [], runs := [], modules := [], documents := []
    members := [], events := [] }

/-! ### Process definitions -/

/-- The process with an id. -/
def process? (s : Store) (id : Int) : Option Process :=
  s.processes.find? fun p => p.id == id

/-- The process with a name. -/
def processNamed? (s : Store) (name : String) : Option Process :=
  s.processes.find? fun p => p.name == name

/-- The version with an id. -/
def version? (s : Store) (id : Int) : Option Version :=
  s.versions.find? fun v => v.id == id

/-- Whether a version comes before another one in a listing: the later one first, and of two from
the same moment the one with the greater id. -/
def newer (a b : Version) : Bool :=
  b.created.before a.created || (a.created == b.created && b.id ≤ a.id)

/-- The versions of a process, newest first. -/
def versionsOf (s : Store) (process : Int) : List Version :=
  sortBy newer (s.versions.filter fun v => v.process == process)

/-- Whether a version was made after another one: at a later moment, or at the same moment with a
greater id. -/
def later (a b : Version) : Bool :=
  b.created.before a.created || (a.created == b.created && b.id < a.id)

/-- The newest version of a process. -/
def latest? (s : Store) (process : Int) : Option Version :=
  least? later (s.versions.filter fun v => v.process == process)

/-- The slot with an id in a version with an id. -/
def slotIn? (s : Store) (version id : Int) : Option Slot :=
  (s.version? version).bind fun v => v.slot? id

/-- The slot with an id, of whatever version. -/
def slot? (s : Store) (id : Int) : Option Slot :=
  s.versions.findSome? fun v => v.slot? id

/-- The step with an id in a version with an id. -/
def stepIn? (s : Store) (version id : Int) : Option Step :=
  (s.version? version).bind fun v => v.step? id

/-- The version that has a step with an id, and the step. -/
def step? (s : Store) (id : Int) : Option (Version × Step) :=
  s.versions.findSome? fun v => (v.step? id).map fun step => (v, step)

/-- All slots, by id. -/
def allSlots (s : Store) : List Slot := s.versions.flatMap Version.slots

/-- All steps, by id. -/
def allSteps (s : Store) : List Step := s.versions.flatMap Version.steps

/-- All links. -/
def allLinks (s : Store) : List Link := s.allSteps.flatMap Step.links

/-! ### Drafts -/

/-- The draft of a module. -/
def draft? (s : Store) (module : String) : Option Draft :=
  s.drafts.find? fun d => d.module == module

/-- The store with a draft in place of the one of the same module. -/
def putDraft (s : Store) (d : Draft) : Store :=
  { s with drafts := s.drafts.map fun e => if e.module = d.module then d else e }

/-- The store without the draft of a module. -/
def removeDraft (s : Store) (module : String) : Store :=
  { s with drafts := s.drafts.filter fun d => d.module != module }

/-- The slots of the version of a draft, by id. -/
def slotsOf (s : Store) (d : Draft) : List Slot :=
  ((s.version? d.version).map Version.slots).getD []

/-- The step at which a draft is. -/
def stepOf? (s : Store) (d : Draft) : Option Step :=
  s.stepIn? d.version d.step

/-- The slots that take part in the current step of a draft, by id. -/
def activeSlots (s : Store) (d : Draft) : List Slot :=
  match s.version? d.version, s.stepOf? d with
  | some v, some step => v.activeSlots step
  | _, _ => []

/-- The number of drafts in which a user holds a slot. -/
def load (s : Store) (user : Int) : Nat :=
  s.drafts.countP fun d => d.isSeated user

/-! ### Runs, modules and documents -/

/-- The newest active run of a module. -/
def openRun? (s : Store) (module : String) : Option Run :=
  least? (fun a b => b.id < a.id)
    (s.runs.filter fun r => r.module == module && r.outcome == .active)

/-- The run with an id. -/
def run? (s : Store) (id : Int) : Option Run :=
  s.runs.find? fun r => r.id == id

/-- The store with a run closed. -/
def closeRun (s : Store) (id : Int) (outcome : RunOutcome) (now : Instant) : Store :=
  { s with runs := s.runs.map fun r =>
      if r.id = id then { r with outcome := outcome, ended := some now } else r }

/-- The module with an id. -/
def module? (s : Store) (id : String) : Option Module :=
  s.modules.find? fun m => m.id == id

/-- The store with another current revision of a module. -/
def publish (s : Store) (module : String) (document : Int) : Store :=
  { s with modules := s.modules.map fun m =>
      if m.id = module then { m with document := document } else m }

/-! ### Teams -/

/-- The membership of a user in a team. -/
def member? (s : Store) (team user : Int) : Option Member :=
  s.members.find? fun m => m.team == team && m.user == user

/-- The role of a user in a team. -/
def roleOf? (s : Store) (team user : Int) : Option Int :=
  (s.member? team user).bind Member.role

/-- The members of a team. -/
def membersOf (s : Store) (team : Int) : List Int :=
  (s.members.filter fun m => m.team == team).map Member.user

/-- The teams of a user. -/
def teamsOf (s : Store) (user : Int) : List Int :=
  (s.members.filter fun m => m.user == user).map Member.team

/-- Whether a user has a permission in a team. -/
def hasTeamPermission (s : Store) (team user : Int) (permission : String) : Bool :=
  match s.member? team user with
  | some m => m.permissions.contains permission
  | none => false

/-! ### Setting rows -/

/-- The store with a module, in place of the one with the same id. -/
def putModule (s : Store) (m : Module) : Store :=
  if (s.module? m.id).isSome then
    { s with modules := s.modules.map fun e => if e.id = m.id then m else e }
  else { s with modules := s.modules ++ [m] }

/-- The store with a membership, in place of the one of the same user in the same team. -/
def putMember (s : Store) (m : Member) : Store :=
  if (s.member? m.team m.user).isSome then
    { s with members := s.members.map fun e =>
        if e.team = m.team ∧ e.user = m.user then m else e }
  else { s with members := s.members ++ [m] }

/-- The store without the membership of a user in a team. -/
def removeMember (s : Store) (team user : Int) : Store :=
  { s with members := s.members.filter fun m => !(m.team == team && m.user == user) }

/-! ### Looking up or failing -/

/-- The process with an id. -/
def process (s : Store) (id : Int) : Except Failure Process := do
  requireStorable id
  match s.process? id with
  | some p => return p
  | none => throw (.notFound .process (integerText id))

/-- The newest version of a process. -/
def latest (s : Store) (process : Int) : Except Failure Version :=
  match s.latest? process with
  | some v => .ok v
  | none => .error (.notFound .version ("latest of " ++ integerText process))

/-- The version of a process with an id. -/
def version (s : Store) (process id : Int) : Except Failure Version := do
  requireStorable id
  match s.version? id with
  | some v =>
      if v.process = process then return v
      else throw (.notFound .version (integerText id))
  | none => throw (.notFound .version (integerText id))

/-- The step of a version with an id. -/
def step (_ : Store) (v : Version) (id : Int) : Except Failure Step := do
  requireStorable id
  match v.step? id with
  | some step => return step
  | none => throw (.notFound .step (integerText id))

/-- The slot with an id of a version with an id. -/
def slotIn (s : Store) (version id : Int) : Except Failure Slot := do
  requireStorable id
  match s.slotIn? version id with
  | some slot => return slot
  | none => throw (.notFound .slot (integerText id))

/-- The slot with an id, of whatever version. -/
def slot (s : Store) (id : Int) : Except Failure Slot := do
  requireStorable id
  match s.slot? id with
  | some slot => return slot
  | none => throw (.notFound .slot (integerText id))

/-- The draft of a module. -/
def draft (s : Store) (module : String) : Except Failure Draft :=
  match s.draft? module with
  | some d => .ok d
  | none => .error (.notFound .draft module)

/-- The module with an id. -/
def module (s : Store) (id : String) : Except Failure Module :=
  match s.module? id with
  | some m => .ok m
  | none => .error (.notFound .module id)

/-- The run with an id. -/
def run (s : Store) (id : Int) : Except Failure Run := do
  requireStorable id
  match s.run? id with
  | some r => return r
  | none => throw (.notFound .run (integerText id))

/-! ### Lemmas -/

theorem requireStorable_of {n : Int} (h : isStorable n = true) : requireStorable n = .ok () := by
  simp [requireStorable, h]

theorem draft?_putDraft (s : Store) (d : Draft) (module : String) :
    (s.putDraft d).draft? module =
      if module = d.module then (s.draft? module).map fun _ => d else s.draft? module := by
  unfold putDraft draft?
  dsimp only
  induction s.drafts with
  | nil => simp
  | cons e rest ih =>
      simp only [List.map_cons, List.find?_cons]
      by_cases he : e.module = d.module
      · by_cases h : module = d.module
        · simp [he, h]
        · have hne : (d.module == module) = false := by simpa using Ne.symm h
          rw [if_neg h] at ih ⊢
          simp only [he, if_true, hne, ih]
      · rw [if_neg he]
        by_cases hm : e.module = module
        · have h : module ≠ d.module := fun e' => he (hm.trans e')
          simp [hm, h]
        · have hne : (e.module == module) = false := by simpa using hm
          simp only [hne, ih]

theorem draft?_removeDraft (s : Store) (removed module : String) :
    (s.removeDraft removed).draft? module =
      if module = removed then none else s.draft? module := by
  unfold removeDraft draft?
  dsimp only
  rw [List.find?_filter]
  by_cases h : module = removed
  · rw [if_pos h]
    simp [h]
  · rw [if_neg h]
    congr 1
    funext e
    by_cases he : e.module = module
    · simp [he, h]
    · simp [he]

end Store

end Editorial
