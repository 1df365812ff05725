import Editorial.Store.Basic

/-!
# Who may do what

A user's permissions in a draft are what its current step grants to the slots that the user holds
(`mem_permissionsFor`). A member of the team whom the role limit of a slot admits may take the slot.
A draft may be read by those who manage the drafts of its team, by those seated in it and by those
who could take one of the free slots of its current step. Permissions in a team come from the
membership.
-/

namespace Editorial

/-- The team permission to change process definitions. -/
def editPermission : String := "editing-process:edit"

/-- The team permission to manage drafts. -/
def managePermission : String := "editing-process:manage"

namespace Store

/-! ### Permissions in a draft -/

/-- What a user may do in a draft at its current step. -/
def permissionsFor (s : Store) (d : Draft) (user : Int) : List Permission :=
  match s.stepOf? d with
  | some step => Permission.all.filter fun p =>
      d.seats.any fun seat => seat.user == user && step.grantsTo seat.slot p
  | none => []

/-- Whether a user has a permission in a draft; only texts that stand for permissions can be asked
about. -/
def hasPermission (s : Store) (d : Draft) (user : Int) (permission : Json) :
    Except Failure Bool := do
  match permission with
  | .text (.whole t) =>
      match Permission.ofText? t with
      | some p =>
          requireStorable user
          return (s.permissionsFor d user).contains p
      | none => throw (.unknownPermission permission)
  | _ => throw (.unknownPermission permission)

/-! ### Taking slots -/

/-- Whether a user of a team may take a slot. -/
def isEligible (s : Store) (slot : Slot) (team user : Int) : Bool :=
  (s.member? team user).isSome && slot.admits (s.roleOf? team user)

/-- Fails for a user whom the role limit of a slot does not admit. Without a limit the user need not
even be a member of the team. -/
def requireRole (s : Store) (slot : Slot) (team user : Int) : Except Failure Unit := do
  unless slot.roles.isEmpty do
    requireStorable user
    requireStorable team
    unless slot.admits (s.roleOf? team user) do throw (.badRole user slot.name)

/-- The members of a team who may take a slot. -/
def candidates (s : Store) (slot : Slot) (team : Int) : List Int :=
  (s.membersOf team).filter fun user => slot.admits (s.roleOf? team user)

/-- The member of a team who may take a slot and holds slots in the fewest drafts; of several the
one with the least id. -/
def candidate? (s : Store) (slot : Slot) (team : Int) : Option Int :=
  Ordered.least? (fun a b => s.load a < s.load b || (s.load a == s.load b && a < b))
    (s.candidates slot team)

/-- The free slots of the current step of a draft that a user could take. -/
def freeSlots (s : Store) (d : Draft) (user : Int) : List Slot :=
  (s.activeSlots d).filter fun slot =>
    (d.occupant? slot.id).isNone && s.isEligible slot d.team user

/-- Whether a user may read a draft. -/
def canAccess (s : Store) (d : Draft) (user : Int) (manager : Bool) : Bool :=
  manager || d.isSeated user || !(s.freeSlots d user).isEmpty

/-- The drafts of the teams of a user, oldest first, drafts of one age by module. -/
def draftsOfTeams (s : Store) (user : Int) : List Draft :=
  Ordered.sortBy
    (fun a b => a.created.before b.created ||
      (a.created == b.created && !(b.module < a.module : Bool)))
    (s.drafts.filter fun d => (s.teamsOf user).contains d.team)

/-! ### Permissions in a team -/

/-- Whether a user, if there is one, has a permission in a team. -/
def teamPermission (s : Store) (user : Option Int) (team : Int) (permission : String) :
    Except Failure Bool := do
  match user with
  | none => return false
  | some user =>
      requireStorable user
      requireStorable team
      return s.hasTeamPermission team user permission

/-- Fails for a user without a permission in a team. -/
def requireTeamPermission (s : Store) (user : Option Int) (team : Int) (permission : String) :
    Except Failure Unit := do
  unless ← s.teamPermission user team permission do throw (.missingTeamPermission permission)

/-! ### Lemmas -/

theorem mem_permissionsFor {s : Store} {d : Draft} {user : Int} {p : Permission} :
    p ∈ s.permissionsFor d user ↔
      ∃ step, s.stepOf? d = some step ∧
        ∃ seat ∈ d.seats, seat.user = user ∧ step.grantsTo seat.slot p = true := by
  unfold permissionsFor
  cases s.stepOf? d with
  | none => simp
  | some step => simp [Permission.mem_all]

theorem mem_freeSlots {s : Store} {d : Draft} {user : Int} {slot : Slot} :
    slot ∈ s.freeSlots d user ↔
      slot ∈ s.activeSlots d ∧ d.occupant? slot.id = none ∧
        s.isEligible slot d.team user = true := by
  simp [freeSlots]

theorem candidate?_mem {s : Store} {slot : Slot} {team user : Int}
    (h : s.candidate? slot team = some user) : user ∈ s.candidates slot team :=
  Ordered.least?_mem h

end Store

end Editorial
