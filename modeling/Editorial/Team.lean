import Editorial.Draft.Access
import Editorial.Operation

/-!
# Teams and modules

What comes from outside of the editing processes: memberships and published modules, and what the
directory of users says about them.
-/

namespace Editorial

open Ordered

/-- What the directory says about a user and a team. -/
structure DirectoryEntry where
  /-- The roles of the user in the team. -/
  roles : List Int
  /-- The members of the team. -/
  members : List Int
  /-- The teams of the user. -/
  teams : List Int
  deriving DecidableEq, Repr

namespace Store

/-- What the directory says about a user and a team. -/
def directory (s : Store) (user team : Int) : Except Failure DirectoryEntry := do
  requireStorable user
  requireStorable team
  return {
    roles := (s.roleOf? team user).toList
    members := ascending (s.membersOf team)
    teams := ascending (s.teamsOf user) }

/-- Whether a user of a team may take the slot with an id. -/
def eligible (s : Store) (slot user team : Int) : Except Failure Bool := do
  let slot ← s.slot slot
  requireStorable team
  return s.isEligible slot team user

/-- Fails for a user whom the slot with an id does not admit. -/
def requireRoleFor (s : Store) (slot user team : Int) : Except Failure Unit := do
  let slot ← s.slot slot
  s.requireRole slot team user

/-- The member of a team whom autofill would seat in the slot with an id. -/
def candidateFor (s : Store) (slot team : Int) : Except Failure (Option Int) := do
  let slot ← s.slot slot
  requireStorable team
  return s.candidate? slot team

/-- The slots that take part in the step with an id. -/
def activeSlotsOf (s : Store) (step : Int) : Except Failure (List Slot) := do
  requireStorable step
  match s.step? step with
  | some (v, step) => return v.activeSlots step
  | none => throw (.notFound .step (Number.integerText step))

end Store

namespace Directory

/-- Sets the membership of a user in a team. -/
def setMember (c : Conditions) (s : Store) (m : Member) : Outcome Unit :=
  complete c s Failure.database do
    requireStorable m.team
    requireStorable m.user
    return {
      value := ()
      store := s.putMember m
      events := []
      flaw := oversizedIf (m.role.any fun role => !isStorable role) }

/-- The key of a membership as a message shows it. -/
def memberKey (team user : Int) : String :=
  "(" ++ Number.integerText team ++ ", " ++ Number.integerText user ++ ")"

/-- Ends the membership of a user in a team. -/
def removeMember (c : Conditions) (s : Store) (team user : Int) : Outcome Unit :=
  complete c s Failure.database do
    requireStorable team
    requireStorable user
    if (s.member? team user).isNone then throw (.notFound .member (memberKey team user))
    return { value := (), store := s.removeMember team user, events := [], flaw := none }

/-- Why a module cannot be stored. When it was changed is noted with it, unless nothing about it
changes. -/
def moduleFlaw (c : Conditions) (s : Store) (m : Module) : Option Failure :=
  if s.module? m.id = some m then none
  else
    match c.requireStamp with
    | .error f => some f
    | .ok _ => oversizedIf (!isStorable m.team || !isStorable m.document)

/-- Sets a module. -/
def setModule (c : Conditions) (s : Store) (m : Module) : Outcome Unit :=
  complete c s Failure.database do
    return { value := (), store := s.putModule m, events := [], flaw := moduleFlaw c s m }

end Directory

end Editorial
