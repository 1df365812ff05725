import Editorial.Draft.Access
import Editorial.Store.Listing

/-!
# Drafts as seen by users

What a user is shown of a draft: its current step with the occupants of the slots that take part in
it, the links that the user can follow and the user's permissions. `Store.processStatus` shows all
slots of the version instead, whoever asks.
-/

namespace Editorial

open Json

namespace Store

/-- A slot of a draft with its occupant and what the current step grants to it. -/
def slotView (s : Store) (d : Draft) (slot : Slot) : Json :=
  object [
    ("slot", object slot.fields),
    ("user", ofOption int (d.occupant? slot.id)),
    ("permissions",
      permissionTexts (((s.stepOf? d).map fun step => step.permissionsOf slot.id).getD []))]

/-- The links from the current step of a draft that a user can follow. -/
def openLinks (s : Store) (d : Draft) (user : Int) : List Link :=
  match s.stepOf? d with
  | some step => step.links.filter fun l =>
      d.seats.any fun seat => seat.user == user && seat.slot == l.slot
  | none => []

/-- The current step of a draft as seen by a user. -/
def stepView (s : Store) (d : Draft) (user : Int) : Json :=
  match s.stepOf? d with
  | some step =>
      object [
        ("id", int step.id),
        ("name", text step.name),
        ("final", bool step.isFinal),
        ("slots", array ((s.activeSlots d).map (s.slotView d))),
        ("links", array ((s.openLinks d user).map Link.toJson))]
  | none => null

/-- A draft as seen by a user. -/
def projection (s : Store) (d : Draft) (user : Int) : Except Failure Json := do
  requireStorable user
  return object <|
    extend (put (d.fields s) "step" (s.stepView d user))
      [("permissions", permissionTexts (s.permissionsFor d user))]

/-- All slots of the version of a draft, with their occupants and permissions. -/
def processStatus (s : Store) (d : Draft) : List Json :=
  (s.slotsOf d).map (s.slotView d)

/-- Whether a user manages the drafts of the team of a draft. -/
def isManager (s : Store) (d : Draft) (user : Int) : Bool :=
  s.hasTeamPermission d.team user managePermission

/-- The drafts of a user's teams that the user may read, oldest first. -/
def draftsFor (s : Store) (user : Int) : Except Failure (List Draft) := do
  requireStorable user
  return (s.draftsOfTeams user).filter fun d => s.canAccess d user (s.isManager d user)

end Store

end Editorial
