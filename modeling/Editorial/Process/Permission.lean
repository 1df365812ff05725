/-!
# Permissions

What a step can grant to a slot. Editing and proposing changes are exclusive: at one step at most
one slot may have either, and no two slots may have one each.
-/

namespace Editorial

/-- A permission that a step grants to a slot. -/
inductive Permission where
  | acceptChanges
  | edit
  | proposeChanges
  | view
  deriving DecidableEq, Repr

namespace Permission

/-- All permissions, in the order of their texts. -/
def all : List Permission := [acceptChanges, edit, proposeChanges, view]

/-- The text that stands for a permission. -/
def text : Permission → String
  | acceptChanges => "accept_changes"
  | edit => "edit"
  | proposeChanges => "propose_changes"
  | view => "view"

/-- The permission that a text stands for. -/
def ofText? (s : String) : Option Permission :=
  all.find? fun p => p.text == s

/-- The place of a permission in the order of the texts. -/
def rank : Permission → Nat
  | acceptChanges => 0
  | edit => 1
  | proposeChanges => 2
  | view => 3

/-- Whether at most one slot of a step may have the permission. -/
def isExclusive : Permission → Bool
  | edit => true
  | proposeChanges => true
  | _ => false

/-! ### Lemmas -/

theorem mem_all (p : Permission) : p ∈ all := by
  cases p <;> decide

theorem ofText?_text (p : Permission) : ofText? p.text = some p := by
  cases p <;> decide

theorem text_injective {p q : Permission} (h : p.text = q.text) : p = q := by
  have := congrArg ofText? h
  rw [ofText?_text, ofText?_text] at this
  exact Option.some.inj this

end Permission

end Editorial
