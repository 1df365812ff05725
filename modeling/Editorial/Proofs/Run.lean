import Editorial.Draft.Lifecycle
import Editorial.Process.Definitions
import Editorial.Team

/-!
# Runs

What can be done to a store, as data: an operation on process definitions, on drafts, or on the
modules and memberships that come from outside. Every operation finds its own conditions: its
moment, the switch for autofill and everything that may go wrong around it. `Reachable` holds of the
stores that come about from the empty one in a finite run of such turns, whether they succeed or
fail; `Reachable.induction` is the induction over runs.
-/

namespace Editorial

/-- The operations on process definitions, with their arguments. -/
inductive Definitions.Operation where
  | createProcess (team : Int) (raw : Json)
  | createVersion (process : Int) (raw : Json)
  | rename (process : Int) (name : Json)
  | deleteVersion (process : Int) (version : Option Int)
  | deleteProcess (process : Int)

/-- The operations on drafts, with their arguments. -/
inductive Drafting.Operation where
  | begin (module : String) (process : Int) (placements : List Placement)
  | advance (module : String) (user slot target : Int)
  | cancel (module : String)
  | assign (module : String) (slot user : Int)
  | claim (module : String) (slot user : Int)
  | unassign (module : String) (slot : Int)

/-- What comes from outside: modules and memberships. -/
inductive Directory.Operation where
  | setModule (m : Module)
  | setMember (m : Member)
  | removeMember (team user : Int)

namespace Definitions.Operation

/-- What an operation on process definitions answers. -/
def Answer : Operation → Type
  | createProcess .. | createVersion .. => Version
  | rename .. => Process
  | deleteVersion .. | deleteProcess .. => Unit

/-- Carries out an operation on process definitions. -/
def perform (c : Conditions) (s : Store) : (op : Operation) → Outcome op.Answer
  | createProcess team raw => Definitions.createProcess c s team raw
  | createVersion process raw => onProcess s process fun p => Definitions.createVersion c s p raw
  | rename process name => onProcess s process fun p => Definitions.rename c s p name
  | deleteVersion process version =>
      onVersion s process version fun v => Definitions.deleteVersion c s v
  | deleteProcess process => onProcess s process fun p => Definitions.deleteProcess c s p

end Definitions.Operation

namespace Drafting.Operation

/-- What an operation on drafts answers. -/
def Answer : Operation → Type
  | begin .. | assign .. | claim .. => Draft
  | advance .. => Advance
  | cancel .. => Unit
  | unassign .. => Option Int

/-- Carries out an operation on drafts. -/
def perform (c : Conditions) (s : Store) : (op : Operation) → Outcome op.Answer
  | begin module process placements => Drafting.begin c s module process placements
  | advance module user slot target => Drafting.advance c s module user slot target
  | cancel module => Drafting.cancel c s module
  | assign module slot user => Drafting.assign c s module slot user
  | claim module slot user => Drafting.claim c s module slot user
  | unassign module slot => Drafting.unassign c s module slot

end Drafting.Operation

/-- Carries out what comes from outside. -/
def Directory.Operation.perform (c : Conditions) (s : Store) : Operation → Outcome Unit
  | setModule m => Directory.setModule c s m
  | setMember m => Directory.setMember c s m
  | removeMember team user => Directory.removeMember c s team user

/-- Something that is done to a store. -/
inductive Action where
  | define (op : Definitions.Operation)
  | draft (op : Drafting.Operation)
  | direct (op : Directory.Operation)

/-- An action under the conditions that it finds. -/
structure Turn where
  conditions : Conditions
  action : Action

namespace Store

/-- The store after a turn. -/
def after (s : Store) (t : Turn) : Store :=
  match t.action with
  | .define op => (op.perform t.conditions s).store
  | .draft op => (op.perform t.conditions s).store
  | .direct op => (op.perform t.conditions s).store

/-- The store after some turns. -/
def afterAll (s : Store) (turns : List Turn) : Store := turns.foldl after s

end Store

/-- A store that comes about from the empty one in a finite run. -/
def Reachable (s : Store) : Prop := ∃ turns, Store.empty.afterAll turns = s

theorem Reachable.after {s : Store} (h : Reachable s) (t : Turn) : Reachable (s.after t) := by
  obtain ⟨turns, rfl⟩ := h
  exact ⟨turns ++ [t], by simp [Store.afterAll]⟩

/-! ### A run

An author writes, an editor whom autofill seats rejects or accepts. The run brings a module under
this process with its author seated; statements about reachable stores are tried on it.
-/

namespace Review

open Json

/-- A step of the description, with its grants and links. -/
def step (name : String) (grants : List (Int × Permission)) (links : List (String × Int × Int)) :
    Json :=
  object [
    ("name", text name),
    ("slots", array <| grants.map fun g =>
      object [("slot", int g.1), ("permission", text g.2.text)]),
    ("links", array <| links.map fun l =>
      object [("name", text l.1), ("to", int l.2.1), ("slot", int l.2.2)])]

/-- Writing and reviewing until the editor accepts. -/
def description : Json :=
  object [
    ("name", text "Review"),
    ("start", int 0),
    ("slots", array [
      object [("name", text "Author"), ("roles", array []), ("autofill", bool false)],
      object [("name", text "Editor"), ("roles", array [int 7]), ("autofill", bool true)]]),
    ("steps", array [
      step "Writing" [(0, .edit)] [("submit", 1, 0)],
      step "Reviewing" [(0, .view), (1, .proposeChanges)] [("reject", 0, 1), ("accept", 2, 1)],
      step "Done" [(0, .view)] []])]

/-- The conditions of every turn of the run. -/
def conditions : Conditions := .smooth ⟨0⟩ true

/-- The turns of the run. -/
def turns : List Turn :=
  [.direct (.setModule ⟨"m", 1, "", 100⟩), .direct (.setMember ⟨1, 6, some 7, []⟩),
    .define (.createProcess 1 description), .draft (.begin "m" 1 [⟨int 1, int 4⟩])].map
    (Turn.mk conditions)

/-- The store after the run. -/
def store : Store := Store.empty.afterAll turns

theorem reachable : Reachable store := ⟨turns, rfl⟩

/-- The draft while the author writes. -/
def begun : Draft :=
  { module := "m", team := 1, version := 1, step := 1, document := 1, created := ⟨0⟩
    seats := [⟨1, 4⟩] }

theorem draft?_store : store.draft? "m" = some begun := by decide +kernel

/-- The draft once the author has submitted it. -/
def submitted : Draft := { begun with step := 2, seats := [⟨1, 4⟩, ⟨2, 6⟩] }

/-- The store once the author has submitted the draft. -/
def reviewing : Store := store.after ⟨conditions, .draft (.advance "m" 4 1 2)⟩

theorem reachable_reviewing : Reachable reviewing := reachable.after _

theorem draft?_reviewing : reviewing.draft? "m" = some submitted := by decide +kernel

end Review

end Editorial
