import Editorial.Proofs.Operation
import Editorial.Proofs.Run

/-!
# Operations and the event sink

What an operation prepares does not depend on the events that are stored, and what comes of it does
not depend on the event sink: the sink is asked after the commit. So an operation ends as it does on
the store without its events (`Store.untold`), with a sink that takes everything
(`Conditions.delivering`): with the same result, and the same tables apart from events
(`Outcome.Agrees`). `SameWork` compares what two computations prepare, with a rule for each way in
which they go on; from these follows one lemma for each operation (`Definitions.Operation.agrees`,
`Directory.Operation.agrees`, `Drafting.Operation.agrees`). The beginning of a draft is left out,
since it looks at the database again after all has been told.
-/

namespace Editorial

/-! ### Without events -/

/-- The store without its events. -/
def Store.untold (s : Store) : Store := { s with events := [] }

/-- Work on a store without its events. -/
def Work.untold {α : Type} (w : Work α) : Work α := { w with store := w.store.untold }

/-- The same conditions with an event sink that takes whatever it is given. -/
def Conditions.delivering (c : Conditions) : Conditions :=
  { c with
    refuses := fun _ => false
    commitError := fun n => if n = 0 then c.commitError 0 else none }

theorem Store.Extends.untold_eq {s t : Store} (h : s.Extends t) : s.untold = t.untold := by
  obtain ⟨es, rfl⟩ := h
  rfl

theorem Work.untold_eq_iff {α : Type} {w w' : Work α} :
    w.untold = w'.untold ↔ w.value = w'.value ∧ w.store.untold = w'.store.untold ∧
      w.events = w'.events ∧ w.flaw = w'.flaw :=
  Work.mk.injEq .. ▸ Iff.rfl

theorem Store.draft?_eq_of_untold {s t : Store} (h : s.untold = t.untold) (module : String) :
    s.draft? module = t.draft? module := by
  show s.untold.draft? module = t.untold.draft? module
  rw [h]

/-- Two computations fail alike, or prepare the same work apart from events that are stored. -/
def SameWork {α : Type} (x y : Except Failure (Work α)) : Prop :=
  x.map Work.untold = y.map Work.untold

/-- Two operations end alike, with the same tables apart from events. -/
structure Outcome.Agrees {α : Type} (o o' : Outcome α) : Prop where
  result : o.result = o'.result
  store : o.store.untold = o'.store.untold

/-! ### Computations that may fail -/

namespace SameWork

variable {α β : Type} {x y : Except Failure (Work α)}

theorem bind {m : Except Failure β} {f g : β → Except Failure (Work α)}
    (h : ∀ b, SameWork (f b) (g b)) : SameWork (m >>= f) (m >>= g) := by
  cases m with
  | error e => rfl
  | ok b => exact h b

theorem guard {p : Prop} [Decidable p] {e : Failure} {f g : PUnit → Except Failure (Work α)}
    (h : SameWork x y) :
    SameWork (if p then throw e >>= f else x) (if p then throw e >>= g else y) := by
  by_cases hp : p
  · rw [if_pos hp, if_pos hp]
    rfl
  · rw [if_neg hp, if_neg hp]
    exact h

theorem require {p : Prop} [Decidable p] {e : Failure} {f g : PUnit → Except Failure (Work α)}
    (h : SameWork x y) :
    SameWork (if p then x else throw e >>= f) (if p then y else throw e >>= g) := by
  by_cases hp : p
  · rw [if_pos hp, if_pos hp]
    exact h
  · rw [if_neg hp, if_neg hp]
    rfl

theorem ite {p : Prop} [Decidable p] {x' y' : Except Failure (Work α)} (h : SameWork x y)
    (h' : SameWork x' y') : SameWork (if p then x else x') (if p then y else y') := by
  by_cases hp : p
  · rw [if_pos hp, if_pos hp]
    exact h
  · rw [if_neg hp, if_neg hp]
    exact h'

theorem pure {w w' : Work α} (h : w.untold = w'.untold) :
    SameWork (Pure.pure w : Except Failure (Work α)) (Pure.pure w') :=
  congrArg Except.ok h

theorem mapError (h : SameWork x y) (f : Failure → Failure) :
    SameWork (x.mapError f) (y.mapError f) := by
  unfold SameWork at h ⊢
  cases x with
  | error e =>
      cases y with
      | error e' =>
          cases h
          rfl
      | ok w' => cases h
  | ok w =>
      cases y with
      | error e' => cases h
      | ok w' => exact h

theorem exists_ok (h : SameWork x y) {w' : Work α} (hy : y = .ok w') :
    ∃ w, x = .ok w ∧ w.untold = w'.untold := by
  subst hy
  cases x with
  | error e => cases h
  | ok w => exact ⟨w, rfl, Except.ok.inj h⟩

end SameWork

namespace Outcome

variable {α : Type} {c c' : Conditions} {s s' : Store}

theorem agrees_read (result : Except Failure α) : Agrees (read s result) (read s.untold result) :=
  ⟨rfl, rfl⟩

theorem agrees_failed (f : Failure) : Agrees (failed s f : Outcome α) (failed s.untold f) :=
  agrees_read _

theorem agrees_outcome {w w' : Work α} (h : w.untold = w'.untold) :
    Agrees (w.outcome c) (w'.outcome c') := by
  obtain ⟨hvalue, hstore, -, -⟩ := Work.untold_eq_iff.1 h
  refine ⟨congrArg Except.ok hvalue, ?_⟩
  rw [(w.extends_outcome c).untold_eq, (w'.extends_outcome c').untold_eq, hstore]

/-- Work that is the same ends alike under the same conditions, whatever the event sink does. -/
theorem agrees_complete {report : DatabaseError → Failure} {x y : Except Failure (Work α)}
    (h : SameWork x y) :
    Agrees (complete c s report x) (complete c.delivering s.untold report y) := by
  unfold SameWork at h
  cases x with
  | error f =>
      cases y with
      | error f' =>
          cases h
          exact agrees_failed f
      | ok w' => cases h
  | ok w =>
      cases y with
      | error f' => cases h
      | ok w' =>
          have hw : w.untold = w'.untold := Except.ok.inj h
          obtain ⟨-, -, -, hflaw⟩ := Work.untold_eq_iff.1 hw
          have hcommit : c.delivering.commitError 0 = c.commitError 0 := rfl
          unfold complete
          dsimp only
          rw [hcommit]
          cases c.commitError 0 with
          | some e => exact agrees_failed _
          | none =>
              rw [← hflaw]
              cases w.flaw with
              | some f => exact agrees_failed f
              | none => exact agrees_outcome hw

theorem agrees_onLockedDraft {module : String} {f g : Draft → Except Failure (Work α)}
    (h : ∀ d, SameWork (f d) (g d)) :
    Agrees (onLockedDraft c s module f) (onLockedDraft c.delivering s.untold module g) := by
  have hlock : c.delivering.lockError = c.lockError := rfl
  unfold onLockedDraft
  rw [hlock]
  cases c.lockError with
  | some e => exact agrees_failed _
  | none => exact agrees_complete (.bind fun d => (h d).mapError _)

end Outcome

/-! ### What is asked of the store -/

namespace Store

variable {s : Store}

theorem untold_putModule (m : Module) : (s.putModule m).untold = (s.untold.putModule m).untold := by
  have hmodule : s.untold.module? m.id = s.module? m.id := rfl
  unfold putModule
  rw [hmodule]
  split <;> rfl

theorem untold_putMember (m : Member) : (s.putMember m).untold = (s.untold.putMember m).untold := by
  have hmember : s.untold.member? m.team m.user = s.member? m.team m.user := rfl
  unfold putMember
  rw [hmember]
  split <;> rfl

theorem untold_closeOpenRun (module : String) (outcome : RunOutcome) (now : Instant) :
    (s.closeOpenRun module outcome now).untold =
      (s.untold.closeOpenRun module outcome now).untold := by
  have hrun : s.untold.openRun? module = s.openRun? module := rfl
  unfold closeOpenRun
  rw [hrun]
  cases s.openRun? module <;> rfl

theorem untold_conclude (d : Draft) (now : Instant) :
    (s.conclude d now).untold = (s.untold.conclude d now).untold :=
  congrArg (fun u => u.removeDraft d.module)
    (untold_closeOpenRun (s := s.publish d.module d.document) d.module .finished now)

theorem placeAll_untold (atHand : Option Int) (change : Change) (placements : List Placement) :
    s.untold.placeAll atHand change placements = s.placeAll atHand change placements := by
  induction placements generalizing atHand change with
  | nil => rfl
  | cons p rest ih =>
      have hplace : s.untold.place atHand change p = s.place atHand change p := rfl
      simp only [placeAll, hplace, ih]

theorem autofillSlots_untold (change : Change) (slots : List Slot) :
    s.untold.autofillSlots change slots = s.autofillSlots change slots := by
  induction slots generalizing change with
  | nil => rfl
  | cons slot rest ih =>
      have huser : s.untold.autofillUser? change.draft slot =
          s.autofillUser? change.draft slot := rfl
      have hseat (user : Int) : s.untold.seatUser change slot user =
          s.seatUser change slot user := rfl
      simp only [autofillSlots, huser, hseat, ih]

theorem autofill_untold (enabled : Bool) (change : Change) (slots : List Slot) :
    s.untold.autofill enabled change slots = s.autofill enabled change slots := by
  unfold autofill
  rw [autofillSlots_untold]

end Store

/-! ### Operations -/

section Operations

variable (c : Conditions) (s : Store)

open Outcome

namespace Definitions

variable {s} in
theorem agrees_onProcess {α : Type} {id : Int} {next next' : Process → Outcome α}
    (h : ∀ p, Agrees (next p) (next' p)) :
    Agrees (onProcess s id next) (onProcess s.untold id next') := by
  have hprocess : s.untold.process id = s.process id := rfl
  unfold onProcess
  rw [hprocess]
  cases s.process id with
  | error f => exact agrees_failed f
  | ok p => exact h p

variable {s} in
theorem agrees_onVersion {α : Type} {process : Int} {version : Option Int}
    {next next' : Version → Outcome α} (h : ∀ v, Agrees (next v) (next' v)) :
    Agrees (onVersion s process version next) (onVersion s.untold process version next') := by
  have hversion : versionOf s.untold process version = versionOf s process version := by
    cases version <;> rfl
  unfold onVersion
  rw [hversion]
  cases versionOf s process version with
  | error f => exact agrees_failed f
  | ok v => exact h v

theorem agrees_createProcess (team : Int) (raw : Json) :
    Agrees (createProcess c s team raw) (createProcess c.delivering s.untold team raw) := by
  unfold createProcess
  cases Description.validate raw with
  | error f => exact agrees_failed f
  | ok d =>
      exact agrees_complete (.bind fun _ => .bind fun _ => .bind fun _ => .bind fun _ =>
        .bind fun _ => .pure rfl)

theorem agrees_createVersion (p : Process) (raw : Json) :
    Agrees (createVersion c s p raw) (createVersion c.delivering s.untold p raw) := by
  unfold createVersion
  cases Description.validate raw with
  | error f => exact agrees_failed f
  | ok d =>
      refine agrees_complete (.bind fun name => ?_)
      exact .ite (.bind fun _ => .bind fun _ => .bind fun _ => .pure rfl)
        (.bind fun _ => .bind fun _ => .pure rfl)

theorem agrees_rename (p : Process) (name : Json) :
    Agrees (rename c s p name) (rename c.delivering s.untold p name) := by
  unfold rename
  cases readName .top .process name with
  | error f => exact agrees_failed f
  | ok stripped =>
      dsimp only
      split
      · exact agrees_read _
      · exact agrees_complete (.bind fun _ => .bind fun _ => .pure rfl)

theorem Operation.agrees (op : Operation) :
    Agrees (op.perform c s) (op.perform c.delivering s.untold) := by
  cases op with
  | createProcess team raw => exact agrees_createProcess c s team raw
  | createVersion process raw => exact agrees_onProcess fun p => agrees_createVersion c s p raw
  | rename process name => exact agrees_onProcess fun p => agrees_rename c s p name
  | deleteVersion process version =>
      exact agrees_onVersion fun v => agrees_complete (.guard (.pure rfl))
  | deleteProcess process =>
      exact agrees_onProcess fun p => agrees_complete (.guard (.pure rfl))

end Definitions

theorem Directory.Operation.agrees (op : Operation) :
    Agrees (op.perform c s) (op.perform c.delivering s.untold) := by
  cases op with
  | setModule m =>
      refine agrees_complete (.pure ?_)
      exact Work.untold_eq_iff.2 ⟨rfl, s.untold_putModule m, rfl, rfl⟩
  | setMember m =>
      exact agrees_complete (.bind fun _ => .bind fun _ =>
        .pure (Work.untold_eq_iff.2 ⟨rfl, s.untold_putMember m, rfl, rfl⟩))
  | removeMember team user =>
      exact agrees_complete (.bind fun _ => .bind fun _ => .guard (.pure rfl))

namespace Drafting

theorem sameWork_move (d : Draft) (target : Int) :
    SameWork (move c s d target) (move c.delivering s.untold d target) := by
  unfold move
  dsimp only
  have hput : s.untold.putDraft { d with step := target } =
      (s.putDraft { d with step := target }).untold := rfl
  rw [hput, Store.autofill_untold]
  exact .bind fun _ => .pure rfl

theorem sameWork_finish (d : Draft) :
    SameWork (finish c s d) (finish c.delivering s.untold d) :=
  .guard (.pure (Work.untold_eq_iff.2 ⟨rfl, s.untold_conclude d c.now, rfl, rfl⟩))

theorem agrees_advance (module : String) (user slot target : Int) :
    Agrees (advance c s module user slot target)
      (advance c.delivering s.untold module user slot target) :=
  agrees_onLockedDraft fun d => .bind fun l => .bind fun _ =>
    .ite (sameWork_finish c s d) (sameWork_move c s d l.target)

theorem agrees_cancel (module : String) :
    Agrees (cancel c s module) (cancel c.delivering s.untold module) := by
  have hclosed := s.untold_closeOpenRun module .cancelled c.now
  have hgone := congrArg (fun u => u.removeDraft module) hclosed
  exact agrees_onLockedDraft fun d =>
    .ite (.bind fun _ => .pure (Work.untold_eq_iff.2 ⟨rfl, hgone, rfl, rfl⟩))
      (.pure (Work.untold_eq_iff.2 ⟨rfl, hgone, rfl, rfl⟩))

theorem agrees_assign (module : String) (slot user : Int) :
    Agrees (assign c s module slot user) (assign c.delivering s.untold module slot user) :=
  agrees_onLockedDraft fun _ => .bind fun _ => .bind fun _ => .pure rfl

theorem agrees_claim (module : String) (slot user : Int) :
    Agrees (claim c s module slot user) (claim c.delivering s.untold module slot user) :=
  agrees_onLockedDraft fun _ => .bind fun _ => .require (.guard (.bind fun _ => .pure rfl))

theorem agrees_unassign (module : String) (slot : Int) :
    Agrees (unassign c s module slot) (unassign c.delivering s.untold module slot) :=
  agrees_onLockedDraft fun _ => .bind fun _ => .pure rfl

/-- Every operation on drafts but the beginning ends as it does with a sink that takes
everything. -/
theorem Operation.agrees {op : Operation}
    (hop : ∀ module process placements, op ≠ .begin module process placements) :
    Agrees (op.perform c s) (op.perform c.delivering s.untold) := by
  cases op with
  | begin module process placements => exact absurd rfl (hop module process placements)
  | advance module user slot target => exact agrees_advance c s module user slot target
  | cancel module => exact agrees_cancel c s module
  | assign module slot user => exact agrees_assign c s module slot user
  | claim module slot user => exact agrees_claim c s module slot user
  | unassign module slot => exact agrees_unassign c s module slot

end Drafting

end Operations

end Editorial
