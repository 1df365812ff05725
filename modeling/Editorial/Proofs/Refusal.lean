import Editorial.Proofs.Draft.Work
import Editorial.Report

/-!
# Failures that clients are told about

A computation either yields something or fails; `Ends` says of both what they are like, with a rule
for each way in which a computation goes on. A failure is answered when it has a report that does
not ask the client to try again (`Failure.isAnswered`). What is not answered has to have a cause:
`Failure.BlamedOn cause` holds of failures that are answered, and of others if the cause is there.
The look-ups of the store are the first computations that are judged so; what can be wrong with
them is a number that the database cannot hold.
-/

namespace Editorial

/-! ### How computations end -/

/-- A computation fails only as the first predicate says and yields only what the second one
says. -/
def Ends {ε α : Type} (P : ε → Prop) (S : α → Prop) : Except ε α → Prop
  | .error e => P e
  | .ok a => S a

/-- A computation fails only as the predicate says. -/
abbrev OnlyFails {ε α : Type} (P : ε → Prop) (x : Except ε α) : Prop := Ends P (fun _ => True) x

namespace Ends

variable {ε ε' α β : Type} {P : ε → Prop} {S : β → Prop}

theorem bind {x : Except ε α} {f : α → Except ε β} (hx : OnlyFails P x)
    (hf : ∀ a, x = .ok a → Ends P S (f a)) : Ends P S (x >>= f) := by
  cases x with
  | error e => exact hx
  | ok a => exact hf a rfl

/-- What else is known of a failure, now that the computation yields nothing. -/
theorem imp {P' : ε → Prop} {x : Except ε β} (hx : OnlyFails P x)
    (h : (∀ b, x ≠ .ok b) → ∀ e, P e → P' e) : OnlyFails P' x := by
  cases x with
  | error e => exact h nofun e hx
  | ok b => trivial

theorem guard {p : Prop} [Decidable p] {e : ε} {f : PUnit → Except ε β} {x : Except ε β}
    (he : p → P e) (hx : ¬p → Ends P S x) : Ends P S (if p then throw e >>= f else x) := by
  by_cases hp : p
  · rw [if_pos hp]
    exact he hp
  · rw [if_neg hp]
    exact hx hp

theorem require {p : Prop} [Decidable p] {e : ε} {f : PUnit → Except ε β} {x : Except ε β}
    (hx : p → Ends P S x) (he : ¬p → P e) :
    Ends P S (if p then x else throw e >>= f) := by
  by_cases hp : p
  · rw [if_pos hp]
    exact hx hp
  · rw [if_neg hp]
    exact he hp

theorem ite {p : Prop} [Decidable p] {x y : Except ε β} (hx : p → Ends P S x)
    (hy : ¬p → Ends P S y) : Ends P S (if p then x else y) := by
  by_cases hp : p
  · rw [if_pos hp]
    exact hx hp
  · rw [if_neg hp]
    exact hy hp

theorem mapError {P' : ε' → Prop} {g : ε → ε'} {x : Except ε β} (h : Ends P S x)
    (hg : ∀ e, P e → P' (g e)) : Ends P' S (x.mapError g) := by
  cases x with
  | error e => exact hg e h
  | ok b => exact h

theorem mapM {f : α → Except ε β} {l : List α} (h : ∀ a ∈ l, OnlyFails P (f a)) :
    OnlyFails P (l.mapM f) := by
  induction l with
  | nil => exact trivial
  | cons a l ih =>
      rw [List.mapM_cons]
      obtain ⟨ha, hl⟩ := List.forall_mem_cons.1 h
      exact .bind ha fun _ _ => .bind (ih hl) fun _ _ => trivial

theorem forM {f : α → Except ε PUnit} {l : List α} (h : ∀ a ∈ l, OnlyFails P (f a)) :
    OnlyFails P (l.forM f) := by
  induction l with
  | nil => exact trivial
  | cons a l ih =>
      obtain ⟨ha, hl⟩ := List.forall_mem_cons.1 h
      exact .bind ha fun _ _ => ih hl

end Ends

/-! ### Failures that are answered -/

namespace Failure

/-- The client is told about a failure, and that it is not worth trying again. -/
def isAnswered (f : Failure) : Bool :=
  match f.report? with
  | some r => !r.retryable
  | none => false

/-- The client is not told about a failure, which is none of the database either. -/
def isStray : Failure → Bool
  | .database _ => false
  | f => f.report?.isNone

/-- A failure that the client is told about, and for any other one the cause is there. -/
def BlamedOn (cause : Prop) (f : Failure) : Prop :=
  f.isAnswered = true ∨ f.isStray = true ∧ cause

theorem BlamedOn.whileLocked {cause : Prop} {f : Failure} (h : f.BlamedOn cause) :
    f.whileLocked.BlamedOn cause := by
  cases f with
  | database e =>
      rcases h with h | ⟨h, -⟩
      · cases h
      · cases h
  | _ => exact h

end Failure

open Failure

/-! ### Looking up -/

section LookUps

variable {cause : Prop} {s : Store}

theorem onlyFails_requireStorable {n : Int} (h : isStorable n = false → cause) :
    OnlyFails (BlamedOn cause) (requireStorable n) := by
  unfold requireStorable
  exact .ite (fun _ => trivial) fun hn => Or.inr ⟨rfl, h (by simpa using hn)⟩

/-- A number that can be stored is no cause. -/
theorem of_not_storable {n : Int} (h : isStorable n = true) (hn : isStorable n = false) :
    cause := by
  cases h.symm.trans hn

theorem onlyFails_of_storable {n : Int} (h : isStorable n = true) :
    OnlyFails (BlamedOn cause) (requireStorable n) :=
  onlyFails_requireStorable (of_not_storable h)

namespace Store

theorem onlyFails_process {id : Int} (h : isStorable id = false → cause) :
    OnlyFails (BlamedOn cause) (s.process id) := by
  refine .bind (onlyFails_requireStorable h) fun _ _ => ?_
  cases s.process? id with
  | none => exact Or.inl rfl
  | some p => trivial

theorem onlyFails_latest (process : Int) : OnlyFails (BlamedOn cause) (s.latest process) := by
  unfold latest
  cases s.latest? process with
  | none => exact Or.inl rfl
  | some v => trivial

theorem onlyFails_version {process id : Int} (h : isStorable id = false → cause) :
    OnlyFails (BlamedOn cause) (s.version process id) := by
  refine .bind (onlyFails_requireStorable h) fun _ _ => ?_
  cases s.version? id with
  | none => exact Or.inl rfl
  | some v => exact .ite (fun _ => trivial) fun _ => Or.inl rfl

theorem onlyFails_step {v : Version} {id : Int} (h : isStorable id = false → cause) :
    OnlyFails (BlamedOn cause) (s.step v id) := by
  refine .bind (onlyFails_requireStorable h) fun _ _ => ?_
  cases v.step? id with
  | none => exact Or.inl rfl
  | some step => trivial

theorem onlyFails_slotIn {version id : Int} (h : isStorable id = false → cause) :
    OnlyFails (BlamedOn cause) (s.slotIn version id) := by
  refine .bind (onlyFails_requireStorable h) fun _ _ => ?_
  cases s.slotIn? version id with
  | none => exact Or.inl rfl
  | some slot => trivial

theorem onlyFails_draft (module : String) : OnlyFails (BlamedOn cause) (s.draft module) := by
  unfold Store.draft
  cases s.draft? module with
  | none => exact Or.inl rfl
  | some d => trivial

theorem onlyFails_module (id : String) : OnlyFails (BlamedOn cause) (s.module id) := by
  unfold Store.module
  cases s.module? id with
  | none => exact Or.inl rfl
  | some m => trivial

theorem onlyFails_teamPermission {user team : Int} {permission : String}
    (huser : isStorable user = false → cause) (hteam : isStorable team = false → cause) :
    OnlyFails (BlamedOn cause) (s.teamPermission (some user) team permission) :=
  .bind (onlyFails_requireStorable huser) fun _ _ =>
    .bind (onlyFails_requireStorable hteam) fun _ _ => trivial

theorem onlyFails_requireTeamPermission {user team : Int} {permission : String}
    (huser : isStorable user = false → cause) (hteam : isStorable team = false → cause) :
    OnlyFails (BlamedOn cause) (s.requireTeamPermission (some user) team permission) :=
  .bind (onlyFails_teamPermission huser hteam) fun _ _ =>
    .ite (fun _ => trivial) fun _ => Or.inl rfl

theorem onlyFails_requireRole {slot : Slot} {user team : Int}
    (huser : isStorable user = false → cause) (hteam : isStorable team = true) :
    OnlyFails (BlamedOn cause) (s.requireRole slot team user) := by
  unfold requireRole
  exact .ite (fun _ => trivial) fun _ => .bind (onlyFails_requireStorable huser) fun _ _ =>
    .bind (onlyFails_of_storable hteam) fun _ _ => .ite (fun _ => trivial) fun _ => Or.inl rfl

end Store

end LookUps

/-! ### Operations -/

section Operations

variable {α : Type} {cause : Prop} {c : Conditions} {s : Store}

theorem onlyFails_requireStamp (hc : c.Smooth) : OnlyFails (BlamedOn cause) c.requireStamp := by
  rw [hc.stamp]
  trivial

/-- An operation that commits fails as its work does, or because of what the work writes. -/
theorem onlyFails_complete {P : Failure → Prop} {report : DatabaseError → Failure}
    {work : Except Failure (Work α)} (hc : c.commitError 0 = none) (hwork : OnlyFails P work)
    (hflaw : ∀ w f, work = .ok w → w.flaw = some f → P f) :
    OnlyFails P (complete c s report work).result := by
  cases work with
  | error f => exact hwork
  | ok w =>
      cases hf : w.flaw with
      | none =>
          simp only [complete, hc, hf]
          trivial
      | some f =>
          simp only [complete, hc, hf]
          exact hflaw w f rfl hf

/-- The same under the lock of a draft. -/
theorem onlyFails_onLockedDraft {module : String} {prepare : Draft → Except Failure (Work α)}
    (hc : c.Smooth)
    (hwork : ∀ d, s.draft? module = some d → OnlyFails (BlamedOn cause) (prepare d))
    (hflaw : ∀ d w f, s.draft? module = some d → prepare d = .ok w → w.flaw = some f →
      f.BlamedOn cause) :
    OnlyFails (BlamedOn cause) (onLockedDraft c s module prepare).result := by
  simp only [onLockedDraft, hc.locks]
  refine onlyFails_complete (hc.commits 0) (.bind (Store.onlyFails_draft module) fun d hd => ?_)
    fun w f hw => ?_
  · exact (hwork d (Store.draft_eq_ok_iff.1 hd)).mapError fun _ => BlamedOn.whileLocked
  · obtain ⟨d, hd, hw⟩ := bind_eq_ok_iff.1 hw
    exact hflaw d w f (Store.draft_eq_ok_iff.1 hd) (mapError_eq_ok_iff.1 hw)

theorem blamedOn_of_oversizedIf {b : Bool} {f : Failure} (h : oversizedIf b = some f)
    (hb : b = true → cause) : f.BlamedOn cause := by
  cases b with
  | false => cases h
  | true =>
      cases h
      exact Or.inr ⟨rfl, hb rfl⟩

end Operations

end Editorial
