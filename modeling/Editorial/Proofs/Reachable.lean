import Editorial.Proofs.Run
import Editorial.Proofs.Transition

/-!
# Reachable stores

Every operation, whether it succeeds or fails, ends in a store that a transition leads to, with
further events (`Definitions.Operation.settles`, `Drafting.Operation.settles`,
`Directory.Operation.settles`). What is done to definitions and what comes from outside touches few
tables and tells nothing (`Store.exists_after_define`, `Store.exists_after_direct`). What
transitions preserve holds of every reachable store (`Reachable.induction`); soundness is of that
kind (`Reachable.sound`).
-/

namespace Editorial

/-! ### Operations stay within the transitions -/

/-- An operation ends in a store that a transition leads to, with further events. -/
def Outcome.Settles {α : Type} (s : Store) (o : Outcome α) : Prop :=
  ∃ t, Transition s t ∧ o.store.Extends t

/-- An operation touches processes and versions only, and tells nothing. -/
def Outcome.OnlyDefines {α : Type} (s : Store) (o : Outcome α) : Prop :=
  ∃ processes versions, o.store = { s with processes, versions }

namespace Outcome

variable {α : Type} {c : Conditions} {s : Store}

theorem onlyDefines_read (result : Except Failure α) : (read s result).OnlyDefines s :=
  ⟨s.processes, s.versions, rfl⟩

theorem settles_read (result : Except Failure α) : (read s result).Settles s :=
  ⟨s, .stay, .refl s⟩

theorem settles_failed (f : Failure) : (failed s f : Outcome α).Settles s :=
  settles_read _

theorem settles_outcome {w : Work α} (h : Transition s w.store) : (w.outcome c).Settles s :=
  ⟨w.store, h, w.extends_outcome c⟩

theorem settles_complete {report : DatabaseError → Failure} {work : Except Failure (Work α)}
    (h : ∀ w, work = .ok w → w.Commits c → Transition s w.store) :
    (complete c s report work).Settles s := by
  rcases complete_cases c s report work with ⟨f, hf⟩ | ⟨w, hw, hcommits, ho⟩
  · rw [hf]
    exact settles_failed f
  · rw [ho]
    exact settles_outcome (h w hw hcommits)

end Outcome

section Operations

variable {c : Conditions} {s : Store}

open Outcome

theorem oversizedIf_eq_none_iff {b : Bool} : oversizedIf b = none ↔ b = false := by
  cases b <;> simp [oversizedIf]

namespace Definitions

theorem settles_createProcess (c : Conditions) (s : Store) (team : Int) (raw : Json) :
    (createProcess c s team raw).Settles s := by
  rcases createProcess_cases c s team raw with ⟨f, hf⟩ |
    ⟨d, t, v, name, hvalid, -, hfree, -, hteam, hwhole, -, ht, ho⟩
  · rw [hf]
    exact settles_failed f
  · obtain ⟨rfl, rfl⟩ := Prod.ext_iff.1 ht
    rw [ho]
    exact settles_outcome (.createProcess hvalid hwhole hfree hteam)

theorem settles_createVersion (c : Conditions) {p : Process} (hp : s.process? p.id = some p)
    (raw : Json) : (createVersion c s p raw).Settles s := by
  rcases createVersion_cases c s p raw with ⟨f, hf⟩ |
    ⟨d, t, v, name, hvalid, -, hfree, -, hwhole, -, ht, ho⟩
  · rw [hf]
    exact settles_failed f
  · obtain ⟨rfl, rfl⟩ := Prod.ext_iff.1 ht
    rw [ho]
    exact settles_outcome (.createVersion hvalid hwhole hfree hp)

theorem settles_rename (c : Conditions) {p : Process} (hp : s.process? p.id = some p)
    (name : Json) : (rename c s p name).Settles s := by
  rcases rename_cases c s p name with ⟨result, hread⟩ | ⟨name, -, hfree, -, ho⟩
  · rw [hread]
    exact settles_read result
  · rw [ho]
    exact settles_outcome (.rename hfree hp)

theorem settles_deleteVersion (c : Conditions) (s : Store) (v : Version) :
    (deleteVersion c s v).Settles s := by
  rcases deleteVersion_cases c s v with ⟨f, hf⟩ | ⟨hunused, -, ho⟩
  · rw [hf]
    exact settles_failed f
  · rw [ho]
    exact settles_outcome (.deleteVersion hunused)

theorem settles_deleteProcess (c : Conditions) (s : Store) (p : Process) :
    (deleteProcess c s p).Settles s := by
  rcases deleteProcess_cases c s p with ⟨f, hf⟩ | ⟨hunused, -, ho⟩
  · rw [hf]
    exact settles_failed f
  · rw [ho]
    exact settles_outcome (.deleteProcess hunused)

theorem Operation.settles (c : Conditions) (s : Store) (op : Operation) :
    (op.perform c s).Settles s := by
  cases op with
  | createProcess team raw => exact settles_createProcess c s team raw
  | createVersion process raw =>
      exact onProcess_of (P := Settles s) settles_failed fun p hp =>
        settles_createVersion c (Store.found_of_process hp) raw
  | rename process name =>
      exact onProcess_of (P := Settles s) settles_failed fun p hp =>
        settles_rename c (Store.found_of_process hp) name
  | deleteVersion process version =>
      exact onVersion_of (P := Settles s) settles_failed fun v => settles_deleteVersion c s v
  | deleteProcess process =>
      exact onProcess_of (P := Settles s) settles_failed fun p _ => settles_deleteProcess c s p

theorem Operation.onlyDefines (c : Conditions) (s : Store) (op : Operation) :
    (op.perform c s).OnlyDefines s := by
  cases op with
  | createProcess team raw =>
      change (Definitions.createProcess c s team raw).OnlyDefines s
      rcases createProcess_cases c s team raw with ⟨f, hf⟩ |
        ⟨d, t, v, name, -, -, -, -, -, -, -, ht, ho⟩
      · rw [hf]
        exact onlyDefines_read _
      · obtain ⟨rfl, rfl⟩ := Prod.ext_iff.1 ht
        rw [ho, outcome_work]
        exact ⟨_, _, rfl⟩
  | createVersion process raw =>
      refine onProcess_of (P := OnlyDefines s) (fun _ => onlyDefines_read _) fun p _ => ?_
      rcases createVersion_cases c s p raw with ⟨f, hf⟩ |
        ⟨d, t, v, name, -, -, -, -, -, -, ht, ho⟩
      · rw [hf]
        exact onlyDefines_read _
      · obtain ⟨rfl, rfl⟩ := Prod.ext_iff.1 ht
        rw [ho, outcome_work]
        exact ⟨_, _, rfl⟩
  | rename process name =>
      refine onProcess_of (P := OnlyDefines s) (fun _ => onlyDefines_read _) fun p _ => ?_
      rcases rename_cases c s p name with ⟨result, hread⟩ | ⟨name, -, -, -, ho⟩
      · rw [hread]
        exact onlyDefines_read _
      · rw [ho, outcome_work]
        exact ⟨_, s.versions, rfl⟩
  | deleteVersion process version =>
      refine onVersion_of (P := OnlyDefines s) (fun _ => onlyDefines_read _) fun v => ?_
      rcases deleteVersion_cases c s v with ⟨f, hf⟩ | ⟨-, -, ho⟩
      · rw [hf]
        exact onlyDefines_read _
      · rw [ho, outcome_work]
        exact ⟨s.processes, _, rfl⟩
  | deleteProcess process =>
      refine onProcess_of (P := OnlyDefines s) (fun _ => onlyDefines_read _) fun p _ => ?_
      rcases deleteProcess_cases c s p with ⟨f, hf⟩ | ⟨-, -, ho⟩
      · rw [hf]
        exact onlyDefines_read _
      · rw [ho, outcome_work]
        exact ⟨_, _, rfl⟩

end Definitions

namespace Drafting

theorem settles_begin (c : Conditions) (s : Store) (module : String) (process : Int)
    (placements : List Placement) : (begin c s module process placements).Settles s := by
  rcases begin_cases c s module process placements with ⟨f, hf⟩ |
    ⟨m, p, v, ordered, placed, change, filled, hm, -, hp, hteam, hidle, hv, -, -, -, hplaced,
      hfilled, hcommits, ho⟩
  · rw [hf]
    exact settles_failed f
  · have hmid := Store.id_of_module? hm
    have hpid := Store.id_of_process? hp
    subst hmid hpid
    refine ⟨_, .begin hm hp hteam hidle hv
      ((Store.seats_placeAll hplaced).1.trans (Store.seats_autofill hfilled))
      (oversizedIf_eq_none_iff.1 hcommits.flaw), ?_⟩
    rw [ho, store_lookingBack]
    exact Work.extends_outcome c _

theorem settles_advance (c : Conditions) (s : Store) (module : String) (user slot target : Int) :
    (advance c s module user slot target).Settles s := by
  rcases advance_cases c s module user slot target with ⟨f, hf⟩ |
    ⟨d, step, l, w, -, hd, -, -, hstep, hl, -, hw, hcommits, ho⟩
  · rw [hf]
    exact settles_failed f
  · have hmodule := Store.module_of_draft? hd
    subst hmodule
    have hmem : l ∈ step.links := List.mem_of_find?_eq_some hl
    rw [ho]
    refine settles_outcome ?_
    cases hfinal : s.isFinalFor d l.target with
    | true =>
        rw [if_pos hfinal] at hw
        obtain ⟨-, -, rfl⟩ := finish_eq_ok_iff.1 hw
        exact .finish hd hstep hmem hfinal
    | false =>
        rw [if_neg (by simp [hfinal])] at hw
        obtain ⟨change, filled, hfilled, rfl⟩ := move_eq_ok_iff.1 hw
        have hseats := Store.seats_autofill hfilled
        have hsame := hseats.draft_eq
        have hput : (s.putDraft { d with step := l.target }).putDraft change.draft =
            s.putDraft change.draft := Store.putDraft_putDraft (by rw [hsame]; rfl)
        unfold Change.work
        dsimp only
        rw [hput]
        exact .move hd hstep hmem hfinal hseats.of_putDraft
          (oversizedIf_eq_none_iff.1 hcommits.flaw)

theorem settles_cancel (c : Conditions) (s : Store) (module : String) :
    (cancel c s module).Settles s := by
  rcases cancel_cases c s module with ⟨f, hf⟩ | ⟨d, w, -, hd, -, rfl, -, ho⟩
  · rw [hf]
    exact settles_failed f
  · have hmodule := Store.module_of_draft? hd
    subst hmodule
    rw [ho]
    exact settles_outcome (.cancel hd)

theorem settles_assign (c : Conditions) (s : Store) (module : String) (slot user : Int) :
    (assign c s module slot user).Settles s := by
  rcases assign_cases c s module slot user with ⟨f, hf⟩ |
    ⟨d, row, w, -, hd, -, hrow, hrole, rfl, hcommits, ho⟩
  · rw [hf]
    exact settles_failed f
  · have hmodule := Store.module_of_draft? hd
    have hslot := (Store.slotIn?_eq_some hrow).1
    subst hmodule hslot
    rw [ho]
    exact settles_outcome (.seat hd hrow hrole (oversizedIf_eq_none_iff.1 hcommits.flaw))

theorem settles_claim (c : Conditions) (s : Store) (module : String) (slot user : Int) :
    (claim c s module slot user).Settles s := by
  rcases claim_cases c s module slot user with ⟨f, hf⟩ |
    ⟨d, row, w, -, hd, -, hrow, -, -, hrole, rfl, hcommits, ho⟩
  · rw [hf]
    exact settles_failed f
  · have hmodule := Store.module_of_draft? hd
    have hslot := (Store.slotIn?_eq_some hrow).1
    subst hmodule hslot
    rw [ho]
    exact settles_outcome (.seat hd hrow hrole (oversizedIf_eq_none_iff.1 hcommits.flaw))

theorem settles_unassign (c : Conditions) (s : Store) (module : String) (slot : Int) :
    (unassign c s module slot).Settles s := by
  rcases unassign_cases c s module slot with ⟨f, hf⟩ | ⟨d, row, w, -, hd, -, -, rfl, -, ho⟩
  · rw [hf]
    exact settles_failed f
  · have hmodule := Store.module_of_draft? hd
    subst hmodule
    rw [ho]
    exact settles_outcome (.vacate hd)

theorem Operation.settles (c : Conditions) (s : Store) (op : Operation) :
    (op.perform c s).Settles s := by
  cases op with
  | begin module process placements => exact settles_begin c s module process placements
  | advance module user slot target => exact settles_advance c s module user slot target
  | cancel module => exact settles_cancel c s module
  | assign module slot user => exact settles_assign c s module slot user
  | claim module slot user => exact settles_claim c s module slot user
  | unassign module slot => exact settles_unassign c s module slot

end Drafting

theorem Directory.Operation.settles (c : Conditions) (s : Store) (op : Operation) :
    (op.perform c s).Settles s := by
  cases op with
  | setModule m =>
      refine settles_complete fun w hw _ => ?_
      obtain rfl := pure_eq_ok_iff.1 hw
      exact .setModule m
  | setMember m =>
      refine settles_complete fun w hw _ => ?_
      simp only [bind_eq_ok_iff, pure_eq_ok_iff, requireStorable_eq_ok_iff] at hw
      obtain ⟨⟨⟩, -, ⟨⟩, huser, rfl⟩ := hw
      exact .setMember huser
  | removeMember team user =>
      refine settles_complete fun w hw _ => ?_
      dsimp only at hw
      simp only [bind_eq_ok_iff, pure_eq_ok_iff, guard_eq_ok_iff] at hw
      obtain ⟨⟨⟩, -, ⟨⟩, -, -, rfl⟩ := hw
      exact .removeMember team user

/-- What comes from outside touches modules and memberships only, and tells nothing. -/
theorem Directory.Operation.store_perform (c : Conditions) (s : Store) (op : Operation) :
    ∃ modules members, (op.perform c s).store = { s with modules, members } := by
  have hcomplete {work : Except Failure (Work Unit)}
      (h : ∀ w, work = .ok w → w.events = [] ∧
        ∃ modules members, w.store = { s with modules, members }) :
      ∃ modules members, (complete c s Failure.database work).store =
        { s with modules, members } := by
    rcases complete_cases c s Failure.database work with ⟨f, hf⟩ | ⟨w, hw, -, ho⟩
    · rw [hf]
      exact ⟨s.modules, s.members, rfl⟩
    · obtain ⟨hnone, hstore⟩ := h w hw
      rw [ho]
      unfold Work.outcome
      rw [hnone]
      exact hstore
  cases op with
  | setModule m =>
      refine hcomplete fun w hw => ?_
      obtain rfl := pure_eq_ok_iff.1 hw
      unfold Store.putModule
      split <;> exact ⟨rfl, _, _, rfl⟩
  | setMember m =>
      refine hcomplete fun w hw => ?_
      simp only [bind_eq_ok_iff, pure_eq_ok_iff] at hw
      obtain ⟨⟨⟩, -, ⟨⟩, -, rfl⟩ := hw
      unfold Store.putMember
      split <;> exact ⟨rfl, _, _, rfl⟩
  | removeMember team user =>
      refine hcomplete fun w hw => ?_
      dsimp only at hw
      simp only [bind_eq_ok_iff, pure_eq_ok_iff, guard_eq_ok_iff] at hw
      obtain ⟨⟨⟩, -, ⟨⟩, -, -, rfl⟩ := hw
      exact ⟨rfl, _, _, rfl⟩

end Operations

/-! ### Turns that tell nothing -/

theorem Store.exists_after_define (s : Store) (c : Conditions) (op : Definitions.Operation) :
    ∃ processes versions, s.after ⟨c, .define op⟩ = { s with processes, versions } :=
  op.onlyDefines c s

theorem Store.exists_after_direct (s : Store) (c : Conditions) (op : Directory.Operation) :
    ∃ modules members, s.after ⟨c, .direct op⟩ = { s with modules, members } :=
  op.store_perform c s

/-! ### Reachable stores -/

theorem Store.after_settles (s : Store) (t : Turn) :
    ∃ u, Transition s u ∧ (s.after t).Extends u := by
  unfold after
  cases t.action with
  | define op => exact Definitions.Operation.settles _ s op
  | draft op => exact Drafting.Operation.settles _ s op
  | direct op => exact Directory.Operation.settles _ s op

theorem Store.Sound.after {s : Store} (h : s.Sound) (t : Turn) : (s.after t).Sound := by
  obtain ⟨u, hu, hext⟩ := s.after_settles t
  exact (h.transition hu).extends hext

theorem Store.Sound.afterAll {s : Store} (h : s.Sound) (turns : List Turn) :
    (s.afterAll turns).Sound := by
  induction turns generalizing s with
  | nil => exact h
  | cons t turns ih => exact ih (h.after t)

/-- What holds of the empty store and after every turn holds of every reachable store. -/
theorem Reachable.induction {P : Store → Prop} (hempty : P .empty)
    (hafter : ∀ s t, Reachable s → P s → P (s.after t)) {s : Store} (h : Reachable s) : P s := by
  obtain ⟨turns, rfl⟩ := h
  suffices hrun : ∀ s, Reachable s → P s → P (s.afterAll turns) from hrun _ ⟨[], rfl⟩ hempty
  induction turns with
  | nil => exact fun s _ hs => hs
  | cons t turns ih =>
      intro s hreach hs
      exact ih (s.after t) (hreach.after t) (hafter s t hreach hs)

theorem Reachable.sound {s : Store} (h : Reachable s) : s.Sound :=
  h.induction Store.sound_empty fun _ t _ hs => hs.after t

end Editorial
