import Editorial.Proofs.Draft.Effect
import Editorial.Proofs.Draft.Records

/-!
# Teams that can be stored

The teams that memberships and modules name come from outside, and only those come in whose ids the
database can hold. So they are of that kind in every reachable store (`Reachable.teamsStorable`),
and looking one of them up never fails.
-/

namespace Editorial

/-- The teams that memberships and modules name have ids that the database can hold. -/
structure Store.TeamsStorable (s : Store) : Prop where
  members : ∀ m ∈ s.members, isStorable m.team = true
  modules : ∀ m ∈ s.modules, isStorable m.team = true

namespace Store.TeamsStorable

variable {c : Conditions} {s t : Store}

theorem congr (h : s.TeamsStorable) (hmembers : t.members = s.members)
    (hmodules : t.modules = s.modules) : t.TeamsStorable where
  members := hmembers ▸ h.members
  modules := hmodules ▸ h.modules

theorem of_extends (h : s.TeamsStorable) (ht : t.Extends s) : t.TeamsStorable := by
  obtain ⟨es, rfl⟩ := ht
  exact h.congr rfl rfl

theorem publish (h : s.TeamsStorable) (module : String) (document : Int) :
    (s.publish module document).TeamsStorable where
  members := h.members
  modules := by
    unfold Store.publish
    rw [List.forall_mem_map]
    intro m hm
    split <;> exact h.modules m hm

theorem putModule (h : s.TeamsStorable) {m : Module} (hm : isStorable m.team = true) :
    (s.putModule m).TeamsStorable := by
  unfold Store.putModule
  split
  · refine ⟨h.members, List.forall_mem_map.2 fun e he => ?_⟩
    split
    · exact hm
    · exact h.modules e he
  · exact ⟨h.members, List.forall_mem_append.2 ⟨h.modules, List.forall_mem_singleton.2 hm⟩⟩

theorem putMember (h : s.TeamsStorable) {m : Member} (hm : isStorable m.team = true) :
    (s.putMember m).TeamsStorable := by
  unfold Store.putMember
  split
  · refine ⟨List.forall_mem_map.2 fun e he => ?_, h.modules⟩
    split
    · exact hm
    · exact h.members e he
  · exact ⟨List.forall_mem_append.2 ⟨h.members, List.forall_mem_singleton.2 hm⟩, h.modules⟩

/-! ### Turns -/

theorem complete (h : s.TeamsStorable) {work : Except Failure (Work Unit)}
    (hwork : ∀ w, work = .ok w → w.flaw = none → w.store.TeamsStorable) :
    (Editorial.complete c s Failure.database work).store.TeamsStorable := by
  rcases complete_cases c s Failure.database work with ⟨f, hf⟩ | ⟨w, hw, hcommits, ho⟩
  · rw [hf]
    exact h
  · rw [ho]
    exact (hwork w hw hcommits.flaw).of_extends (w.extends_outcome c)

/-- A module that comes from outside is there already, or it names a team that can be stored. -/
theorem team_of_moduleFlaw (h : s.TeamsStorable) {m : Module}
    (hflaw : Directory.moduleFlaw c s m = none) : isStorable m.team = true := by
  unfold Directory.moduleFlaw at hflaw
  split at hflaw
  · rename_i hfound
    exact h.modules m (List.mem_of_find?_eq_some hfound)
  · split at hflaw
    · cases hflaw
    · have hsmall := oversizedIf_eq_none_iff.1 hflaw
      simp only [Bool.or_eq_false_iff, Bool.not_eq_false'] at hsmall
      exact hsmall.1

theorem direct (h : s.TeamsStorable) (op : Directory.Operation) :
    (op.perform c s).store.TeamsStorable := by
  cases op with
  | setModule m =>
      refine h.complete fun w hw hflaw => ?_
      obtain rfl := pure_eq_ok_iff.1 hw
      exact h.putModule (h.team_of_moduleFlaw hflaw)
  | setMember m =>
      refine h.complete fun w hw _ => ?_
      simp only [bind_eq_ok_iff, pure_eq_ok_iff, requireStorable_eq_ok_iff] at hw
      obtain ⟨⟨⟩, hteam, ⟨⟩, -, rfl⟩ := hw
      exact h.putMember hteam
  | removeMember team user =>
      refine h.complete fun w hw _ => ?_
      dsimp only at hw
      simp only [bind_eq_ok_iff, pure_eq_ok_iff, guard_eq_ok_iff] at hw
      obtain ⟨⟨⟩, -, ⟨⟩, -, -, rfl⟩ := hw
      exact ⟨fun e he => h.members e (List.mem_filter.1 he).1, h.modules⟩

theorem effect (h : s.TeamsStorable) {op : Drafting.Operation} (ht : op.Effect c s t) :
    t.TeamsStorable := by
  have hclose (u : Store) (hu : u.TeamsStorable) (module : String) (outcome : RunOutcome) :
      ((u.closeOpenRun module outcome c.now).removeDraft module).TeamsStorable := by
    obtain ⟨runs, hruns⟩ := u.exists_runs_closeOpenRun module outcome c.now
    rw [hruns]
    exact hu.congr rfl rfl
  cases ht with
  | kept => exact h
  | begun => exact h.congr rfl rfl
  | changed => exact h.congr rfl rfl
  | @concluded d => exact hclose _ (h.publish d.module d.document) d.module .finished
  | @cancelled d => exact hclose s h d.module .cancelled

theorem after (h : s.TeamsStorable) (turn : Turn) : (s.after turn).TeamsStorable := by
  obtain ⟨c, action⟩ := turn
  cases action with
  | define op =>
      obtain ⟨processes, versions, hafter⟩ := s.exists_after_define c op
      rw [hafter]
      exact h.congr rfl rfl
  | draft op =>
      obtain ⟨u, heffect, hextends⟩ := s.exists_after_draft c op
      exact (h.effect heffect).of_extends hextends
  | direct op => exact h.direct op

end Store.TeamsStorable

theorem Reachable.teamsStorable {s : Store} (h : Reachable s) : s.TeamsStorable :=
  h.induction ⟨nofun, nofun⟩ fun _ turn _ hs => hs.after turn

end Editorial
