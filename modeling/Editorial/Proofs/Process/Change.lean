import Editorial.Proofs.Process.Acceptance
import Editorial.Proofs.Process.Permanence

/-!
# What turns do to processes and versions

What is done to definitions succeeds and is known exactly, or fails and changes nothing
(`Definitions.Operation.store_perform_of_error`). Hence a turn creates one version, which is added
to those that are stored (`Turn.Creates.added`), names one process anew, or only lets some processes
and versions stay (`Turn.redefines`). What holds of definitions along every run is settled by these
cases.
-/

namespace Editorial

open Text

/-- The version that a description becomes when it is the next one that is stored. -/
def Store.nextVersion (s : Store) (process : Int) (now : Instant) (d : Description) : Version :=
  .ofDescription (nextId (s.versions.map Version.id)) process now s.firstIds d

/-! ### Operations that succeed or fail -/

namespace Definitions

variable {c : Conditions} {s : Store} {raw : Json} {v : Version}

theorem createProcess_of_ok {team : Int} (h : (createProcess c s team raw).result = .ok v) :
    ∃ d, ∃ name : String, Description.validate raw = .ok d ∧ d.name = name ∧
      requireFreeName s name none = .ok () ∧ d.hasTornPart = false ∧
      v = s.nextVersion (nextId (s.processes.map Process.id)) c.now d ∧
      (createProcess c s team raw).store = { s with
        processes := s.processes ++ [⟨nextId (s.processes.map Process.id), team, name⟩]
        versions := s.versions ++ [v] } := by
  rcases createProcess_cases c s team raw with ⟨f, hf⟩ |
    ⟨d, t, v', name, hvalid, hname, hfree, -, -, hparts, -, ht, ho⟩
  · rw [hf] at h
    cases h
  · obtain ⟨rfl, rfl⟩ := Prod.ext_iff.1 ht
    rw [ho] at h ⊢
    obtain rfl := Except.ok.inj h
    exact ⟨d, name, hvalid, hname, hfree, hparts, rfl, rfl⟩

theorem createVersion_of_ok {p : Process} (h : (createVersion c s p raw).result = .ok v) :
    ∃ d, ∃ name : String, Description.validate raw = .ok d ∧ d.name = name ∧
      (name ≠ p.name → requireFreeName s name (some p.id) = .ok ()) ∧ d.hasTornPart = false ∧
      v = s.nextVersion p.id c.now d ∧
      (createVersion c s p raw).store =
        { setName s p.id name with versions := s.versions ++ [v] } := by
  rcases createVersion_cases c s p raw with ⟨f, hf⟩ |
    ⟨d, t, v', name, hvalid, hname, hfree, -, hparts, -, ht, ho⟩
  · rw [hf] at h
    cases h
  · obtain ⟨rfl, rfl⟩ := Prod.ext_iff.1 ht
    rw [ho] at h ⊢
    obtain rfl := Except.ok.inj h
    exact ⟨d, name, hvalid, hname, hfree, hparts, rfl, rfl⟩

theorem store_createProcess_of_error {team : Int} {f : Failure}
    (h : (createProcess c s team raw).result = .error f) :
    (createProcess c s team raw).store = s := by
  unfold createProcess at h ⊢
  split at h
  · rfl
  · exact store_complete_of_error h

theorem store_createVersion_of_error {p : Process} {f : Failure}
    (h : (createVersion c s p raw).result = .error f) : (createVersion c s p raw).store = s := by
  unfold createVersion at h ⊢
  split at h
  · rfl
  · exact store_complete_of_error h

theorem store_rename_of_error {p : Process} {f : Failure}
    (h : (rename c s p raw).result = .error f) : (rename c s p raw).store = s := by
  rcases rename_cases c s p raw with ⟨result, hread⟩ | ⟨name, -, -, -, ho⟩
  · rw [hread]
    rfl
  · rw [ho] at h
    cases h

/-- Whatever is done to definitions changes nothing when it fails. -/
theorem Operation.store_perform_of_error {op : Operation} {f : Failure}
    (h : (op.perform c s).result = .error f) : (op.perform c s).store = s := by
  have hprocess {α : Type} {id : Int} {next : Process → Outcome α}
      (hnext : ∀ p, (next p).result = .error f → (next p).store = s) :
      (onProcess s id next).result = .error f → (onProcess s id next).store = s :=
    onProcess_of (P := fun o => o.result = .error f → o.store = s) (fun _ _ => rfl)
      fun p _ => hnext p
  cases op with
  | createProcess team raw => exact store_createProcess_of_error h
  | createVersion process raw => exact hprocess (fun _ => store_createVersion_of_error) h
  | rename process name => exact hprocess (fun _ => store_rename_of_error) h
  | deleteVersion process version =>
      exact onVersion_of (P := fun o => o.result = .error f → o.store = s) (fun _ _ => rfl)
        (fun _ => store_complete_of_error) h
  | deleteProcess process => exact hprocess (fun _ => store_complete_of_error) h

end Definitions

/-! ### Turns -/

/-- A turn creates a version: it succeeds in creating it, with its process or for a stored one. -/
inductive Turn.Creates (s : Store) (v : Version) : Turn → Prop where
  | process {c : Conditions} {team : Int} {raw : Json}
      (done : (Definitions.createProcess c s team raw).result = .ok v) :
      Creates s v ⟨c, .define (.createProcess team raw)⟩
  | version {c : Conditions} {process : Int} {raw : Json} {p : Process}
      (found : s.process process = .ok p)
      (done : (Definitions.createVersion c s p raw).result = .ok v) :
      Creates s v ⟨c, .define (.createVersion process raw)⟩

/-- What a turn does to processes and versions. -/
inductive Turn.Redefines (s : Store) (t : Turn) : Prop where
  | creates {v : Version} (created : t.Creates s v)
  | renames {p : Process} {raw : Json} {name : String} (found : s.process? p.id = some p)
      (read : readName .top .process raw = .ok name)
      (free : Definitions.requireFreeName s name (some p.id) = .ok ())
      (after : s.after t = Definitions.setName s p.id name)
  | keeps (keepProcess : Process → Bool) (keepVersion : Version → Bool)
      (processes : (s.after t).processes = s.processes.filter keepProcess)
      (versions : (s.after t).versions = s.versions.filter keepVersion)

variable {s : Store} {t : Turn} {v : Version}

theorem Turn.redefines_of_same (h : SameDefinitions s (s.after t)) : t.Redefines s :=
  .keeps (fun _ => true) (fun _ => true) (h.1.trans (List.filter_eq_self.2 fun _ _ => rfl).symm)
    (h.2.trans (List.filter_eq_self.2 fun _ _ => rfl).symm)

theorem Turn.redefines_of_unchanged (h : s.after t = s) : t.Redefines s :=
  redefines_of_same (h.symm ▸ ⟨rfl, rfl⟩)

open Definitions in
/-- A turn creates a version, names a process anew, or lets some processes and versions stay. -/
theorem Turn.redefines (s : Store) (t : Turn) : t.Redefines s := by
  obtain ⟨c, action⟩ := t
  cases action with
  | draft op => exact redefines_of_same (Drafting.Operation.sameDefinitions c s op)
  | direct op => exact redefines_of_same (Directory.Operation.sameDefinitions c s op)
  | define op =>
      cases hresult : (op.perform c s).result with
      | error f => exact redefines_of_unchanged (Operation.store_perform_of_error hresult)
      | ok answer =>
          have hafter : s.after ⟨c, .define op⟩ = (op.perform c s).store := rfl
          cases op with
          | createProcess team raw => exact .creates (.process hresult)
          | createVersion process raw =>
              change (onProcess s process fun p => Definitions.createVersion c s p raw).result = _
                at hresult
              rcases onProcess_cases s process (fun p => Definitions.createVersion c s p raw) with
                ⟨f, -, ho⟩ | ⟨p, hp, ho⟩
              · rw [ho] at hresult
                cases hresult
              · rw [ho] at hresult
                exact .creates (.version hp hresult)
          | rename process name =>
              apply onProcess_of (P := fun o => s.after ⟨c, _⟩ = o.store → Redefines s ⟨c, _⟩)
                (fun _ => redefines_of_unchanged) (fun p hp => ?_) hafter
              rcases rename_cases c s p name with ⟨result, ho⟩ | ⟨name, hread, hfree, -, ho⟩
              · rw [ho]
                exact redefines_of_unchanged
              · rw [ho]
                exact .renames (Store.found_of_process hp) hread hfree
          | deleteVersion process version =>
              apply onVersion_of (P := fun o => s.after ⟨c, _⟩ = o.store → Redefines s ⟨c, _⟩)
                (fun _ => redefines_of_unchanged) (fun v => ?_) hafter
              rcases deleteVersion_cases c s v with ⟨f, ho⟩ | ⟨-, -, ho⟩
              · rw [ho]
                exact redefines_of_unchanged
              · rw [ho]
                have hall : s.processes = s.processes.filter fun _ => true :=
                  (List.filter_eq_self.2 fun _ _ => rfl).symm
                exact fun hafter => .keeps _ _ ((congrArg Store.processes hafter).trans hall)
                  (congrArg Store.versions hafter)
          | deleteProcess process =>
              apply onProcess_of (P := fun o => s.after ⟨c, _⟩ = o.store → Redefines s ⟨c, _⟩)
                (fun _ => redefines_of_unchanged) (fun p _ => ?_) hafter
              rcases deleteProcess_cases c s p with ⟨f, ho⟩ | ⟨-, -, ho⟩
              · rw [ho]
                exact redefines_of_unchanged
              · rw [ho]
                exact fun hafter => .keeps _ _ (congrArg Store.processes hafter)
                  (congrArg Store.versions hafter)

/-! ### New versions -/

theorem Store.after_createVersion {c : Conditions} {process : Int} {raw : Json} {p : Process}
    (found : s.process process = .ok p) :
    s.after ⟨c, .define (.createVersion process raw)⟩ =
      (Definitions.createVersion c s p raw).store := by
  show (Definitions.onProcess s process fun p => Definitions.createVersion c s p raw).store = _
  unfold Definitions.onProcess
  rw [found]

/-- A new version is added to those that are stored, as the next one from an accepted
description. -/
theorem Turn.Creates.added (h : t.Creates s v) :
    (s.after t).versions = s.versions ++ [v] ∧ ∃ raw d, Description.validate raw = .ok d ∧
      d.hasTornPart = false ∧ v = s.nextVersion v.process t.conditions.now d := by
  cases h with
  | @process c team raw done =>
      obtain ⟨d, name, hvalid, -, -, hparts, hv, hstore⟩ := Definitions.createProcess_of_ok done
      show (Definitions.createProcess c s team raw).store.versions = _ ∧ _
      rw [hstore]
      refine ⟨rfl, raw, d, hvalid, hparts, ?_⟩
      rw [hv]
      rfl
  | @version c process raw p found done =>
      obtain ⟨d, name, hvalid, -, -, hparts, hv, hstore⟩ := Definitions.createVersion_of_ok done
      rw [Store.after_createVersion found, hstore]
      refine ⟨rfl, raw, d, hvalid, hparts, ?_⟩
      rw [hv]
      rfl

/-- A stored version was stored before the turn, unless the turn creates it. -/
theorem mem_or_creates_of_after (h : v ∈ (s.after t).versions) :
    v ∈ s.versions ∨ t.Creates s v := by
  cases t.redefines s with
  | @creates w hcreated =>
      rw [hcreated.added.1, List.mem_append, List.mem_singleton] at h
      rcases h with h | rfl
      · exact Or.inl h
      · exact Or.inr hcreated
  | renames _ _ _ hafter =>
      rw [hafter] at h
      exact Or.inl h
  | keeps _ _ _ hversions =>
      rw [hversions] at h
      exact Or.inl (List.mem_filter.1 h).1

end Editorial
