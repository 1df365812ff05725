import Editorial.Process.Definitions
import Editorial.Proofs.Draft.Work

/-!
# What the operations on definitions commit

One statement for each operation on process definitions: it fails and leaves everything as it was,
or the store and the value with which it ends are known exactly, together with every condition that
has been checked on the way. Nothing is announced.
-/

namespace Editorial

theorem Store.mem_versionsOf {s : Store} {process : Int} {v : Version} :
    v ∈ s.versionsOf process ↔ v ∈ s.versions ∧ v.process = process := by
  unfold versionsOf
  rw [Ordered.mem_sortBy, List.mem_filter, beq_iff_eq]

theorem Store.found_of_process {s : Store} {id : Int} {p : Process} (h : s.process id = .ok p) :
    s.process? p.id = some p := by
  have hfound := (Store.process_eq_ok_iff.1 h).2
  rwa [Store.id_of_process? hfound]

namespace Definitions

variable {c : Conditions} {s : Store}

/-- Work without announcements leaves its store as it is. -/
theorem outcome_work {α : Type} (c : Conditions) (value : α) (s : Store) :
    (work value s).outcome c =
      { result := .ok value, store := s, delivered := 0, broken := false } :=
  rfl

theorem complete_work {α : Type} {report : DatabaseError → Failure} (hc : c.commitError 0 = none)
    (value : α) (t : Store) :
    complete c s report (.ok (work value t)) = (work value t).outcome c :=
  complete_of_commits rfl ⟨hc, rfl⟩

theorem requireWhole_eq_ok_iff {w : Text.Wording} {name : String} :
    requireWhole w = .ok name ↔ w = name := by
  cases w <;> simp [requireWhole]

theorem requireParts_eq_ok_iff {d : Description} {u : Unit} :
    requireParts d = .ok u ↔ d.hasTornPart = false := by
  unfold requireParts
  split <;> simp_all

/-! ### New versions -/

/-- The store with a new process under a name. -/
def addProcess (s : Store) (team : Int) (name : String) : Store :=
  { s with processes := s.processes ++ [⟨nextId (s.processes.map Process.id), team, name⟩] }

theorem createProcess_cases (c : Conditions) (s : Store) (team : Int) (raw : Json) :
    (∃ f, createProcess c s team raw = .failed s f) ∨
      ∃ d t v, ∃ name : String, Description.validate raw = .ok d ∧ d.name = name ∧
        requireFreeName s name none = .ok () ∧ c.requireStamp = .ok () ∧ isStorable team = true ∧
        d.hasTornPart = false ∧ c.commitError 0 = none ∧
        (t, v) = addVersion (addProcess s team name) c.now (nextId (s.processes.map Process.id)) d ∧
        createProcess c s team raw = (work v t).outcome c := by
  unfold createProcess
  cases hvalid : Description.validate raw with
  | error f => exact Or.inl ⟨f, rfl⟩
  | ok d =>
      refine (complete_cases c s _ _).imp_right ?_
      rintro ⟨w, hw, hcommits, ho⟩
      simp only [bind_eq_ok_iff, pure_eq_ok_iff, requireWhole_eq_ok_iff, requireStorable_eq_ok_iff,
        requireParts_eq_ok_iff] at hw
      obtain ⟨name, hname, ⟨⟩, hfree, ⟨⟩, hstamp, ⟨⟩, hteam, ⟨⟩, hwhole, rfl⟩ := hw
      exact ⟨d, _, _, name, rfl, hname, hfree, hstamp, hteam, hwhole, hcommits.commit, rfl, ho⟩

theorem createVersion_cases (c : Conditions) (s : Store) (p : Process) (raw : Json) :
    (∃ f, createVersion c s p raw = .failed s f) ∨
      ∃ d t v, ∃ name : String, Description.validate raw = .ok d ∧ d.name = name ∧
        (name ≠ p.name → requireFreeName s name (some p.id) = .ok ()) ∧ c.requireStamp = .ok () ∧
        d.hasTornPart = false ∧ c.commitError 0 = none ∧
        (t, v) = addVersion (setName s p.id name) c.now p.id d ∧
        createVersion c s p raw = (work v t).outcome c := by
  unfold createVersion
  cases hvalid : Description.validate raw with
  | error f => exact Or.inl ⟨f, rfl⟩
  | ok d =>
      refine (complete_cases c s _ _).imp_right ?_
      rintro ⟨w, hw, hcommits, ho⟩
      obtain ⟨name, hname, hw⟩ := bind_eq_ok_iff.1 hw
      rw [requireWhole_eq_ok_iff] at hname
      dsimp only at hw
      split at hw
      · simp only [bind_eq_ok_iff, pure_eq_ok_iff, requireParts_eq_ok_iff] at hw
        obtain ⟨⟨⟩, hfree, ⟨⟩, hstamp, ⟨⟩, hwhole, rfl⟩ := hw
        exact ⟨d, _, _, name, rfl, hname, fun _ => hfree, hstamp, hwhole, hcommits.commit, rfl, ho⟩
      · rename_i hsame
        simp only [bind_eq_ok_iff, pure_eq_ok_iff, requireParts_eq_ok_iff] at hw
        obtain ⟨⟨⟩, hstamp, ⟨⟩, hwhole, rfl⟩ := hw
        exact ⟨d, _, _, name, rfl, hname, fun hne => absurd hne hsame, hstamp, hwhole,
          hcommits.commit, rfl, ho⟩

/-- A version is created from an accepted value with names that can be stored when its name is free
or that of the process, the moment has a date and the commit does not fail. -/
theorem exists_createVersion_of_free {p : Process} {raw : Json} {d : Description} {name : String}
    (hvalid : Description.validate raw = .ok d) (hname : d.name = name)
    (hfree : name ≠ p.name → requireFreeName s name (some p.id) = .ok ())
    (hwhole : d.hasTornPart = false) (hstamp : c.requireStamp = .ok ())
    (hcommit : c.commitError 0 = none) : ∃ v, (createVersion c s p raw).result = .ok v := by
  have hparts : requireParts d = .ok () := requireParts_eq_ok_iff.2 hwhole
  have hnamed : requireWhole d.name = .ok name := requireWhole_eq_ok_iff.2 hname
  unfold createVersion
  by_cases hsame : name = p.name
  · simp only [hvalid, hnamed, hsame, hstamp, hparts, bind, Except.bind, pure, Except.pure, ne_eq,
      not_true_eq_false, if_false]
    exact ⟨_, congrArg Outcome.result (complete_work hcommit _ _)⟩
  · simp only [hvalid, hnamed, hfree hsame, hstamp, hparts, bind, Except.bind, pure, Except.pure,
      ite_self]
    exact ⟨_, congrArg Outcome.result (complete_work hcommit _ _)⟩

/-! ### Names -/

theorem rename_cases (c : Conditions) (s : Store) (p : Process) (raw : Json) :
    (∃ result, rename c s p raw = .read s result) ∨
      ∃ name : String, readName .top .process raw = .ok name ∧
        requireFreeName s name (some p.id) = .ok () ∧ c.commitError 0 = none ∧
        rename c s p raw = (work { p with name } (setName s p.id name)).outcome c := by
  unfold rename
  cases hread : readName .top .process raw with
  | error f => exact Or.inl ⟨.error f, rfl⟩
  | ok stripped =>
      dsimp only
      split
      · exact Or.inl ⟨.ok p, rfl⟩
      · rcases complete_cases c s _ _ with ⟨f, hf⟩ | ⟨w, hw, hcommits, ho⟩
        · exact Or.inl ⟨.error f, hf⟩
        · simp only [bind_eq_ok_iff, pure_eq_ok_iff, requireWhole_eq_ok_iff] at hw
          obtain ⟨name, hname, ⟨⟩, hfree, rfl⟩ := hw
          exact Or.inr ⟨name, congrArg Except.ok hname, hfree, hcommits.commit, ho⟩

/-! ### Deletions -/

theorem deleteVersion_cases (c : Conditions) (s : Store) (v : Version) :
    (∃ f, deleteVersion c s v = .failed s f) ∨
      (∀ r ∈ s.runs, r.version ≠ v.id) ∧ c.commitError 0 = none ∧
        deleteVersion c s v =
          (work () { s with versions := s.versions.filter fun e => e.id != v.id }).outcome c := by
  refine (complete_cases c s _ _).imp_right ?_
  rintro ⟨w, hw, hcommits, ho⟩
  dsimp only at hw
  simp only [guard_eq_ok_iff, pure_eq_ok_iff] at hw
  obtain ⟨hunused, rfl⟩ := hw
  exact ⟨fun r hr hv => hunused (List.any_eq_true.2 ⟨r, hr, beq_iff_eq.2 hv⟩), hcommits.commit, ho⟩

theorem deleteProcess_cases (c : Conditions) (s : Store) (p : Process) :
    (∃ f, deleteProcess c s p = .failed s f) ∨
      (∀ r ∈ s.runs, ∀ v ∈ s.versions, v.process = p.id → r.version ≠ v.id) ∧
        c.commitError 0 = none ∧
        deleteProcess c s p =
          (work () { s with
            versions := s.versions.filter fun v => v.process != p.id
            processes := s.processes.filter fun e => e.id != p.id }).outcome c := by
  refine (complete_cases c s _ _).imp_right ?_
  rintro ⟨w, hw, hcommits, ho⟩
  dsimp only at hw
  simp only [guard_eq_ok_iff, pure_eq_ok_iff] at hw
  obtain ⟨hunused, rfl⟩ := hw
  refine ⟨fun r hr v hv hprocess hrv => hunused ?_, hcommits.commit, ho⟩
  refine List.any_eq_true.2 ⟨r, hr, ?_⟩
  rw [List.contains_iff_mem, hrv]
  exact List.mem_map_of_mem (Store.mem_versionsOf.2 ⟨hv, hprocess⟩)

/-! ### Looking up first -/

theorem onProcess_cases {α : Type} (s : Store) (id : Int) (next : Process → Outcome α) :
    (∃ f, s.process id = .error f ∧ onProcess s id next = .failed s f) ∨
      ∃ p, s.process id = .ok p ∧ onProcess s id next = next p := by
  unfold onProcess
  cases s.process id with
  | error f => exact Or.inl ⟨f, rfl, rfl⟩
  | ok p => exact Or.inr ⟨p, rfl, rfl⟩

theorem onVersion_cases {α : Type} (s : Store) (process : Int) (version : Option Int)
    (next : Version → Outcome α) :
    (∃ f, versionOf s process version = .error f ∧
        onVersion s process version next = .failed s f) ∨
      ∃ v, versionOf s process version = .ok v ∧ onVersion s process version next = next v := by
  unfold onVersion
  cases versionOf s process version with
  | error f => exact Or.inl ⟨f, rfl, rfl⟩
  | ok v => exact Or.inr ⟨v, rfl, rfl⟩

/-- What holds of a failure and of what is done to a process that is found holds in any case. -/
theorem onProcess_of {α : Type} {P : Outcome α → Prop} {id : Int} {next : Process → Outcome α}
    (hfailed : ∀ f, P (.failed s f)) (hnext : ∀ p, s.process id = .ok p → P (next p)) :
    P (onProcess s id next) := by
  rcases onProcess_cases s id next with ⟨f, -, hf⟩ | ⟨p, hp, ho⟩
  · rw [hf]
    exact hfailed f
  · rw [ho]
    exact hnext p hp

theorem onVersion_of {α : Type} {P : Outcome α → Prop} {process : Int} {version : Option Int}
    {next : Version → Outcome α} (hfailed : ∀ f, P (.failed s f)) (hnext : ∀ v, P (next v)) :
    P (onVersion s process version next) := by
  rcases onVersion_cases s process version next with ⟨f, -, hf⟩ | ⟨v, -, ho⟩
  · rw [hf]
    exact hfailed f
  · rw [ho]
    exact hnext v

end Definitions

end Editorial
