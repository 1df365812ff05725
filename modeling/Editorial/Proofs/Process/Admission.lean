import Editorial.Proofs.Process.Constraints
import Editorial.Proofs.Process.Judgement
import Editorial.Proofs.Process.Refusal

/-!
# Which changes of definitions are stored

A process is created, gets a version or a name if what is given is accepted and no other process has
the name that is wanted, and only so much can be the reason why a proposal is refused that the
database would commit (`Definitions.Proposal.Refused`). Whatever becomes of it, the tables satisfy
the constraints of the database, so a violated constraint is never reported unless the commit itself
says so (`definition_changes_decided`). Not all that is accepted can be stored: a name may have half
characters (`torn_part_not_stored`).
-/

namespace Editorial

open Text

/-- A failure that a violated constraint is reported as. -/
def Failure.isViolation : Failure → Bool
  | .database .integrity => true
  | .processExists _ none => true
  | _ => false

namespace Definitions

/-! ### Proposals -/

/-- What is proposed for definitions, as far as it decides on how that ends. -/
structure Proposal (α : Type) where
  /-- The moment is fit for what is to be stored. -/
  dated : Prop
  /-- What is given cannot be accepted. -/
  Unread : Failure → Prop
  /-- What is given is accepted, and some name in it has half characters. -/
  torn : Prop
  /-- What is given is accepted, and wants a name that can be stored with all the others in it. -/
  Wants : String → Prop
  /-- A process may not have the name that is wanted. -/
  Another : Process → Prop
  /-- What has been done for a name, with the answer and the store afterwards. -/
  Done : String → α → Store → Prop

/-- A new process of a team is proposed, with the version that a value describes. -/
def newProcess (c : Conditions) (s : Store) (team : Int) (raw : Json) : Proposal Version where
  dated := c.requireStamp = .ok ()
  Unread f := Description.validate raw = .error f
  torn := ∃ d, Description.validate raw = .ok d ∧ (d.name.isTorn = true ∨ d.hasTornPart = true)
  Wants := Description.IsFor raw
  Another _ := True
  Done name v t := ∃ d, Description.validate raw = .ok d ∧
    v = s.nextVersion (nextId (s.processes.map Process.id)) c.now d ∧
    t = { s with
      processes := s.processes ++ [⟨nextId (s.processes.map Process.id), team, name⟩]
      versions := s.versions ++ [v] }

/-- A new version of a process is proposed, which a value describes. -/
def newVersion (c : Conditions) (s : Store) (p : Process) (raw : Json) : Proposal Version where
  dated := c.requireStamp = .ok ()
  Unread f := Description.validate raw = .error f
  torn := ∃ d, Description.validate raw = .ok d ∧ (d.name.isTorn = true ∨ d.hasTornPart = true)
  Wants := Description.IsFor raw
  Another q := q.id ≠ p.id
  Done name v t := ∃ d, Description.validate raw = .ok d ∧ v = s.nextVersion p.id c.now d ∧
    t = { setName s p.id name with versions := s.versions ++ [v] }

/-- Another name of a process is proposed. -/
def newName (s : Store) (p : Process) (raw : Json) : Proposal Process where
  dated := True
  Unread f := readName .top .process raw = .error f
  torn := ∃ w, readName .top .process raw = .ok w ∧ w.isTorn = true
  Wants := raw.IsName
  Another q := q.id ≠ p.id
  Done name q t := q = { p with name } ∧ t = setName s p.id name

section Decisions

variable {α : Type}

/-- Why a proposal is refused that the database would commit. -/
inductive Proposal.Refused (a : Proposal α) (s : Store) : Failure → Prop where
  | unread {f : Failure} (h : a.Unread f) : Refused a s f
  | unstorable (h : a.torn) : Refused a s .unstorable
  | taken {q : Process} (stored : q ∈ s.processes) (another : a.Another q) :
      Refused a s (.processExists q.name (some q.id))
  | undated (h : ¬a.dated) : Refused a s (.database .unprepared)

/-- A proposal decides how an operation ends. -/
structure Proposal.Decides (a : Proposal α) (c : Conditions) (s : Store) (o : Outcome α) :
    Prop where
  succeeds : a.dated → c.commitError 0 = none →
    ((∃ answer, o.result = .ok answer) ↔
      ∃ name, a.Wants name ∧ ∀ q ∈ s.processes, a.Another q → q.name ≠ name)
  done : ∀ answer, o.result = .ok answer → ∃ name, a.Wants name ∧ a.Done name answer o.store
  refused : c.commitError 0 = none → ∀ f, o.result = .error f → a.Refused s f
  /-- No constraint is violated unless the commit fails. -/
  no_violation : c.commitError 0 = none → ∀ f, o.result = .error f → f.isViolation = false
  unchanged : ∀ f, o.result = .error f → o.store = s
  constraints : o.store.Constraints

variable {a : Proposal α} {c : Conditions} {s : Store}

theorem Proposal.Refused.isViolation_eq_false (hunread : ∀ f, a.Unread f → f.isViolation = false)
    {f : Failure} (h : a.Refused s f) : f.isViolation = false := by
  cases h with
  | unread h => exact hunread f h
  | unstorable | taken | undated => rfl

/-- What is common to all decisions. -/
theorem Proposal.decides_of {o : Outcome α} (hs : s.Constraints)
    (hunread : ∀ f, a.Unread f → f.isViolation = false)
    (succeeds : a.dated → c.commitError 0 = none →
      ((∃ answer, o.result = .ok answer) ↔
        ∃ name, a.Wants name ∧ ∀ q ∈ s.processes, a.Another q → q.name ≠ name))
    (done : ∀ answer, o.result = .ok answer →
      (∃ name, a.Wants name ∧ a.Done name answer o.store) ∧ o.store.Constraints)
    (refused : c.commitError 0 = none → OnlyFails (a.Refused s) o.result)
    (unchanged : ∀ f, o.result = .error f → o.store = s) : a.Decides c s o := by
  have hrefused (hc : c.commitError 0 = none) (f : Failure) (hf : o.result = .error f) :
      a.Refused s f := by
    have honly := refused hc
    rwa [hf] at honly
  refine ⟨succeeds, fun answer h => (done answer h).1, hrefused,
    fun hc f hf => (hrefused hc f hf).isViolation_eq_false hunread, unchanged, ?_⟩
  cases hresult : o.result with
  | error f =>
      rw [unchanged f hresult]
      exact hs
  | ok answer => exact (done answer hresult).2

/-! ### Refusals -/

theorem refused_of_unread {β : Type} {x : Except Failure β}
    (h : ∀ f, x = .error f → a.Unread f) : OnlyFails (a.Refused s) x := by
  cases x with
  | error f => exact .unread (h f rfl)
  | ok b => trivial

theorem refused_requireWhole {w : Wording} (h : w.isTorn = true → a.torn) :
    OnlyFails (a.Refused s) (requireWhole w) := by
  cases w with
  | whole name => trivial
  | torn pieces => exact .unstorable (h rfl)

theorem refused_requireParts {d : Description} (h : d.hasTornPart = true → a.torn) :
    OnlyFails (a.Refused s) (requireParts d) :=
  .ite (fun htorn => .unstorable (h htorn)) fun _ => trivial

theorem refused_requireStamp (h : a.dated → c.requireStamp = .ok ()) :
    OnlyFails (a.Refused s) c.requireStamp := by
  cases hstamp : c.requireStamp with
  | ok => trivial
  | error f =>
      rw [hstamp] at h
      unfold Conditions.requireStamp at hstamp
      cases hdate : c.now.requireDate with
      | ok =>
          rw [hdate] at hstamp
          cases hstamp
      | error e =>
          rw [hdate] at hstamp
          obtain rfl := Except.error.inj hstamp
          exact .undated fun hdated => nomatch h hdated

theorem refused_requireFreeName {name : String} {except : Option Int}
    (h : ∀ q : Process, some q.id ≠ except → a.Another q) :
    OnlyFails (a.Refused s) (requireFreeName s name except) := by
  unfold requireFreeName
  cases hfound : s.processNamed? name with
  | none => trivial
  | some q =>
      refine .ite (fun _ => trivial) fun hother => ?_
      obtain rfl : q.name = name := by simpa using List.find?_some hfound
      exact .taken (List.mem_of_find?_eq_some hfound) (h q hother)

end Decisions

variable {c : Conditions} {s : Store} {p : Process} {raw : Json}

theorem refused_createProcess (hc : c.commitError 0 = none) {team : Int}
    (hteam : isStorable team = true) :
    OnlyFails ((newProcess c s team raw).Refused s) (createProcess c s team raw).result := by
  have hstorable : requireStorable team = .ok () := Store.requireStorable_of hteam
  refine onlyFails_createProcess_of hc (refused_of_unread fun _ hf => hf)
    (fun d hd => refused_requireWhole fun htorn => ⟨d, hd, Or.inl htorn⟩)
    (fun _ => refused_requireFreeName fun _ _ => trivial) (refused_requireStamp id) ?_
    fun d hd => refused_requireParts fun htorn => ⟨d, hd, Or.inr htorn⟩
  rw [hstorable]
  trivial

theorem refused_createVersion (hc : c.commitError 0 = none) :
    OnlyFails ((newVersion c s p raw).Refused s) (createVersion c s p raw).result :=
  onlyFails_createVersion_of hc (refused_of_unread fun _ hf => hf)
    (fun d hd => refused_requireWhole fun htorn => ⟨d, hd, Or.inl htorn⟩)
    (fun _ => refused_requireFreeName fun _ hother hid => hother (congrArg some hid))
    (refused_requireStamp id)
    fun d hd => refused_requireParts fun htorn => ⟨d, hd, Or.inr htorn⟩

theorem refused_rename (hc : c.commitError 0 = none) :
    OnlyFails ((newName s p raw).Refused s) (rename c s p raw).result :=
  onlyFails_rename_of hc (refused_of_unread fun _ hf => hf)
    (fun w hread => refused_requireWhole fun htorn => ⟨w, hread, htorn⟩)
    fun _ => refused_requireFreeName fun _ hother hid => hother (congrArg some hid)

/-! ### Decisions -/

theorem isViolation_of_validate {f : Failure} (h : Description.validate raw = .error f) :
    f.isViolation = false := by
  have hcases : OnlyFails _ (Description.validate raw) := Description.onlyFails_validate_cases
  rw [h] at hcases
  rcases hcases with ⟨defect, rfl⟩ | ⟨p, rfl⟩ <;> rfl

theorem isViolation_of_readName {f : Failure} (h : readName .top .process raw = .error f) :
    f.isViolation = false := by
  have hblamed : OnlyFails (Place.Blamed .top) (readName .top .process raw) := onlyFails_readName
  rw [h] at hblamed
  obtain ⟨cause, -, rfl⟩ := hblamed
  rfl

theorem decides_createProcess (h : Reachable s) (c : Conditions) {team : Int}
    (hteam : isStorable team = true) (raw : Json) :
    (newProcess c s team raw).Decides c s (createProcess c s team raw) := by
  refine Proposal.decides_of h.constraints (fun f => isViolation_of_validate)
    (fun hstamp hcommit => ?_) (fun v hv => ⟨?_, ?_⟩)
    (fun hc => refused_createProcess hc hteam) fun f => store_createProcess_of_error
  · simpa [newProcess] using exists_createProcess_iff hstamp hcommit hteam
  · obtain ⟨d, name, hvalid, hname, -, hparts, hversion, hstore⟩ := createProcess_of_ok hv
    exact ⟨name, ⟨d, hvalid, hname, hparts⟩, d, hvalid, hversion, hstore⟩
  · exact (h.after ⟨c, .define (.createProcess team raw)⟩).constraints

theorem decides_createVersion (h : Reachable s) (c : Conditions) (hp : p ∈ s.processes)
    (raw : Json) : (newVersion c s p raw).Decides c s (createVersion c s p raw) := by
  have hs := h.sound
  refine Proposal.decides_of h.constraints (fun f => isViolation_of_validate)
    (fun hstamp hcommit => h.wellNamed.exists_createVersion_iff hp hstamp hcommit)
    (fun v hv => ?_) (fun hc => refused_createVersion hc) fun f => store_createVersion_of_error
  obtain ⟨d, name, hvalid, hname, -, hparts, hversion, hstore⟩ := createVersion_of_ok hv
  refine ⟨⟨name, ⟨d, hvalid, hname, hparts⟩, d, hvalid, hversion, hstore⟩, ?_⟩
  -- No turn asks for a process by an id that cannot be stored, so what is stored then is looked at
  -- itself, and not a reachable store.
  have hfound : s.process? p.id = some p := hs.process?_eq_some_iff.2 ⟨hp, rfl⟩
  obtain ⟨t, htransition, hextends⟩ := settles_createVersion c hfound raw
  have hversions : (createVersion c s p raw).store.versions =
      s.versions ++ [s.nextVersion p.id c.now d] := by rw [hstore, hversion]
  exact ((hs.transition htransition).extends hextends).constraints
    (wellNamed_createVersion h.wellNamed hs hp hv) (h.linksNumbered.add hversions)

theorem decides_rename (h : Reachable s) (c : Conditions) (hp : p ∈ s.processes) (raw : Json) :
    (newName s p raw).Decides c s (rename c s p raw) := by
  have hs := h.sound
  refine Proposal.decides_of h.constraints (fun f => isViolation_of_readName)
    (fun _ hcommit => h.wellNamed.exists_rename_iff hs hp hcommit) (fun q hq => ?_)
    (fun hc => refused_rename hc) fun f => store_rename_of_error
  obtain ⟨name, hread, hfree, hq, hstore⟩ := rename_of_ok hs hp hq
  obtain ⟨w, hraw, hstrips⟩ := readName_eq_ok_iff_stripsTo.1 hread
  refine ⟨⟨name, ⟨w, hraw, hstrips⟩, hq, hstore⟩, ?_⟩
  rw [hstore]
  exact (hs.setName p.id name).constraints
    (h.wellNamed.setName hs hstrips.again (h.wellNamed.free_of_named hp hfree) rfl)
    (h.linksNumbered.congr rfl)

end Definitions

open Definitions in
/-- Whatever has been done before, the names of processes are distinct, stripped and not empty, and
the tables satisfy the constraints of the database. What is proposed for definitions is done exactly
when it wants a name that no other process has. If it is not done nothing changes, and a violated
constraint is the reason only if the commit itself fails so. -/
theorem definition_changes_decided {s : Store} (h : Reachable s) (c : Conditions) :
    (s.WellNamed ∧ ∀ p ∈ s.processes, p.name ≠ "") ∧ s.Constraints ∧
    (∀ team raw, isStorable team = true →
      (newProcess c s team raw).Decides c s (createProcess c s team raw)) ∧
    (∀ p ∈ s.processes, ∀ raw, (newVersion c s p raw).Decides c s (createVersion c s p raw)) ∧
    ∀ p ∈ s.processes, ∀ raw, (newName s p raw).Decides c s (rename c s p raw) :=
  ⟨⟨h.wellNamed, fun p hp => (h.wellNamed.stripped p hp).ne_empty⟩, h.constraints,
    fun _ raw hteam => decides_createProcess h c hteam raw,
    fun _ hp raw => decides_createVersion h c hp raw, fun _ hp raw => decides_rename h c hp raw⟩

open Definitions in
/-- The process of the review can be renamed. Another process cannot be created from the same
description, for which no constraint has to be violated. -/
theorem review_renamed :
    let p : Process := ⟨1, 1, "Review"⟩
    let renamed := rename Review.conditions Review.store p (.text " Essay ")
    let created := createProcess Review.conditions Review.store 1 Review.description
    p ∈ Review.store.processes ∧ (∃ q, renamed.result = .ok q ∧ q.id = 1) ∧
      renamed.store.Constraints ∧
      ∃ f, created.result = .error f ∧ f.isViolation = false ∧ created.store = Review.store := by
  intro p renamed created
  have hp : p ∈ Review.store.processes := by decide +kernel
  obtain ⟨-, -, hcreate, -, hrename⟩ :=
    definition_changes_decided Review.reachable Review.conditions
  have hothers : ∀ q ∈ Review.store.processes, q.id ≠ p.id → q.name ≠ "Essay" := by decide +kernel
  have hname : Json.IsName (.text " Essay ") "Essay" :=
    ⟨_, rfl, Wording.stripsTo_iff.2 ⟨by decide, by decide⟩⟩
  have hdecides := hrename p hp (.text " Essay ")
  obtain ⟨q, hq⟩ := (hdecides.succeeds trivial rfl).2 ⟨"Essay", hname, hothers⟩
  obtain ⟨name, -, rfl, -⟩ := hdecides.done q hq
  have hrefused : created.result.toBool = false := by decide +kernel
  refine ⟨hp, ⟨_, hq, rfl⟩, hdecides.constraints, ?_⟩
  have hdecides := hcreate 1 Review.description rfl
  cases hresult : created.result with
  | ok v =>
      rw [hresult] at hrefused
      cases hrefused
  | error f => exact ⟨f, rfl, hdecides.no_violation rfl f hresult, hdecides.unchanged f hresult⟩

open Definitions Json in
/-- Not every accepted description of a process whose name is free can be stored. -/
theorem torn_part_not_stored :
    ¬∀ s c raw d, Reachable s → c.Smooth → Description.validate raw = .ok d →
      (∀ p ∈ s.processes, Wording.whole p.name ≠ d.name) →
        ∃ v, (createProcess c s 1 raw).result = .ok v := by
  intro h
  let torn : Wording := .torn [.char 'A', .half 0xD800]
  let raw := object [("name", text "Essay"), ("start", int 0),
    ("slots", array [object [("name", text torn)]]),
    ("steps", array [object [("name", text "Writing")]])]
  obtain ⟨d, hd⟩ : ∃ d, Description.validate raw = .ok d := exists_ok_of_toBool (by decide +kernel)
  have hempty : Reachable .empty := ⟨[], rfl⟩
  have hsmooth : Review.conditions.Smooth := Conditions.smooth_of_date rfl _
  obtain ⟨v, hv⟩ := h .empty Review.conditions raw d hempty hsmooth hd nofun
  have hrefused : (createProcess Review.conditions .empty 1 raw).result.toBool = false := by
    decide +kernel
  rw [hv] at hrefused
  cases hrefused

end Editorial
