import Editorial.Proofs.Process.Misreading
import Editorial.Proofs.Process.Work

/-!
# What operations on definitions fail with

An operation on definitions fails as one of its checks does (`onlyFails_createProcess_of`,
`onlyFails_createVersion_of`, `onlyFails_rename_of`). A description is refused with a defect that
the client is told, and so is what clashes with stored processes (`onlyFails_createProcess`,
`onlyFails_createVersion`, `onlyFails_rename`, `onlyFails_deleteVersion`,
`onlyFails_deleteProcess`). That leaves descriptions that cannot be judged or stored
(`Description.Overtaxes`): a permission that is an array or object, and names with half characters.
-/

namespace Editorial

open Failure

/-! ### Descriptions that cannot be judged or stored -/

/-- A description that cannot be judged, or that is accepted and cannot be stored. -/
inductive Description.Overtaxes (raw : Json) : Prop where
  | permission {v : Json} (asked : v ∈ rawPermissions raw) (container : v.isContainer = true)
  | name {d : Description} (accepted : validate raw = .ok d) (torn : d.name.isTorn = true)
  | part {d : Description} (accepted : validate raw = .ok d) (torn : d.hasTornPart = true)

namespace Description

/-- The client is told why a description cannot be read, unless it cannot even be judged. -/
theorem Fault.blamed {cause : Prop} {raw : Json} (h : Overtaxes raw → cause) {f : Failure}
    (hf : Fault raw f) : BlamedOn cause f := by
  have hplace {place : Place} (hf : place.Blamed f) : BlamedOn cause f := by
    obtain ⟨_, -, rfl⟩ := hf
    exact Or.inl rfl
  cases hf with
  | top _ hf => exact hplace hf
  | slot _ _ hf => exact hplace hf
  | step hitem _ hf =>
      rcases hf with hf | ⟨p, hp, hf⟩
      · exact hplace hf
      · have hasked : p ∈ rawPermissions raw :=
          List.mem_flatMap.2 ⟨_, List.mem_of_getElem? hitem, hp⟩
        cases hf with
        | container hcontainer => exact Or.inr ⟨rfl, h (.permission hasked hcontainer)⟩
        | unknown => exact Or.inl rfl

theorem onlyFails_validate {cause : Prop} {raw : Json} (h : Overtaxes raw → cause) :
    OnlyFails (BlamedOn cause) (validate raw) := by
  refine .bind (onlyFails_ofJson.imp fun _ _ hf => hf.blamed h) fun d _ => ?_
  cases d.defect? with
  | some defect => exact Or.inl rfl
  | none => trivial

end Description

/-! ### Operations -/

namespace Definitions

variable {cause : Prop} {c : Conditions} {s : Store}

theorem onlyFails_requireFreeName {name : String} {except : Option Int} :
    OnlyFails (BlamedOn cause) (requireFreeName s name except) := by
  unfold requireFreeName
  cases s.processNamed? name with
  | none => trivial
  | some p => exact .ite (fun _ => trivial) fun _ => Or.inl rfl

theorem onlyFails_requireWhole {name : Text.Wording} (h : name.isTorn = true → cause) :
    OnlyFails (BlamedOn cause) (requireWhole name) := by
  cases name with
  | whole name => trivial
  | torn pieces => exact Or.inr ⟨rfl, h rfl⟩

theorem onlyFails_requireParts {d : Description} (h : d.hasTornPart = true → cause) :
    OnlyFails (BlamedOn cause) (requireParts d) :=
  .ite (fun htorn => Or.inr ⟨rfl, h htorn⟩) fun _ => trivial

/-- What is done to definitions fails at the commit only for what the database itself says. -/
theorem onlyFails_complete_work {α : Type} {P : Failure → Prop} {report : DatabaseError → Failure}
    {prepare : Except Failure (Work α)} (hc : c.commitError 0 = none)
    (hprepare : Ends P (fun w => w.flaw = none) prepare) :
    OnlyFails P (complete c s report prepare).result := by
  refine onlyFails_complete hc ?_ fun w f hw hf => ?_
  · cases prepare with
    | error f => exact hprepare
    | ok w => trivial
  · rw [hw] at hprepare
    cases hf.symm.trans hprepare

section Checks

variable {P : Failure → Prop} {p : Process} {raw : Json}

/-- Creating a process fails as one of its checks does. -/
theorem onlyFails_createProcess_of {team : Int} (hc : c.commitError 0 = none)
    (hvalid : OnlyFails P (Description.validate raw))
    (hname : ∀ d, Description.validate raw = .ok d → OnlyFails P (requireWhole d.name))
    (hfree : ∀ name, OnlyFails P (requireFreeName s name none))
    (hstamp : OnlyFails P c.requireStamp) (hteam : OnlyFails P (requireStorable team))
    (hparts : ∀ d, Description.validate raw = .ok d → OnlyFails P (requireParts d)) :
    OnlyFails P (createProcess c s team raw).result := by
  unfold createProcess
  cases hd : Description.validate raw with
  | error f =>
      rw [hd] at hvalid
      exact hvalid
  | ok d =>
      exact onlyFails_complete_work hc <| .bind (hname d hd) fun name _ =>
        .bind (hfree name) fun _ _ => .bind hstamp fun _ _ => .bind hteam fun _ _ =>
          .bind (hparts d hd) fun _ _ => rfl

/-- Creating a version fails as one of its checks does. -/
theorem onlyFails_createVersion_of (hc : c.commitError 0 = none)
    (hvalid : OnlyFails P (Description.validate raw))
    (hname : ∀ d, Description.validate raw = .ok d → OnlyFails P (requireWhole d.name))
    (hfree : ∀ name, OnlyFails P (requireFreeName s name (some p.id)))
    (hstamp : OnlyFails P c.requireStamp)
    (hparts : ∀ d, Description.validate raw = .ok d → OnlyFails P (requireParts d)) :
    OnlyFails P (createVersion c s p raw).result := by
  unfold createVersion
  cases hd : Description.validate raw with
  | error f =>
      rw [hd] at hvalid
      exact hvalid
  | ok d =>
      refine onlyFails_complete_work hc <| .bind (hname d hd) fun name _ => ?_
      have hrest : Ends P (fun w : Work Version => w.flaw = none) (do
          c.requireStamp
          requireParts d
          let added := addVersion (setName s p.id name) c.now p.id d
          return work added.2 added.1) :=
        .bind hstamp fun _ _ => .bind (hparts d hd) fun _ _ => rfl
      -- A name that the process has already is not looked for.
      exact .ite (fun _ => .bind (hfree name) fun _ _ => hrest) fun _ => hrest

/-- Renaming a process fails as one of its checks does. -/
theorem onlyFails_rename_of (hc : c.commitError 0 = none)
    (hread : OnlyFails P (readName .top .process raw))
    (hname : ∀ w, readName .top .process raw = .ok w → OnlyFails P (requireWhole w))
    (hfree : ∀ name, OnlyFails P (requireFreeName s name (some p.id))) :
    OnlyFails P (rename c s p raw).result := by
  unfold rename
  cases hstripped : readName .top .process raw with
  | error f =>
      rw [hstripped] at hread
      exact hread
  | ok stripped =>
      dsimp only
      split
      · trivial
      · exact onlyFails_complete_work hc <| .bind (hname stripped hstripped) fun name _ =>
          .bind (hfree name) fun _ _ => rfl

end Checks

theorem onlyFails_createProcess (hc : c.Smooth) {team : Int} {raw : Json}
    (hteam : isStorable team = false → cause) (hraw : Description.Overtaxes raw → cause) :
    OnlyFails (BlamedOn cause) (createProcess c s team raw).result :=
  onlyFails_createProcess_of (hc.commits 0) (Description.onlyFails_validate hraw)
    (fun _ hd => onlyFails_requireWhole fun htorn => hraw (.name hd htorn))
    (fun _ => onlyFails_requireFreeName) (onlyFails_requireStamp hc)
    (onlyFails_requireStorable hteam)
    fun _ hd => onlyFails_requireParts fun htorn => hraw (.part hd htorn)

theorem onlyFails_createVersion (hc : c.Smooth) {p : Process} {raw : Json}
    (hraw : Description.Overtaxes raw → cause) :
    OnlyFails (BlamedOn cause) (createVersion c s p raw).result :=
  onlyFails_createVersion_of (hc.commits 0) (Description.onlyFails_validate hraw)
    (fun _ hd => onlyFails_requireWhole fun htorn => hraw (.name hd htorn))
    (fun _ => onlyFails_requireFreeName) (onlyFails_requireStamp hc)
    fun _ hd => onlyFails_requireParts fun htorn => hraw (.part hd htorn)

theorem onlyFails_rename (hc : c.Smooth) {p : Process} {name : Json}
    (hname : ∀ stripped, readName .top .process name = .ok stripped → stripped.isTorn = true →
      cause) :
    OnlyFails (BlamedOn cause) (rename c s p name).result :=
  onlyFails_rename_of (hc.commits 0)
    (onlyFails_readName.imp fun _ _ ⟨_, _, hf⟩ => Or.inl (hf ▸ rfl))
    (fun stripped hread => onlyFails_requireWhole (hname stripped hread))
    fun _ => onlyFails_requireFreeName

theorem onlyFails_deleteVersion (hc : c.Smooth) (v : Version) :
    OnlyFails (BlamedOn cause) (deleteVersion c s v).result :=
  onlyFails_complete_work (hc.commits 0) (.guard (fun _ => Or.inl rfl) fun _ => rfl)

theorem onlyFails_deleteProcess (hc : c.Smooth) (p : Process) :
    OnlyFails (BlamedOn cause) (deleteProcess c s p).result :=
  onlyFails_complete_work (hc.commits 0) (.guard (fun _ => Or.inl rfl) fun _ => rfl)

end Definitions

end Editorial
