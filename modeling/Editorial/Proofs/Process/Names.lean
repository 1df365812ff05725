import Editorial.Proofs.Process.Change

/-!
# Names of processes

A name is stored without the blanks around it, and not while another process has it. Three kinds of
turns set names, each with its own check; together they keep the names of all processes distinct
(`Reachable.wellNamed`). Where names are distinct the check says that no other process has the name
(`Definitions.requireFreeName_some_eq_ok_iff`). That is all that stands between an accepted
description and its version (`Definitions.exists_createProcess_iff`,
`Store.WellNamed.exists_createVersion_iff`) or between a text and its use as a name
(`Store.WellNamed.exists_rename_iff`), besides half characters, which cannot be stored.
-/

namespace Editorial

open Text

/-- Nothing is left of no text. -/
theorem Text.Wording.StripsTo.ne_empty {raw : Wording} {name : String} (h : raw.StripsTo name) :
    name ≠ "" := by
  rintro rfl
  obtain ⟨a, ha, -⟩ := h.pieces.first
  cases ha

/-! ### Stores in which names are distinct -/

/-- The names of processes are stripped and distinct. -/
structure Store.WellNamed (s : Store) : Prop where
  distinct : (s.processes.map Process.name).Nodup
  stripped : ∀ p ∈ s.processes, Wording.StripsTo p.name p.name

namespace Definitions

variable {s : Store} {name : String}

theorem requireFreeName_eq_ok_iff :
    requireFreeName s name none = .ok () ↔ ∀ p ∈ s.processes, p.name ≠ name := by
  unfold requireFreeName
  cases hfound : s.processNamed? name with
  | none =>
      rw [Store.processNamed?, List.find?_eq_none] at hfound
      exact iff_of_true rfl fun p hp hname => hfound p hp (beq_iff_eq.2 hname)
  | some p =>
      have hname : p.name = name := by simpa using List.find?_some hfound
      exact iff_of_false nofun fun h => h p (List.mem_of_find?_eq_some hfound) hname

/-- Where names are distinct, the process that is found under a name is the only one. -/
theorem requireFreeName_some_eq_ok_iff (h : s.WellNamed) {id : Int} :
    requireFreeName s name (some id) = .ok () ↔
      ∀ q ∈ s.processes, q.id ≠ id → q.name ≠ name := by
  unfold requireFreeName
  cases hfound : s.processNamed? name with
  | none =>
      rw [Store.processNamed?, List.find?_eq_none] at hfound
      exact iff_of_true rfl fun q hq _ hname => hfound q hq (beq_iff_eq.2 hname)
  | some p =>
      have hp := List.mem_of_find?_eq_some hfound
      have hname : p.name = name := by simpa using List.find?_some hfound
      dsimp only
      by_cases hid : p.id = id
      · rw [if_pos (congrArg some hid)]
        refine iff_of_true rfl fun q hq hother hsame => hother ?_
        rw [List.inj_on_of_nodup_map h.distinct hq hp (hsame.trans hname.symm)]
        exact hid
      · rw [if_neg fun h => hid (Option.some.inj h)]
        exact iff_of_false nofun fun hfree => hfree p hp hid hname

end Definitions

namespace Store.WellNamed

variable {s u : Store}

theorem add (h : s.WellNamed) {p : Process} (hstripped : Wording.StripsTo p.name p.name)
    (hfree : ∀ q ∈ s.processes, q.name ≠ p.name) (hu : u.processes = s.processes ++ [p]) :
    u.WellNamed := by
  constructor
  · rw [hu]
    refine nodup_map_concat Process.name h.distinct fun hmem => ?_
    obtain ⟨q, hq, hname⟩ := List.mem_map.1 hmem
    exact hfree q hq hname
  · rw [hu]
    exact forall_mem_concat h.stripped hstripped

theorem setName (h : s.WellNamed) (hs : s.Sound) {id : Int} {name : String}
    (hstripped : Wording.StripsTo name name)
    (hfree : ∀ q ∈ s.processes, q.id ≠ id → q.name ≠ name)
    (hu : u.processes = (Definitions.setName s id name).processes) : u.WellNamed := by
  have hprocesses : s.processes.Nodup := List.Nodup.of_map Process.id hs.process_ids
  constructor
  · rw [hu, Definitions.setName, List.map_map]
    apply hprocesses.map_on
    intro p hp q hq hsame
    simp only [Function.comp_apply] at hsame
    -- Two that share a name now: both have been renamed, one of them, or none.
    split at hsame <;> split at hsame <;> rename_i hpid hqid
    · exact List.inj_on_of_nodup_map hs.process_ids hp hq (hpid.trans hqid.symm)
    · exact absurd hsame.symm (hfree q hq hqid)
    · exact absurd hsame (hfree p hp hpid)
    · exact List.inj_on_of_nodup_map h.distinct hp hq hsame
  · intro p hp
    rw [hu] at hp
    obtain ⟨q, hq, rfl⟩ := List.mem_map.1 hp
    split
    · exact hstripped
    · exact h.stripped q hq

theorem filter (h : s.WellNamed) {keep : Process → Bool}
    (hu : u.processes = s.processes.filter keep) : u.WellNamed := by
  constructor
  · rw [hu]
    exact h.distinct.sublist (List.filter_sublist.map _)
  · rw [hu]
    exact fun p hp => h.stripped p (List.mem_filter.1 hp).1

/-- What is free is still free when it is compared with the name that a process has. -/
theorem free_of_named (h : s.WellNamed) {p : Process} (hp : p ∈ s.processes) {name : String}
    (hfree : name ≠ p.name → Definitions.requireFreeName s name (some p.id) = .ok ()) :
    ∀ q ∈ s.processes, q.id ≠ p.id → q.name ≠ name := by
  by_cases hname : name = p.name
  · rintro q hq hother rfl
    rw [List.inj_on_of_nodup_map h.distinct hq hp hname] at hother
    exact hother rfl
  · exact (Definitions.requireFreeName_some_eq_ok_iff h).1 (hfree hname)

end Store.WellNamed

namespace Definitions

variable {c : Conditions} {s : Store} {raw : Json} {v : Version}

theorem wellNamed_createProcess (h : s.WellNamed) {team : Int}
    (done : (createProcess c s team raw).result = .ok v) :
    (createProcess c s team raw).store.WellNamed := by
  obtain ⟨d, name, hvalid, hname, hfree, -, -, hstore⟩ := createProcess_of_ok done
  have hclean := (Description.validate_eq_ok_iff_reads.1 hvalid).1.clean.name
  rw [hname] at hclean
  rw [hstore]
  exact h.add (p := ⟨_, team, name⟩) hclean (requireFreeName_eq_ok_iff.1 hfree) rfl

theorem wellNamed_createVersion (h : s.WellNamed) (hs : s.Sound) {p : Process}
    (hp : p ∈ s.processes) (done : (createVersion c s p raw).result = .ok v) :
    (createVersion c s p raw).store.WellNamed := by
  obtain ⟨d, name, hvalid, hname, hfree, -, -, hstore⟩ := createVersion_of_ok done
  have hclean := (Description.validate_eq_ok_iff_reads.1 hvalid).1.clean.name
  rw [hname] at hclean
  rw [hstore]
  exact h.setName hs hclean (h.free_of_named hp hfree) rfl

end Definitions

namespace Store.WellNamed

variable {s : Store}

theorem after (h : s.WellNamed) (hs : s.Sound) (t : Turn) : (s.after t).WellNamed := by
  cases t.redefines s with
  | creates hcreated =>
      cases hcreated with
      | process done => exact Definitions.wellNamed_createProcess h done
      | version found done =>
          rw [after_createVersion found]
          have hp := List.mem_of_find?_eq_some (process_eq_ok_iff.1 found).2
          exact Definitions.wellNamed_createVersion h hs hp done
  | renames found read free hafter =>
      obtain ⟨raw, -, hstrips⟩ := readName_eq_ok_iff_stripsTo.1 read
      rw [hafter]
      exact h.setName hs hstrips.again (Definitions.requireFreeName_some_eq_ok_iff h |>.1 free) rfl
  | keeps _ _ hprocesses _ => exact h.filter hprocesses

end Store.WellNamed

theorem Reachable.wellNamed {s : Store} (h : Reachable s) : s.WellNamed :=
  h.induction ⟨List.nodup_nil, nofun⟩ fun _ t hreach hs => hs.after hreach.sound t

/-! ### When a name is given -/

/-- A value is accepted as the description of a process with a name, and no name in it has half
characters. -/
def Description.IsFor (raw : Json) (name : String) : Prop :=
  ∃ d, validate raw = .ok d ∧ d.name = name ∧ d.hasTornPart = false

/-- A value is a text of which a name is left without the blanks around it. -/
def Json.IsName (raw : Json) (name : String) : Prop :=
  ∃ w : Wording, raw = .text w ∧ w.StripsTo name

section Decisions

variable {c : Conditions} {s : Store} {raw : Json} {p : Process}

namespace Definitions

/-- To give a process the name that it has changes nothing. -/
theorem setName_self (hs : s.Sound) (hp : p ∈ s.processes) : setName s p.id p.name = s := by
  have hsame : s.processes.map (fun q => if q.id = p.id then { q with name := p.name } else q) =
      s.processes := by
    refine (List.map_congr_left fun q hq => ?_).trans (List.map_id _)
    split
    · rename_i hid
      rw [List.inj_on_of_nodup_map hs.process_ids hq hp hid]
      rfl
    · rfl
  unfold setName
  rw [hsame]

theorem rename_of_ok (hs : s.Sound) (hp : p ∈ s.processes) {q : Process}
    (h : (rename c s p raw).result = .ok q) :
    ∃ name : String, readName .top .process raw = .ok name ∧
      (name ≠ p.name → requireFreeName s name (some p.id) = .ok ()) ∧ q = { p with name } ∧
      (rename c s p raw).store = setName s p.id name := by
  unfold rename at h ⊢
  cases hread : readName .top .process raw with
  | error f =>
      rw [hread] at h
      cases h
  | ok stripped =>
      simp only [hread] at h ⊢
      by_cases hsame : stripped = .whole p.name
      · rw [if_pos hsame] at h ⊢
        obtain rfl := Except.ok.inj h
        exact ⟨p.name, congrArg Except.ok hsame, absurd rfl, rfl, (setName_self hs hp).symm⟩
      · rw [if_neg hsame] at h ⊢
        rcases complete_cases c s _ _ with ⟨f, hf⟩ | ⟨w, hw, -, ho⟩
        · rw [hf] at h
          cases h
        · simp only [bind_eq_ok_iff, pure_eq_ok_iff, requireWhole_eq_ok_iff] at hw
          obtain ⟨name, hname, ⟨⟩, hfree, rfl⟩ := hw
          rw [ho] at h ⊢
          obtain rfl := Except.ok.inj h
          exact ⟨name, congrArg Except.ok hname, fun _ => hfree, rfl, rfl⟩

theorem exists_createProcess_iff {team : Int} (hstamp : c.requireStamp = .ok ())
    (hcommit : c.commitError 0 = none) (hteam : isStorable team = true) :
    (∃ v, (createProcess c s team raw).result = .ok v) ↔
      ∃ name, Description.IsFor raw name ∧ ∀ q ∈ s.processes, q.name ≠ name := by
  constructor
  · rintro ⟨v, hv⟩
    obtain ⟨d, name, hvalid, hname, hfree, hparts, -⟩ := createProcess_of_ok hv
    exact ⟨name, ⟨d, hvalid, hname, hparts⟩, requireFreeName_eq_ok_iff.1 hfree⟩
  · rintro ⟨name, ⟨d, hvalid, hname, hparts⟩, hothers⟩
    have hfree := requireFreeName_eq_ok_iff.2 hothers
    have hwhole : requireParts d = .ok () := requireParts_eq_ok_iff.2 hparts
    unfold createProcess
    simp only [hvalid, requireWhole_eq_ok_iff.2 hname, hfree, hstamp,
      Store.requireStorable_of hteam, hwhole, bind, Except.bind, pure, Except.pure]
    exact ⟨_, congrArg Outcome.result (complete_work hcommit _ _)⟩

end Definitions

namespace Store.WellNamed

open Definitions

theorem exists_createVersion_iff (h : s.WellNamed) (hp : p ∈ s.processes)
    (hstamp : c.requireStamp = .ok ()) (hcommit : c.commitError 0 = none) :
    (∃ v, (createVersion c s p raw).result = .ok v) ↔
      ∃ name, Description.IsFor raw name ∧ ∀ q ∈ s.processes, q.id ≠ p.id → q.name ≠ name := by
  constructor
  · rintro ⟨v, hv⟩
    obtain ⟨d, name, hvalid, hname, hfree, hparts, -⟩ := createVersion_of_ok hv
    exact ⟨name, ⟨d, hvalid, hname, hparts⟩, h.free_of_named hp hfree⟩
  · rintro ⟨name, ⟨d, hvalid, hname, hparts⟩, hothers⟩
    have hfree := (requireFreeName_some_eq_ok_iff h).2 hothers
    exact exists_createVersion_of_free hvalid hname (fun _ => hfree) hparts hstamp hcommit

theorem exists_rename_iff (h : s.WellNamed) (hs : s.Sound) (hp : p ∈ s.processes)
    (hcommit : c.commitError 0 = none) :
    (∃ q, (rename c s p raw).result = .ok q) ↔
      ∃ name, raw.IsName name ∧ ∀ q ∈ s.processes, q.id ≠ p.id → q.name ≠ name := by
  constructor
  · rintro ⟨q, hq⟩
    obtain ⟨name, hread, hfree, -⟩ := rename_of_ok hs hp hq
    exact ⟨name, readName_eq_ok_iff_stripsTo.1 hread, h.free_of_named hp hfree⟩
  · rintro ⟨name, hname, hothers⟩
    have hread : readName .top .process raw = .ok name := readName_eq_ok_iff_stripsTo.2 hname
    have hfree := (requireFreeName_some_eq_ok_iff h).2 hothers
    unfold rename
    simp only [hread, requireWhole_eq_ok_iff.2 rfl, hfree, bind, Except.bind, pure, Except.pure]
    split
    · exact ⟨p, rfl⟩
    · exact ⟨_, congrArg Outcome.result (complete_work hcommit _ _)⟩

end Store.WellNamed

end Decisions

end Editorial
