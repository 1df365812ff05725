import Editorial.Proofs.Draft.Effect
import Editorial.Proofs.Draft.Records

/-!
# What is stored for a team

Processes, drafts and modules name their team; a version belongs to the team of its process and the
record of a run to the team of its version (`Store.holdings`). What is done to the definitions of
one team leaves what is stored for all others as it is, and so does an operation on drafts
(`Drafting.Operation.holdings_perform`), up to the document that a module gets when its draft is
concluded: modules come from outside, and may be given to another team meanwhile.
-/

namespace Editorial

open Definitions

/-- What is stored for a team. Slots and steps are part of their version, seats of their draft. -/
structure Holdings where
  processes : List Process
  versions : List Version
  drafts : List Draft
  runs : List Run
  modules : List Module
  deriving DecidableEq

namespace Store

/-- Whether the process with an id belongs to a team. -/
def ownsProcess (s : Store) (team id : Int) : Bool :=
  s.processes.any fun p => p.id == id && p.team == team

/-- Whether the version with an id belongs to a team. -/
def ownsVersion (s : Store) (team id : Int) : Bool :=
  s.versions.any fun v => v.id == id && s.ownsProcess team v.process

/-- What is stored for a team. -/
def holdings (s : Store) (team : Int) : Holdings where
  processes := s.processes.filter fun p => p.team == team
  versions := s.versions.filter fun v => s.ownsProcess team v.process
  drafts := s.drafts.filter fun d => d.team == team
  runs := s.runs.filter fun r => s.ownsVersion team r.version
  modules := s.modules.filter fun m => m.team == team

variable {s : Store} {team : Int}

/-- Events belong to no team. -/
theorem Extends.holdings {u : Store} (h : u.Extends s) (team : Int) :
    u.holdings team = s.holdings team := by
  obtain ⟨es, rfl⟩ := h
  rfl

/-! ### Rows of other teams -/

theorem ownsVersion_congr {u : Store} (hversions : u.versions = s.versions)
    (hprocesses : u.ownsProcess team = s.ownsProcess team) :
    u.ownsVersion team = s.ownsVersion team := by
  unfold ownsVersion
  rw [hversions, hprocesses]

namespace Sound

theorem ownsProcess_eq_false (h : s.Sound) {p : Process} (hp : p ∈ s.processes)
    (hteam : p.team ≠ team) : s.ownsProcess team p.id = false := by
  refine List.any_eq_false.2 fun q hq howns => hteam ?_
  rw [Bool.and_eq_true, beq_iff_eq, beq_iff_eq] at howns
  rw [← List.inj_on_of_nodup_map h.process_ids hq hp howns.1]
  exact howns.2

theorem ownsVersion_eq_false (h : s.Sound) {v : Version} (hv : v ∈ s.versions)
    (hprocess : s.ownsProcess team v.process = false) : s.ownsVersion team v.id = false := by
  refine List.any_eq_false.2 fun w hw howns => Bool.false_ne_true (hprocess.symm.trans ?_)
  rw [Bool.and_eq_true, beq_iff_eq] at howns
  rw [← h.version_unique hw hv howns.1]
  exact howns.2

end Sound

end Store

variable {s : Store} {team : Int}

/-! ### Definitions -/

namespace Definitions

variable {p : Process}

theorem holdings_addProcess (s : Store) {other : Int} (name : String) (hteam : other ≠ team) :
    (addProcess s other name).holdings team = s.holdings team := by
  have hother : (other == team) = false := beq_eq_false_iff_ne.2 hteam
  have howns : (addProcess s other name).ownsProcess team = s.ownsProcess team := by
    funext id
    unfold Store.ownsProcess addProcess
    simp [hother]
  have hversions : (addProcess s other name).ownsVersion team = s.ownsVersion team :=
    Store.ownsVersion_congr rfl howns
  unfold Store.holdings
  rw [howns, hversions]
  unfold addProcess
  dsimp only
  rw [filter_concat_of_not]
  exact hother

theorem holdings_setName (h : s.Sound) (hp : p ∈ s.processes) (hteam : p.team ≠ team)
    (name : String) : (setName s p.id name).holdings team = s.holdings team := by
  have howns : (setName s p.id name).ownsProcess team = s.ownsProcess team := by
    funext id
    unfold Store.ownsProcess setName
    rw [List.any_map]
    congr 1
    funext q
    rw [Function.comp_apply]
    split <;> rfl
  have hversions : (setName s p.id name).ownsVersion team = s.ownsVersion team :=
    Store.ownsVersion_congr rfl howns
  unfold Store.holdings
  rw [howns, hversions]
  unfold setName
  rw [filter_map_of_kept]
  · intro q _
    split <;> rfl
  · intro q hq hown
    refine if_neg fun hid => hteam ?_
    rw [← List.inj_on_of_nodup_map h.process_ids hq hp hid]
    exact beq_iff_eq.1 hown

theorem holdings_addVersion (h : s.Sound) (hp : p ∈ s.processes) (hteam : p.team ≠ team)
    (now : Instant) (d : Description) :
    (addVersion s now p.id d).1.holdings team = s.holdings team := by
  have hforeign : s.ownsProcess team p.id = false := h.ownsProcess_eq_false hp hteam
  have howns : (addVersion s now p.id d).1.ownsVersion team = s.ownsVersion team := by
    funext id
    change List.any (s.versions ++ [_]) _ = _
    rw [List.any_append, List.any_cons, List.any_nil]
    change (s.ownsVersion team id || (_ && s.ownsProcess team p.id || false)) = _
    rw [hforeign, Bool.and_false, Bool.or_false, Bool.or_false]
  unfold Store.holdings
  rw [howns]
  unfold addVersion
  dsimp only
  rw [filter_concat_of_not]
  · rfl
  · exact hforeign

/-- Versions and processes may go that do not belong to a team. -/
theorem holdings_filter {u : Store} (keepVersion : Version → Bool) (keepProcess : Process → Bool)
    (hu : u = { s with
      versions := s.versions.filter keepVersion
      processes := s.processes.filter keepProcess })
    (hversion : ∀ v ∈ s.versions, s.ownsProcess team v.process = true → keepVersion v = true)
    (hprocess : ∀ p ∈ s.processes, p.team = team → keepProcess p = true) :
    u.holdings team = s.holdings team := by
  have howns : u.ownsProcess team = s.ownsProcess team := by
    funext id
    rw [hu]
    refine any_filter_of_imp fun p hp hown => hprocess p hp ?_
    exact beq_iff_eq.1 (Bool.and_eq_true_iff.1 hown).2
  have hversions : u.ownsVersion team = s.ownsVersion team := by
    funext id
    unfold Store.ownsVersion
    rw [howns, hu]
    exact any_filter_of_imp fun v hv hown => hversion v hv (Bool.and_eq_true_iff.1 hown).2
  unfold Store.holdings
  rw [howns, hversions, hu]
  dsimp only
  rw [filter_filter_of_imp hversion,
    filter_filter_of_imp fun p hp hown => hprocess p hp (beq_iff_eq.1 hown)]

theorem holdings_createProcess (h : s.Sound) (c : Conditions) {other : Int} (raw : Json)
    (hteam : other ≠ team) :
    (createProcess c s other raw).store.holdings team = s.holdings team := by
  rcases createProcess_cases c s other raw with
    ⟨f, hf⟩ | ⟨d, t, v, name, -, -, -, -, hother, -, -, ht, ho⟩
  · rw [hf]
    rfl
  · rw [ho, outcome_work]
    have hadded : (addProcess s other name).Sound := h.addProcess name hother
    have ht : t = _ := congrArg Prod.fst ht
    have hmem : (⟨nextId (s.processes.map Process.id), other, name⟩ : Process) ∈
        (addProcess s other name).processes :=
      List.mem_append_right _ (List.mem_singleton_self _)
    rw [ht]
    exact (holdings_addVersion hadded hmem hteam c.now d).trans (holdings_addProcess s name hteam)

theorem holdings_createVersion (h : s.Sound) (c : Conditions) (hp : p ∈ s.processes) (raw : Json)
    (hteam : p.team ≠ team) :
    (createVersion c s p raw).store.holdings team = s.holdings team := by
  rcases createVersion_cases c s p raw with
    ⟨f, hf⟩ | ⟨d, t, v, name, -, -, -, -, -, -, ht, ho⟩
  · rw [hf]
    rfl
  · rw [ho, outcome_work]
    have ht : t = (addVersion (setName s p.id name) c.now p.id d).1 := congrArg Prod.fst ht
    obtain ⟨q, hq, hid, hqteam⟩ := Store.Sound.exists_mem_setName p.id name hp
    have hadded := holdings_addVersion (h.setName p.id name) hq (hqteam ▸ hteam) c.now d
    rw [hid] at hadded
    rw [ht]
    exact hadded.trans (holdings_setName h hp hteam name)

theorem holdings_rename (h : s.Sound) (c : Conditions) (hp : p ∈ s.processes) (name : Json)
    (hteam : p.team ≠ team) : (rename c s p name).store.holdings team = s.holdings team := by
  rcases rename_cases c s p name with ⟨result, hr⟩ | ⟨name, -, -, -, ho⟩
  · rw [hr]
    rfl
  · rw [ho, outcome_work]
    exact holdings_setName h hp hteam name

theorem holdings_deleteVersion (h : s.Sound) (c : Conditions) (hp : p ∈ s.processes) {v : Version}
    (hv : v ∈ s.versions) (hprocess : v.process = p.id) (hteam : p.team ≠ team) :
    (deleteVersion c s v).store.holdings team = s.holdings team := by
  rcases deleteVersion_cases c s v with ⟨f, hf⟩ | ⟨-, -, ho⟩
  · rw [hf]
    rfl
  · rw [ho, outcome_work]
    refine holdings_filter (fun w => w.id != v.id) (fun _ => true) ?_ (fun w hw hown => ?_)
      fun _ _ _ => rfl
    · rw [List.filter_true]
    · rw [bne_iff_ne]
      intro hid
      rw [h.version_unique hw hv hid, hprocess, h.ownsProcess_eq_false hp hteam] at hown
      cases hown

theorem holdings_deleteProcess (h : s.Sound) (c : Conditions) (hp : p ∈ s.processes)
    (hteam : p.team ≠ team) : (deleteProcess c s p).store.holdings team = s.holdings team := by
  rcases deleteProcess_cases c s p with ⟨f, hf⟩ | ⟨-, -, ho⟩
  · rw [hf]
    rfl
  · rw [ho, outcome_work]
    refine holdings_filter (fun v => v.process != p.id) (fun q => q.id != p.id) rfl
      (fun v _ hown => ?_) fun q hq hown => ?_
    · rw [bne_iff_ne]
      intro hid
      rw [hid, h.ownsProcess_eq_false hp hteam] at hown
      cases hown
    · rw [bne_iff_ne]
      intro hid
      rw [List.inj_on_of_nodup_map h.process_ids hq hp hid] at hown
      exact hteam hown

end Definitions

/-! ### Drafts -/

namespace Store.Sound

theorem holdings_putDraft (h : s.Sound) {d d' : Draft}
    (hd : s.draft? d.module = some d) (hmodule : d'.module = d.module) (hsame : d'.team = d.team)
    (hteam : d.team ≠ team) : (s.putDraft d').holdings team = s.holdings team := by
  have hmem := (h.draft?_eq_some_iff.1 hd).1
  have hother {e : Draft} (he : e ∈ s.drafts) (hkey : e.module = d'.module) : e = d :=
    List.inj_on_of_nodup_map h.draft_modules he hmem (hkey.trans hmodule)
  unfold Store.holdings Store.putDraft
  dsimp only
  rw [filter_map_of_kept]
  · rfl
  · intro e he
    split
    · rename_i hkey
      rw [hother he hkey, hsame]
    · rfl
  · intro e he hown
    refine if_neg fun hkey => hteam ?_
    rw [← hother he hkey]
    exact beq_iff_eq.1 hown

/-- A draft that is put in place of itself changes nothing. -/
theorem putDraft_self (h : s.Sound) {d : Draft} (hd : s.draft? d.module = some d) :
    s.putDraft d = s := by
  have hmem := (h.draft?_eq_some_iff.1 hd).1
  have hsame : (s.drafts.map fun e => if e.module = d.module then d else e) = s.drafts := by
    refine (List.map_congr_left fun e he => ?_).trans (List.map_id _)
    split
    · rename_i hkey
      exact (List.inj_on_of_nodup_map h.draft_modules he hmem hkey).symm
    · rfl
  unfold Store.putDraft
  rw [hsame]

/-- The version of a draft belongs to the team of the draft, and to no other. -/
theorem ownsVersion_of_draft (h : s.Sound) {d : Draft} (hd : d ∈ s.drafts)
    (hteam : d.team ≠ team) : s.ownsVersion team d.version = false := by
  obtain ⟨v, hv, hid, -, p, hp, hpv, hpteam⟩ := h.grounds d hd
  rw [← hid]
  refine h.ownsVersion_eq_false hv ?_
  rw [← hpv]
  exact h.ownsProcess_eq_false hp (hpteam ▸ hteam)

theorem holdings_endDraft (h : s.Sound) {d : Draft} (hd : s.draft? d.module = some d)
    (outcome : RunOutcome) (now : Instant) (hteam : d.team ≠ team) :
    ((s.closeOpenRun d.module outcome now).removeDraft d.module).holdings team =
      s.holdings team := by
  have hmem := (h.draft?_eq_some_iff.1 hd).1
  have hforeign := h.ownsVersion_of_draft hmem hteam
  obtain ⟨r, before, behind, -, hversion, -, hfound, hclosed⟩ :=
    h.runs_closeOpenRun hmem outcome now
  obtain ⟨runs, hruns⟩ := s.exists_runs_closeOpenRun d.module outcome now
  rw [hruns] at hclosed ⊢
  change runs = _ at hclosed
  unfold Store.holdings Store.removeDraft
  dsimp only
  congr 1
  · refine filter_filter_of_imp fun e he hown => bne_iff_ne.2 fun hkey => hteam ?_
    rw [← List.inj_on_of_nodup_map h.draft_modules he hmem hkey]
    exact beq_iff_eq.1 hown
  · have hleft (e : Run) (he : e.version = d.version) :
        ((before ++ e :: behind).filter fun r => s.ownsVersion team r.version) =
          (before ++ behind).filter fun r => s.ownsVersion team r.version := by
      rw [List.filter_append, List.filter_cons_of_neg (by simp [he, hforeign]), List.filter_append]
    rw [hclosed, hfound]
    exact (hleft { r with outcome, ended := some now } hversion).trans (hleft r hversion).symm

theorem holdings_publish {module : String} (document : Int)
    (hteam : ∀ m ∈ s.modules, m.id = module → m.team ≠ team) :
    (s.publish module document).holdings team = s.holdings team := by
  unfold Store.holdings Store.publish
  dsimp only
  rw [filter_map_of_kept]
  · rfl
  · intro m _
    split <;> rfl
  · exact fun m hm hown => if_neg fun hid => hteam m hm hid (beq_iff_eq.1 hown)

theorem holdings_conclude (h : s.Sound) {d : Draft} (hd : s.draft? d.module = some d)
    (now : Instant) (hteam : d.team ≠ team)
    (hmodule : ∀ m ∈ s.modules, m.id = d.module → m.team ≠ team) :
    (s.conclude d now).holdings team = s.holdings team :=
  ((h.publish d.module d.document).holdings_endDraft hd .finished now hteam).trans
    (holdings_publish d.document hmodule)

theorem holdings_begun (h : s.Sound) {m : Module} {p : Process} {v : Version} {d : Draft}
    (hp : s.process? p.id = some p) (hsame : p.team = m.team) (hv : s.latest? p.id = some v)
    (hd : d.team = m.team) (doc : Document) (now : Instant) (hteam : m.team ≠ team) :
    Store.holdings { s with
      documents := s.documents ++ [doc]
      drafts := s.drafts ++ [d]
      runs := s.runs ++ [⟨nextId (s.runs.map Run.id), m.id, v.id, .active, now, none⟩] } team =
      s.holdings team := by
  obtain ⟨hv, hprocess⟩ := mem_of_latest? hv
  have hforeign : s.ownsVersion team v.id = false := by
    refine h.ownsVersion_eq_false hv ?_
    rw [hprocess]
    exact h.ownsProcess_eq_false (h.process?_eq_some_iff.1 hp).1 (hsame ▸ hteam)
  have hdraft : (d.team == team) = false := beq_eq_false_iff_ne.2 (hd ▸ hteam)
  unfold Store.holdings
  dsimp only
  congr 1
  · exact filter_concat_of_not hdraft
  · exact filter_concat_of_not hforeign

end Store.Sound

namespace Drafting.Operation

/-- The team for which an operation on drafts is done: a draft is begun for the team of its module,
and stays with it. -/
def team? (s : Store) : Operation → Option Int
  | begin module _ _ => (s.module? module).map Module.team
  | op => (s.draft? op.module).map Draft.team

theorem team?_of_goesOn {op : Operation}
    (h : ∀ module process placements, op ≠ .begin module process placements) :
    op.team? s = (s.draft? op.module).map Draft.team := by
  cases op with
  | begin module process placements => exact absurd rfl (h module process placements)
  | _ => rfl

/-- An operation on drafts changes what is stored for the team for which it is done, and at most the
module of another team when it advances the draft of that module. -/
theorem holdings_perform (h : s.Sound) (c : Conditions) (op : Operation)
    (hteam : op.team? s ≠ some team)
    (hmodule : ∀ module user slot target, op = .advance module user slot target →
      ∀ m ∈ s.modules, m.id = module → m.team ≠ team) :
    (op.perform c s).store.holdings team = s.holdings team := by
  obtain ⟨u, heffect, hu⟩ := exists_effect c s op
  rw [hu.holdings]
  cases heffect with
  | kept => rfl
  | @begun m p v d asked module process same _ latest draft =>
      obtain ⟨placements, rfl⟩ := asked
      have hd : d.team = m.team := by
        rw [draft]
        rfl
      refine h.holdings_begun process same latest hd _ _ fun hm => hteam ?_
      rw [← hm]
      exact congrArg (Option.map Module.team) module
  | @changed d d' about found draft goesOn =>
      refine h.holdings_putDraft found (by rw [draft]) (by rw [draft]) fun hd => hteam ?_
      rw [team?_of_goesOn goesOn, about, found, ← hd]
      rfl
  | @concluded d user slot target asked found =>
      refine h.holdings_conclude found _ (fun hd => hteam ?_) (hmodule _ _ _ _ asked)
      rw [asked, ← hd]
      exact congrArg (Option.map Draft.team) found
  | @cancelled d asked found =>
      subst asked
      refine h.holdings_endDraft found _ _ fun hd => hteam ?_
      rw [← hd]
      exact congrArg (Option.map Draft.team) found

end Drafting.Operation

end Editorial
