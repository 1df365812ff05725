import Editorial.Proofs.Draft.Records

/-!
# The history of runs

What the records of runs say about a module, and how they agree with what operations have answered.
From what a turn does to the records follows what it adds to each count, and by one induction what a
whole run adds (`Store.Sound.tally`). A module has one active run while it has a draft and none
otherwise, closed runs stay as they are, and the counts agree with the answers (`run_history`),
except that a draft may have been begun although its beginning is reported as failed
(`run_without_answer`).
-/

namespace Editorial

/-! ### Counting -/

namespace Store

/-- The number of runs of a module. -/
def runCount (s : Store) (module : String) : Nat :=
  s.runs.countP fun r => r.module == module

/-- The number of runs of a module with an outcome. -/
def outcomeCount (s : Store) (module : String) (outcome : RunOutcome) : Nat :=
  s.runs.countP fun r => r.module == module && r.outcome == outcome

/-- The active runs of a module. -/
def activeRuns (s : Store) (module : String) : List Run :=
  s.runs.filter fun r => r.module == module && r.outcome == .active

/-- The number of turns that pass a test, each with the store that it finds. -/
def tally (test : Store → Turn → Bool) : Store → List Turn → Nat
  | _, [] => 0
  | s, t :: turns => (test s t).toNat + tally test (s.after t) turns

end Store

/-! ### What follows for one turn -/

namespace Turn

variable {s : Store} {t : Turn}

theorem opensDraft_eq_false {module : String}
    (h : ((s.after t).draft? module).isSome = true → (s.draft? module).isSome = true) :
    t.opensDraft module s = false := by
  unfold opensDraft
  cases hd : s.draft? module with
  | some d => rfl
  | none =>
      cases hafter : ((s.after t).draft? module).isSome with
      | false => rfl
      | true => cases (congrArg Option.isSome hd).symm.trans (h hafter)

namespace Records

/-- A module has one run more when it gets a draft. -/
theorem runCount (h : t.Records s) (module : String) :
    (s.after t).runCount module = s.runCount module + (t.opensDraft module s).toNat := by
  unfold Store.runCount
  cases h with
  | nothing runs drafts =>
      rw [opensDraft_eq_false (by rw [drafts]; exact id), runs]
      rfl
  | opened r active runs idle drafts =>
      have hopens : t.opensDraft module s = (r.module == module) := by
        unfold opensDraft
        rw [drafts]
        by_cases hm : r.module = module
        · subst hm
          simp [idle]
        · rw [beq_eq_false_iff_ne.2 hm, beq_eq_false_iff_ne.2 (Ne.symm hm), Bool.or_false]
          cases s.draft? module <;> rfl
      rw [hopens, runs, List.countP_append, List.countP_singleton]
      cases r.module == module <;> rfl
  | closed outcome active found runs drafts =>
      have hopens : t.opensDraft module s = false :=
        opensDraft_eq_false (by rw [drafts]; exact fun hboth => (Bool.and_eq_true_iff.1 hboth).1)
      rw [hopens, found, runs, List.countP_append, List.countP_append, List.countP_cons,
        List.countP_cons]
      rfl

/-- A module has one run more with an outcome when the answer of a turn says so. -/
theorem outcomeCount (h : t.Records s) (module : String) {outcome : RunOutcome}
    (houtcome : outcome ≠ .active) :
    (s.after t).outcomeCount module outcome =
      s.outcomeCount module outcome + (t.answersEnded outcome module s).toNat := by
  have hactive {r : Run} (hr : r.outcome = .active) :
      (r.module == module && r.outcome == outcome) = false := by
    rw [hr, beq_eq_false_iff_ne.2 houtcome.symm, Bool.and_false]
  unfold Store.outcomeCount
  cases h with
  | nothing runs _ _ ended =>
      rw [ended, runs]
      rfl
  | opened r active runs _ _ _ _ _ ended =>
      rw [ended, runs, List.countP_append, List.countP_singleton, hactive active]
      rfl
  | @closed closing r before behind now active found runs _ _ ended =>
      have hclosed : (closing == outcome) = (outcome == closing) := BEq.comm
      rw [ended, found, runs, List.countP_append, List.countP_append, List.countP_cons,
        List.countP_cons, hactive active]
      simp only [hclosed]
      cases r.module == module && outcome == closing <;> simp
      omega

/-- A draft whose beginning is answered has been begun. -/
theorem opensDraft_of_begun (h : t.Records s) {module : String}
    (hbegun : t.answersBegun module s = true) : t.opensDraft module s = true := by
  cases h with
  | nothing _ _ begun => cases (begun module).symm.trans hbegun
  | opened r _ _ idle drafts _ begun =>
      obtain rfl := begun module hbegun
      unfold opensDraft
      rw [idle, drafts]
      simp
  | closed _ _ _ _ _ begun => cases (begun module).symm.trans hbegun

/-- Where the event sink takes who has come into a slot, beginning a draft is answered. -/
theorem begun_of_opensDraft (h : t.Records s) {module : String}
    (hrefuses : t.conditions.refuses (.text EventKind.slotFilled.text) = false)
    (hopens : t.opensDraft module s = true) : t.answersBegun module s = true := by
  cases h with
  | nothing _ drafts => cases (opensDraft_eq_false (by rw [drafts]; exact id)).symm.trans hopens
  | opened r _ _ _ drafts _ _ answered =>
      have hmodule : module = r.module := by
        unfold opensDraft at hopens
        rw [drafts] at hopens
        cases hd : s.draft? module with
        | some d => simp [hd] at hopens
        | none => simpa [hd] using hopens
      rw [hmodule]
      exact answered hrefuses
  | closed _ _ _ _ drafts =>
      have hkept : t.opensDraft module s = false :=
        opensDraft_eq_false (by rw [drafts]; exact fun hboth => (Bool.and_eq_true_iff.1 hboth).1)
      cases hkept.symm.trans hopens

/-- A closed run stays as it is. -/
theorem mem_runs (h : t.Records s) {r : Run} (hr : r ∈ s.runs) (hclosed : r.outcome ≠ .active) :
    r ∈ (s.after t).runs := by
  cases h with
  | nothing runs => rwa [runs]
  | opened _ _ runs =>
      rw [runs]
      exact List.mem_append_left _ hr
  | closed _ active found runs =>
      rw [found, List.mem_append, List.mem_cons] at hr
      rw [runs, List.mem_append, List.mem_cons]
      rcases hr with hr | rfl | hr
      · exact Or.inl hr
      · exact absurd active hclosed
      · exact Or.inr (Or.inr hr)

end Records

end Turn

/-! ### Whole runs -/

namespace Store.Sound

variable {s : Store}

/-- A number that every turn which passes a test makes one greater counts these turns. -/
theorem tally (h : s.Sound) (number : Store → Nat) (test : Store → Turn → Bool)
    (hstep : ∀ u t, u.Sound → number (u.after t) = number u + (test u t).toNat)
    (turns : List Turn) : number (s.afterAll turns) = number s + Store.tally test s turns := by
  induction turns generalizing s with
  | nil => rfl
  | cons t turns ih =>
      calc number ((s.after t).afterAll turns)
          = number (s.after t) + Store.tally test (s.after t) turns := ih (h.after t)
        _ = number s + (test s t).toNat + Store.tally test (s.after t) turns := by rw [hstep s t h]
        _ = number s + Store.tally test s (t :: turns) := Nat.add_assoc _ _ _

/-- Closed runs stay as they are, whatever is done. -/
theorem run?_afterAll (h : s.Sound) {r : Run} (hr : r ∈ s.runs) (hclosed : r.outcome ≠ .active)
    (turns : List Turn) : (s.afterAll turns).run? r.id = some r := by
  suffices hmem : r ∈ (s.afterAll turns).runs from
    (find?_key_iff Run.id (h.afterAll turns).run_ids).2 ⟨hmem, rfl⟩
  induction turns generalizing s with
  | nil => exact hr
  | cons t turns ih => exact ih (h.after t) ((Turn.records h t).mem_runs hr hclosed)

theorem activeRuns_of_none (h : s.Sound) {module : String} (hnone : s.draft? module = none) :
    s.activeRuns module = [] := by
  refine List.filter_eq_nil_iff.2 fun r hr hactive => ?_
  simp only [Bool.and_eq_true, beq_iff_eq] at hactive
  have hdraft := h.run_draft r hr hactive.2
  rw [hactive.1] at hdraft
  exact (find?_key_eq_none_iff Draft.module).1 hnone hdraft

theorem activeRuns_of_draft (h : s.Sound) {d : Draft} (hd : d ∈ s.drafts) :
    ∃ r, s.activeRuns d.module = [r] ∧ r.version = d.version := by
  obtain ⟨r, hr, hmodule, hversion, hactive⟩ := h.running d hd
  refine ⟨r, ?_, hversion⟩
  have hnodup : (s.activeRuns d.module).Nodup := (List.Nodup.of_map Run.id h.run_ids).filter _
  refine List.perm_singleton.1 ((List.perm_ext_iff_of_nodup hnodup (List.nodup_singleton r)).2 ?_)
  intro e
  unfold activeRuns
  rw [List.mem_filter, List.mem_singleton, Bool.and_eq_true, beq_iff_eq, beq_iff_eq]
  constructor
  · rintro ⟨he, hm, ha⟩
    exact h.one_run e he r hr ha hactive (hm.trans hmodule.symm)
  · rintro rfl
    exact ⟨hr, hmodule, hactive⟩

end Store.Sound

/-- Tests that agree on every turn of a run count the same. -/
theorem Store.tally_congr {test test' : Store → Turn → Bool} {s : Store} (h : s.Sound)
    {turns : List Turn} (heq : ∀ u, u.Sound → ∀ t ∈ turns, test u t = test' u t) :
    tally test s turns = tally test' s turns := by
  induction turns generalizing s with
  | nil => rfl
  | cons t turns ih =>
      have hrest := ih (h.after t) fun u hu t' ht' => heq u hu t' (List.mem_cons_of_mem _ ht')
      rw [tally, tally, heq s h t List.mem_cons_self, hrest]

theorem Store.tally_mono {test test' : Store → Turn → Bool} {s : Store} (h : s.Sound)
    (himp : ∀ u t, u.Sound → test u t = true → test' u t = true) (turns : List Turn) :
    tally test s turns ≤ tally test' s turns := by
  induction turns generalizing s with
  | nil => exact Nat.le_refl _
  | cons t turns ih =>
      have hone : (test s t).toNat ≤ (test' s t).toNat := by
        cases htest : test s t with
        | false => exact Nat.zero_le _
        | true => exact Nat.le_of_eq (congrArg Bool.toNat (himp s t h htest)).symm
      exact Nat.add_le_add hone (ih (h.after t))

/-- Along every run, a module has one active run of the version of its draft while it has a draft,
and none otherwise; a closed run stays as it is; and the module has as many runs as drafts have been
begun, with each outcome as many as the answers say. The answers tell of no other beginnings, and of
all of them where the event sink takes who has come into a slot. -/
theorem run_history (turns : List Turn) (module : String) :
    let s := Store.empty.afterAll turns
    (s.draft? module = none → s.activeRuns module = []) ∧
    (∀ d, s.draft? module = some d → ∃ r, s.activeRuns module = [r] ∧ r.version = d.version) ∧
    (∀ r ∈ s.runs, r.outcome ≠ .active → ∀ later, (s.afterAll later).run? r.id = some r) ∧
    s.runCount module = Store.tally (Turn.opensDraft module) .empty turns ∧
    (∀ outcome, outcome ≠ .active → s.outcomeCount module outcome =
      Store.tally (Turn.answersEnded outcome module) .empty turns) ∧
    Store.tally (Turn.answersBegun module) .empty turns ≤ s.runCount module ∧
    ((∀ t ∈ turns, t.conditions.refuses (.text EventKind.slotFilled.text) = false) →
      s.runCount module = Store.tally (Turn.answersBegun module) .empty turns) := by
  have hempty := Store.sound_empty
  have hs : (Store.empty.afterAll turns).Sound := hempty.afterAll turns
  have hruns := hempty.tally (fun u => u.runCount module) (Turn.opensDraft module)
    (fun u t hu => (Turn.records hu t).runCount module) turns
  have hrows : (Store.empty.afterAll turns).runCount module =
      Store.tally (Turn.opensDraft module) .empty turns := hruns.trans (Nat.zero_add _)
  refine ⟨hs.activeRuns_of_none, fun d hd => ?_, fun r hr hclosed => hs.run?_afterAll hr hclosed,
    hrows, fun outcome houtcome => ?_, ?_, fun hrefuses => ?_⟩
  · obtain ⟨hmem, rfl⟩ := hs.draft?_eq_some_iff.1 hd
    exact hs.activeRuns_of_draft hmem
  · have hended := hempty.tally (fun u => u.outcomeCount module outcome)
      (Turn.answersEnded outcome module)
      (fun u t hu => (Turn.records hu t).outcomeCount module houtcome) turns
    exact hended.trans (Nat.zero_add _)
  · rw [hrows]
    exact Store.tally_mono hempty (fun u t hu => (Turn.records hu t).opensDraft_of_begun) turns
  · rw [hrows]
    refine Store.tally_congr hempty fun u hu t ht => Bool.eq_iff_iff.2 ⟨?_, ?_⟩
    · exact (Turn.records hu t).begun_of_opensDraft (hrefuses t ht)
    · exact (Turn.records hu t).opensDraft_of_begun

/-- Where an author whom the database cannot hold is replaced at once and the event sink refuses to
tell who comes into a slot, the review is begun and recorded, but its beginning fails. -/
theorem run_without_answer :
    let begun : Turn :=
      ⟨{ Review.conditions with refuses := fun kind => EventKind.ofJson? kind == some .slotFilled },
        .draft (.begin "m" 1 [⟨.text "01", .int storableLimit⟩, ⟨.text "1", .int 4⟩])⟩
    let turns := Review.turns.take 3 ++ [begun]
    (Store.empty.afterAll turns).runCount "m" = 1 ∧
      Store.tally (Turn.answersBegun "m") .empty turns = 0 := by
  decide +kernel

end Editorial
