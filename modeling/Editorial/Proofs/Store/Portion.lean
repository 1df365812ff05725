import Editorial.Draft.Lifecycle
import Editorial.Proofs.Event.Delivery

/-!
# The rows of one module

An operation on a draft changes rows of its module and no others. A `Store.Edit` says what becomes
of them: each row is changed or left out, and keeps its module. Edits of different modules do not
matter to each other: what one of them leaves of the rows of the other module is all of them
(`Store.Edit.resembles`), and in whatever order they are made, the tables are the same
(`Store.Edit.apply_comm`). `Store.Resembles` says that two stores have everything in common that
operations on a module look at.
-/

namespace Editorial

/-! ### Rows with a key -/

section Rows

variable {α β : Type} {key : α → β} [DecidableEq β]

/-- The rows of a table, those with the given key changed or left out. -/
def editRows (key : α → β) (k : β) (f : α → Option α) (rows : List α) : List α :=
  rows.filterMap fun a => if key a = k then f a else some a

theorem editRows_some (k : β) (rows : List α) : editRows key k some rows = rows := by
  unfold editRows
  simp

/-- No row is left out. -/
theorem map_eq_editRows (key : α → β) (k : β) (f : α → α) (rows : List α) :
    rows.map (fun a => if key a = k then f a else a) =
      editRows key k (fun a => some (f a)) rows := by
  unfold editRows
  rw [← List.filterMap_eq_map]
  refine List.filterMap_congr fun a _ => ?_
  by_cases ha : key a = k <;> simp [ha]

/-- A change of rows that keeps their key. -/
def KeepsKey (key : α → β) (k : β) (f : α → Option α) : Prop :=
  ∀ a b, key a = k → f a = some b → key b = k

theorem editRows_comm {k₁ k₂ : β} {f₁ f₂ : α → Option α} (hne : k₁ ≠ k₂)
    (h₁ : KeepsKey key k₁ f₁) (h₂ : KeepsKey key k₂ f₂) (rows : List α) :
    editRows key k₁ f₁ (editRows key k₂ f₂ rows) =
      editRows key k₂ f₂ (editRows key k₁ f₁ rows) := by
  unfold editRows
  rw [List.filterMap_filterMap, List.filterMap_filterMap]
  refine List.filterMap_congr fun a _ => ?_
  by_cases ha₁ : key a = k₁
  · have ha₂ : key a ≠ k₂ := fun h => hne (ha₁.symm.trans h)
    rw [if_pos ha₁, if_neg ha₂, Option.bind_some, if_pos ha₁]
    cases hb : f₁ a with
    | none => rfl
    | some b =>
        have hb₂ : key b ≠ k₂ := fun h => hne ((h₁ a b ha₁ hb).symm.trans h)
        rw [Option.bind_some, if_neg hb₂]
  · rw [if_neg ha₁, Option.bind_some]
    by_cases ha₂ : key a = k₂
    · rw [if_pos ha₂]
      cases hb : f₂ a with
      | none => rfl
      | some b =>
          have hb₁ : key b ≠ k₁ := fun h => hne (h.symm.trans (h₂ a b ha₂ hb))
          rw [Option.bind_some, if_neg hb₁]
    · rw [if_neg ha₂, Option.bind_some, if_neg ha₁]

/-- What is selected among the rows with another key is as before. -/
theorem filter_editRows_of_ne {k : β} {f : α → Option α} (hf : KeepsKey key k f) {p : α → Bool}
    (hp : ∀ a, key a = k → p a = false) (rows : List α) :
    (editRows key k f rows).filter p = rows.filter p := by
  unfold editRows
  rw [List.filter_filterMap, ← List.filterMap_eq_filter]
  refine List.filterMap_congr fun a _ => ?_
  by_cases ha : key a = k
  · rw [if_pos ha]
    cases hb : f a with
    | none => simp [Option.guard, hp a ha]
    | some b => simp [Option.guard, hp a ha, hp b (hf a b ha hb)]
  · rw [if_neg ha]
    rfl

theorem find?_editRows_of_ne {k : β} {f : α → Option α} (hf : KeepsKey key k f) {p : α → Bool}
    (hp : ∀ a, key a = k → p a = false) (rows : List α) :
    (editRows key k f rows).find? p = rows.find? p := by
  rw [← List.head?_filter, ← List.head?_filter, filter_editRows_of_ne hf hp]

end Rows

/-! ### Edits -/

namespace Store

/-- What becomes of the draft, the runs and the row of a module. -/
structure Edit (module : String) where
  draft : Draft → Option Draft
  run : Run → Option Run
  row : Module → Option Module
  draft_module : KeepsKey Draft.module module draft
  run_module : KeepsKey Run.module module run
  row_id : KeepsKey Module.id module row

namespace Edit

variable {module other : String}

/-- The store with the rows of a module edited. -/
def apply (e : Edit module) (s : Store) : Store :=
  { s with
    drafts := editRows Draft.module module e.draft s.drafts
    runs := editRows Run.module module e.run s.runs
    modules := editRows Module.id module e.row s.modules }

/-- Everything stays as it is. -/
def keep (module : String) : Edit module where
  draft := some
  run := some
  row := some
  draft_module := fun _ _ hd h => Option.some.inj h ▸ hd
  run_module := fun _ _ hr h => Option.some.inj h ▸ hr
  row_id := fun _ _ hm h => Option.some.inj h ▸ hm

/-- A draft takes the place of the draft of its module. -/
def put (d : Draft) : Edit d.module :=
  { keep d.module with
    draft := fun _ => some d
    draft_module := fun _ _ _ h => Option.some.inj h ▸ rfl }

/-- A run that is closed if it has the given id. -/
def closed (run : Option Int) (outcome : RunOutcome) (now : Instant) (r : Run) : Run :=
  if run = some r.id then { r with outcome, ended := some now } else r

theorem module_closed (run : Option Int) (outcome : RunOutcome) (now : Instant) (r : Run) :
    (closed run outcome now r).module = r.module := by
  unfold closed
  split <;> rfl

/-- The draft is gone and a run closed. -/
def discard (module : String) (run : Option Int) (outcome : RunOutcome) (now : Instant) :
    Edit module :=
  { keep module with
    draft := fun _ => none
    run := fun r => some (closed run outcome now r)
    draft_module := fun _ _ _ h => nomatch h
    run_module := fun r _ hr h => by rw [← Option.some.inj h, module_closed, hr] }

/-- The draft is gone, a run finished, and the module has another document. -/
def conclude (module : String) (document : Int) (run : Option Int) (now : Instant) : Edit module :=
  { discard module run .finished now with
    row := fun m => some { m with document }
    row_id := fun _ _ hm h => Option.some.inj h ▸ hm }

/-! ### Edits of different modules -/

theorem apply_comm (h : module ≠ other) (e : Edit module) (e' : Edit other) (s : Store) :
    e.apply (e'.apply s) = e'.apply (e.apply s) := by
  unfold apply
  dsimp only
  rw [editRows_comm h e.draft_module e'.draft_module, editRows_comm h e.run_module e'.run_module,
    editRows_comm h e.row_id e'.row_id]

end Edit

/-- A store has everything in common with another one that operations on a module look at. -/
structure Resembles (t s : Store) (module : String) : Prop where
  versions : t.versions = s.versions
  members : t.members = s.members
  draft : t.draft? module = s.draft? module
  run : t.openRun? module = s.openRun? module
  row : t.module? module = s.module? module
  run_ids : (t.runs.map Run.id).Nodup

theorem Resembles.refl {s : Store} (h : (s.runs.map Run.id).Nodup) (module : String) :
    s.Resembles s module := ⟨rfl, rfl, rfl, rfl, rfl, h⟩

theorem Edit.resembles {module other : String} (hne : other ≠ module) (e : Edit module) {s : Store}
    {now : Instant} {news : List News}
    (h : (((e.apply s).tell now news).runs.map Run.id).Nodup) :
    ((e.apply s).tell now news).Resembles s other where
  versions := rfl
  members := rfl
  draft := find?_editRows_of_ne e.draft_module (fun d hd => by simp [hd, hne.symm]) s.drafts
  run := congrArg (Ordered.least? _) <|
    filter_editRows_of_ne e.run_module (fun r hr => by simp [hr, hne.symm]) s.runs
  row := find?_editRows_of_ne e.row_id (fun m hm => by simp [hm, hne.symm]) s.modules
  run_ids := h

/-! ### What operations write -/

section Writes

variable {s t : Store}

theorem apply_keep (module : String) (t : Store) : (Edit.keep module).apply t = t := by
  unfold Edit.apply Edit.keep
  simp only [editRows_some]

theorem putDraft_eq_apply (t : Store) (d : Draft) : t.putDraft d = (Edit.put d).apply t := by
  unfold putDraft Edit.apply Edit.put Edit.keep
  simp only [editRows_some, map_eq_editRows Draft.module d.module fun _ => d]

theorem closeOpenRun_eq (ht : (t.runs.map Run.id).Nodup) (module : String) (outcome : RunOutcome)
    (now : Instant) :
    t.closeOpenRun module outcome now = { t with
      runs := editRows Run.module module
        (fun r => some (Edit.closed ((t.openRun? module).map Run.id) outcome now r)) t.runs } := by
  unfold closeOpenRun
  rw [← map_eq_editRows]
  cases hopen : t.openRun? module with
  | none => simp [Edit.closed]
  | some r =>
      have hr : r ∈ t.runs ∧ r.module = module := by
        have hmem := List.mem_filter.1 (Ordered.least?_mem hopen)
        exact ⟨hmem.1, by simpa using (Bool.and_eq_true_iff.1 hmem.2).1⟩
      unfold closeRun
      dsimp only [Option.map_some]
      congr 1
      refine List.map_congr_left fun e he => ?_
      unfold Edit.closed
      by_cases hid : e.id = r.id
      · have hsame : e = r := List.inj_on_of_nodup_map ht he hr.1 hid
        rw [if_pos hid, hsame, if_pos hr.2, if_pos rfl]
      · have hother : some r.id ≠ some e.id := fun h => hid (Option.some.inj h).symm
        rw [if_neg hid, if_neg hother, ite_self]

theorem removeDraft_eq (t : Store) (module : String) :
    t.removeDraft module =
      { t with drafts := editRows Draft.module module (fun _ => none) t.drafts } := by
  unfold removeDraft editRows
  congr 1
  rw [← List.filterMap_eq_filter]
  refine List.filterMap_congr fun d _ => ?_
  by_cases hd : d.module = module <;> simp [Option.guard, hd]

theorem discard_eq_apply {module : String} (h : t.Resembles s module) (outcome : RunOutcome)
    (now : Instant) :
    (t.closeOpenRun module outcome now).removeDraft module =
      (Edit.discard module ((s.openRun? module).map Run.id) outcome now).apply t := by
  rw [closeOpenRun_eq h.run_ids, removeDraft_eq, h.run]
  unfold Edit.apply Edit.discard Edit.keep
  simp only [editRows_some]

theorem conclude_eq_apply {d : Draft} (h : t.Resembles s d.module) (now : Instant) :
    t.conclude d now =
      (Edit.conclude d.module d.document ((s.openRun? d.module).map Run.id) now).apply t := by
  unfold conclude
  rw [closeOpenRun_eq (t := t.publish d.module d.document) h.run_ids, removeDraft_eq]
  have hopen : (t.publish d.module d.document).openRun? d.module = s.openRun? d.module := h.run
  rw [hopen]
  unfold publish Edit.apply Edit.conclude Edit.discard Edit.keep
  simp only [map_eq_editRows Module.id d.module fun m => { m with document := d.document }]

end Writes

end Store

end Editorial
