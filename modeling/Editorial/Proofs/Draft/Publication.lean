import Editorial.Proofs.Draft.Effect
import Editorial.Proofs.Draft.Records
import Editorial.Proofs.Event.Refinement

/-!
# What becomes of published documents

Concluding a draft overwrites the current document of its module, whatever it is. Nothing is lost
by that: as long as modules are not edited from outside, a draft works on a copy of what is current
(`Store.UpToDate`), since only the end of the draft itself makes another document current
(`Turn.module?_of_not_concludes`). A module keeps its row through the life of a draft, however long,
and a draft that is cancelled leaves it as it was found at the beginning (`no_lost_update`).
-/

namespace Editorial

/-! ### Along a run -/

/-- Every turn of a run, with the store that it finds, is of some kind. -/
def Store.Along (p : Store → Turn → Prop) : Store → List Turn → Prop
  | _, [] => True
  | s, t :: turns => p s t ∧ Along p (s.after t) turns

theorem Store.along_append {p : Store → Turn → Prop} {s : Store} {before later : List Turn} :
    Along p s (before ++ later) ↔ Along p s before ∧ Along p (s.afterAll before) later := by
  induction before generalizing s with
  | nil => exact iff_of_eq (true_and _).symm
  | cons t before ih =>
      change p s t ∧ Along p (s.after t) (before ++ later) ↔ _
      rw [ih, ← and_assoc]
      rfl

namespace Turn

/-- From outside, modules are added but not changed. -/
def AddsModules (s : Store) (t : Turn) : Prop :=
  ∀ m, t.action = .direct (.setModule m) → s.module? m.id = none

/-- A turn advances the draft of a module, and its answer is that the process has ended. -/
def Concludes (module : String) (s : Store) (t : Turn) : Prop :=
  ∃ user slot target, t.action = .draft (.advance module user slot target) ∧
    (Drafting.advance t.conditions s module user slot target).result = .ok .finished

/-- A turn cancels the draft of a module with success. -/
def Cancels (module : String) (s : Store) (t : Turn) : Prop :=
  t.action = .draft (.cancel module) ∧ (Drafting.cancel t.conditions s module).result = .ok ()

end Turn

/-! ### Modules -/

section Modules

variable {s u : Store}

namespace Store

theorem module?_eq_of_modules (h : u.modules = s.modules) (module : String) :
    u.module? module = s.module? module := by
  unfold module?
  rw [h]

theorem module?_publish_other {module other : String} (h : other ≠ module) (document : Int) :
    (s.publish module document).module? other = s.module? other := by
  unfold publish module?
  dsimp only
  induction s.modules with
  | nil => rfl
  | cons m rest ih =>
      by_cases hm : m.id = module
      · have hne : (m.id == other) = false := beq_eq_false_iff_ne.2 fun e => h (e.symm.trans hm)
        rw [List.map_cons, if_pos hm, List.find?_cons_of_neg (by simp [hne]),
          List.find?_cons_of_neg (by simp [hne]), ih]
      · rw [List.map_cons, if_neg hm]
        by_cases hother : m.id = other
        · rw [List.find?_cons_of_pos (by simpa using hother),
            List.find?_cons_of_pos (by simpa using hother)]
        · rw [List.find?_cons_of_neg (by simpa using hother),
            List.find?_cons_of_neg (by simpa using hother), ih]

theorem module?_putModule_new {m : Module} (hnew : s.module? m.id = none) {module : String}
    {found : Module} (h : s.module? module = some found) :
    (s.putModule m).module? module = some found := by
  unfold putModule
  rw [hnew, Option.isSome_none, if_neg Bool.false_ne_true]
  unfold module? at h ⊢
  rw [List.find?_append, h]
  rfl

/-- The end of a draft makes its document the current one of its module, and of no other. -/
theorem module?_conclude (s : Store) (d : Draft) (now : Instant) (module : String) :
    (s.conclude d now).module? module =
      if module = d.module then
        (s.module? module).map fun m => { m with document := d.document }
      else s.module? module := by
  have hmodules : (s.conclude d now).modules = (s.publish d.module d.document).modules := by
    obtain ⟨runs, hruns⟩ := (s.publish d.module d.document).exists_runs_closeOpenRun d.module
      .finished now
    unfold conclude
    rw [hruns]
    rfl
  rw [module?_eq_of_modules hmodules]
  split
  · rename_i h
    rw [h]
    exact s.module?_publish d.module d.document
  · rename_i h
    exact module?_publish_other h d.document

end Store

/-- An operation on drafts leaves the modules as they are unless it concludes one. -/
theorem Drafting.Operation.Effect.modules {c : Conditions} {op : Drafting.Operation}
    (h : op.Effect c s u) :
    u.modules = s.modules ∨ ∃ (d : Draft) (user slot target : Int),
      op = .advance d.module user slot target ∧ s.draft? d.module = some d ∧
        (Drafting.advance c s d.module user slot target).result = .ok .finished ∧
        u = s.conclude d c.now := by
  cases h with
  | kept => exact Or.inl rfl
  | begun => exact Or.inl rfl
  | changed => exact Or.inl rfl
  | @concluded d user slot target asked found answer =>
      exact Or.inr ⟨d, user, slot, target, asked, found, answer, rfl⟩
  | @cancelled d _ _ _ =>
      obtain ⟨runs, hruns⟩ := s.exists_runs_closeOpenRun d.module .cancelled c.now
      left
      rw [hruns]
      rfl

/-- What comes from outside leaves the modules as they are unless it sets one. -/
theorem Directory.Operation.modules_perform (c : Conditions) (s : Store)
    (op : Directory.Operation) :
    (op.perform c s).store.modules = s.modules ∨
      ∃ m, op = .setModule m ∧ (op.perform c s).store.modules = (s.putModule m).modules := by
  have hcomplete (work : Except Failure (Work Unit)) :
      (complete c s Failure.database work).store.modules = s.modules ∨
        ∃ w, work = .ok w ∧
          (complete c s Failure.database work).store.modules = w.store.modules := by
    rcases complete_cases c s Failure.database work with ⟨f, hf⟩ | ⟨w, hw, -, ho⟩
    · exact Or.inl (by rw [hf]; rfl)
    · obtain ⟨es, hes⟩ := w.extends_outcome c
      exact Or.inr ⟨w, hw, by rw [ho, hes]⟩
  cases op with
  | setModule m =>
      refine (hcomplete _).imp_right ?_
      rintro ⟨w, hw, hmodules⟩
      obtain rfl := pure_eq_ok_iff.1 hw
      exact ⟨m, rfl, hmodules⟩
  | setMember m =>
      refine Or.inl ((hcomplete _).elim id ?_)
      rintro ⟨w, hw, hmodules⟩
      simp only [bind_eq_ok_iff, pure_eq_ok_iff] at hw
      obtain ⟨⟨⟩, -, ⟨⟩, -, rfl⟩ := hw
      refine hmodules.trans ?_
      unfold Store.putMember
      split <;> rfl
  | removeMember team user =>
      refine Or.inl ((hcomplete _).elim id ?_)
      rintro ⟨w, hw, hmodules⟩
      dsimp only at hw
      simp only [bind_eq_ok_iff, pure_eq_ok_iff, guard_eq_ok_iff] at hw
      obtain ⟨⟨⟩, -, ⟨⟩, -, -, rfl⟩ := hw
      exact hmodules

/-- An advance whose answer is that the process has ended has concluded the draft. -/
theorem Drafting.store_advance_of_finished {c : Conditions} {module : String}
    {user slot target : Int}
    (h : (Drafting.advance c s module user slot target).result = .ok .finished) :
    ∃ d, s.draft? module = some d ∧
      (Drafting.advance c s module user slot target).store.Extends (s.conclude d c.now) := by
  rcases advance_cases c s module user slot target with ⟨f, hf⟩ |
    ⟨d, step, l, w, -, hd, -, -, -, -, -, hw, -, ho⟩
  · rw [hf] at h
    cases h
  · refine ⟨d, hd, ?_⟩
    rw [ho] at h ⊢
    by_cases hfinal : s.isFinalFor d l.target = true
    · rw [if_pos hfinal] at hw
      obtain ⟨-, -, rfl⟩ := finish_eq_ok_iff.1 hw
      exact Work.extends_outcome c _
    · rw [if_neg hfinal] at hw
      obtain ⟨change, filled, -, rfl⟩ := move_eq_ok_iff.1 hw
      cases h

namespace Turn

variable {t : Turn} {module : String} {m : Module}

/-- When the draft of a module is concluded, its document becomes the current one. -/
theorem module?_of_concludes (ht : t.Concludes module s) (hm : s.module? module = some m) :
    ∃ d, s.draft? module = some d ∧
      (s.after t).module? module = some { m with document := d.document } := by
  obtain ⟨c, action⟩ := t
  obtain ⟨user, slot, target, rfl, hfinished⟩ := ht
  obtain ⟨d, hd, es, hes⟩ := Drafting.store_advance_of_finished hfinished
  have hafter : s.after ⟨c, .draft (.advance module user slot target)⟩ = _ := hes
  refine ⟨d, hd, ?_⟩
  have hconclude := s.module?_conclude d c.now module
  rw [if_pos (Store.module_of_draft? hd).symm, hm] at hconclude
  rw [hafter]
  exact hconclude

/-- A draft that is concluded is gone. -/
theorem draft?_of_concludes (ht : t.Concludes module s) : (s.after t).draft? module = none := by
  obtain ⟨c, action⟩ := t
  obtain ⟨user, slot, target, rfl, hfinished⟩ := ht
  obtain ⟨d, hd, es, hes⟩ := Drafting.store_advance_of_finished hfinished
  have hafter : s.after ⟨c, .draft (.advance module user slot target)⟩ = _ := hes
  rw [hafter]
  refine (Store.draft?_removeDraft _ d.module module).trans ?_
  rw [if_pos (Store.module_of_draft? hd).symm]

/-- A turn leaves the rows of modules as they are, sets one, or concludes a draft. -/
theorem modules_after (t : Turn) (s : Store) :
    (s.after t).modules = s.modules ∨
      (∃ m, t.action = .direct (.setModule m) ∧ (s.after t).modules = (s.putModule m).modules) ∨
      ∃ d, t.Concludes d.module s ∧
        (s.after t).modules = (s.conclude d t.conditions.now).modules := by
  obtain ⟨c, action⟩ := t
  cases action with
  | define op =>
      obtain ⟨processes, versions, hafter⟩ := s.exists_after_define c op
      exact Or.inl (by rw [hafter])
  | direct op =>
      rcases op.modules_perform c s with hkept | ⟨m, rfl, hput⟩
      · exact Or.inl hkept
      · exact Or.inr (Or.inl ⟨m, rfl, hput⟩)
  | draft op =>
      obtain ⟨u, heffect, es, hafter⟩ := s.exists_after_draft c op
      rw [hafter]
      rcases heffect.modules with hkept | ⟨d, user, slot, target, rfl, -, hfinished, rfl⟩
      · exact Or.inl hkept
      · exact Or.inr (Or.inr ⟨d, ⟨user, slot, target, rfl, hfinished⟩, rfl⟩)

/-- The row of a module stays as it is when its draft is not concluded. -/
theorem module?_of_not_concludes (ht : t.AddsModules s) (hnot : ¬t.Concludes module s)
    (hm : s.module? module = some m) : (s.after t).module? module = some m := by
  rcases t.modules_after s with hkept | ⟨m', haction, hput⟩ | ⟨d, hconcludes, hended⟩
  · exact (Store.module?_eq_of_modules hkept module).trans hm
  · exact (Store.module?_eq_of_modules hput module).trans
      (Store.module?_putModule_new (ht m' haction) hm)
  · have hother : module ≠ d.module := by
      rintro rfl
      exact hnot hconcludes
    rw [Store.module?_eq_of_modules hended, Store.module?_conclude, if_neg hother, hm]

end Turn

end Modules

/-! ### Copies -/

namespace Store

variable {s u : Store}

/-- Every draft works on a copy of what is current. -/
structure UpToDate (s : Store) : Prop where
  document_ids : (s.documents.map Document.id).Nodup
  copies : ∀ d ∈ s.drafts, ∃ m doc, s.module? d.module = some m ∧ doc ∈ s.documents ∧
    doc.id = d.document ∧ doc.source = m.document

theorem upToDate_empty : Store.empty.UpToDate := ⟨List.nodup_nil, nofun⟩

theorem UpToDate.filter_eq (h : s.UpToDate) {d : Draft} (hd : d ∈ s.drafts) :
    ∃ m doc, s.module? d.module = some m ∧
      s.documents.filter (fun e => e.id == d.document) = [doc] ∧ doc.source = m.document := by
  obtain ⟨m, doc, hm, hdoc, hid, hsource⟩ := h.copies d hd
  refine ⟨m, doc, hm, ?_, hsource⟩
  rw [filter_key_eq_toList Document.id h.document_ids,
    (find?_key_iff Document.id h.document_ids).2 ⟨hdoc, hid⟩]
  rfl

/-- Only the tables matter that a draft is about. -/
theorem UpToDate.of_kept (h : s.UpToDate) (hdocuments : u.documents = s.documents)
    (hdrafts : ∀ d ∈ u.drafts, ∃ e ∈ s.drafts, e.module = d.module ∧ e.document = d.document)
    (hmodules : ∀ d ∈ u.drafts, ∀ m, s.module? d.module = some m → u.module? d.module = some m) :
    u.UpToDate where
  document_ids := by
    rw [hdocuments]
    exact h.document_ids
  copies d hd := by
    obtain ⟨e, he, hmodule, hdocument⟩ := hdrafts d hd
    obtain ⟨m, doc, hm, hdoc, hid, hsource⟩ := h.copies e he
    rw [hmodule] at hm
    exact ⟨m, doc, hmodules d hd m hm, by rwa [hdocuments], hid.trans hdocument, hsource⟩

theorem UpToDate.effect (h : s.UpToDate) {c : Conditions} {op : Drafting.Operation}
    (heffect : op.Effect c s u) : u.UpToDate := by
  cases heffect with
  | kept => exact h
  | @begun m p v d _ module _ _ _ _ draft =>
      refine ⟨?_, forall_mem_concat (fun e he => ?_) ?_⟩
      · rw [List.map_append]
        exact nodup_append_nextId h.document_ids
      · obtain ⟨m', doc, hm, hdoc, hrest⟩ := h.copies e he
        exact ⟨m', doc, hm, List.mem_append_left _ hdoc, hrest⟩
      · refine ⟨m, ⟨nextId (s.documents.map Document.id), m.document, c.now⟩, ?_,
          List.mem_append_right _ (List.mem_singleton_self _), ?_, rfl⟩
        · rw [draft]
          exact module
        · rw [draft]
          rfl
  | @changed d d' _ found draft _ =>
      have hmodule : d'.module = d.module := by rw [draft]
      refine h.of_kept rfl (fun e he => ?_) fun _ _ _ hm => hm
      obtain ⟨e', he', rfl⟩ := List.mem_map.1 he
      split
      · exact ⟨d, List.mem_of_find?_eq_some found, hmodule.symm, by rw [draft]⟩
      · exact ⟨e', he', rfl, rfl⟩
  | @concluded d _ _ _ _ _ _ =>
      obtain ⟨runs, hruns⟩ := (s.publish d.module d.document).exists_runs_closeOpenRun d.module
        .finished c.now
      have hdrafts :
          (s.conclude d c.now).drafts = s.drafts.filter fun e => e.module != d.module := by
        unfold conclude
        rw [hruns]
        rfl
      refine h.of_kept (by unfold conclude; rw [hruns]; rfl) (fun e he => ?_) fun e he m hm => ?_
      · rw [hdrafts] at he
        exact ⟨e, (List.mem_filter.1 he).1, rfl, rfl⟩
      · rw [hdrafts, List.mem_filter, bne_iff_ne] at he
        rw [module?_conclude, if_neg he.2, hm]
  | @cancelled d _ _ _ =>
      obtain ⟨runs, hruns⟩ := s.exists_runs_closeOpenRun d.module .cancelled c.now
      rw [hruns]
      exact h.of_kept rfl (fun e he => ⟨e, (List.mem_filter.1 he).1, rfl, rfl⟩) fun _ _ _ hm => hm

theorem UpToDate.after (h : s.UpToDate) {t : Turn} (ht : t.AddsModules s) :
    (s.after t).UpToDate := by
  obtain ⟨c, action⟩ := t
  cases action with
  | define op =>
      obtain ⟨processes, versions, hafter⟩ := s.exists_after_define c op
      rw [hafter]
      exact { h with }
  | direct op =>
      obtain ⟨modules, members, hafter⟩ := s.exists_after_direct c op
      refine h.of_kept (by rw [hafter]) (fun d hd => ?_) fun d _ m hm => ?_
      · rw [hafter] at hd
        exact ⟨d, hd, rfl, rfl⟩
      · exact Turn.module?_of_not_concludes ht (fun ⟨_, _, _, haction, _⟩ => by cases haction) hm
  | draft op =>
      obtain ⟨u, heffect, es, hafter⟩ := s.exists_after_draft c op
      rw [hafter]
      exact { h.effect heffect with }

theorem UpToDate.afterAll (h : s.UpToDate) {turns : List Turn}
    (hturns : s.Along Turn.AddsModules turns) : (s.afterAll turns).UpToDate := by
  induction turns generalizing s with
  | nil => exact h
  | cons t turns ih => exact ih (h.after hturns.1) hturns.2

end Store

/-! ### The life of a draft -/

/-- A row of a module stays as long as its draft is not concluded. -/
theorem Store.module?_afterAll {s : Store} {turns : List Turn} {module : String} {m : Module}
    (hturns : s.Along Turn.AddsModules turns)
    (hnot : s.Along (fun u t => ¬t.Concludes module u) turns) (hm : s.module? module = some m) :
    (s.afterAll turns).module? module = some m := by
  induction turns generalizing s with
  | nil => exact hm
  | cons t turns ih =>
      exact ih hturns.2 hnot.2 (Turn.module?_of_not_concludes hturns.1 hnot.1 hm)

/-- A draft that there is has been begun. -/
theorem exists_begun_since {turns : List Turn} {module : String} {d : Draft}
    (hd : (Store.empty.afterAll turns).draft? module = some d) :
    ∃ before t after, Begun turns module before t after := by
  induction turns using List.reverseRecOn generalizing d with
  | nil => cases hd
  | append_singleton turns t ih =>
      have hs : (Store.empty.afterAll turns).Sound := Store.sound_empty.afterAll turns
      cases hformer : (Store.empty.afterAll turns).draft? module with
      | none =>
          have hsome : (((Store.empty.afterAll turns).after t).draft? module).isSome = true := by
            rw [← Store.afterAll_concat, hd]
            rfl
          refine ⟨turns, t, [], rfl, Turn.begins_of_isSome hs hformer hsome, hformer, ?_⟩
          intro later hlater
          rw [List.prefix_nil.1 hlater, hd]
          rfl
      | some e =>
          obtain ⟨before, t', after, hbegun⟩ := ih hformer
          exact ⟨before, t', after ++ [t], hbegun.concat hd⟩

/-- A draft is begun of a module that there is. -/
theorem Begun.exists_module {turns : List Turn} {module : String} {before after : List Turn}
    {b : Turn} (h : Begun turns module before b after) :
    ∃ m, (Store.empty.afterAll before).module? module = some m := by
  have hs : (Store.empty.afterAll (before ++ [b])).Sound := Store.sound_empty.afterAll _
  obtain ⟨d, hd⟩ := Option.isSome_iff_exists.1 (h.since [] List.nil_prefix)
  obtain ⟨hmem, hmodule⟩ := hs.draft?_eq_some_iff.1 hd
  obtain ⟨m, hm, hid⟩ := List.mem_map.1 (hs.draft_module d hmem)
  have hfound : ((Store.empty.afterAll (before ++ [b])).module? module).isSome = true :=
    List.find?_isSome.2 ⟨m, hm, by simpa using hid.trans hmodule⟩
  obtain ⟨process, placements, haction⟩ := h.begins
  obtain ⟨c, action⟩ := b
  obtain rfl : action = .draft (.begin module process placements) := haction
  obtain ⟨u, heffect, es, hafter⟩ :=
    (Store.empty.afterAll before).exists_after_draft c (.begin module process placements)
  have hkept : u.modules = (Store.empty.afterAll before).modules := by
    rcases heffect.modules with hkept | ⟨_, _, _, _, hop, -⟩
    · exact hkept
    · cases hop
  rw [Store.afterAll_concat, hafter] at hfound
  exact Option.isSome_iff_exists.1
    ((congrArg Option.isSome (Store.module?_eq_of_modules hkept module)).symm.trans hfound)

/-- A draft that is cancelled with success is there before. -/
theorem Turn.Cancels.exists_draft {s : Store} {t : Turn} {module : String}
    (h : t.Cancels module s) : ∃ d, s.draft? module = some d := by
  obtain ⟨-, hresult⟩ := h
  rcases Drafting.cancel_cases t.conditions s module with ⟨f, hf⟩ | ⟨d, _, -, hd, -⟩
  · rw [hf] at hresult
    cases hresult
  · exact ⟨d, hd⟩

/-- From the beginning of a draft to its cancellation, its module keeps its row. -/
theorem Begun.module?_eq {turns : List Turn} {module : String} {before after : List Turn}
    {b t : Turn} {m : Module} (h : Begun turns module before b after)
    (hadds : Store.empty.Along Turn.AddsModules (turns ++ [t]))
    (hcancels : t.Cancels module (Store.empty.afterAll turns))
    (hm : (Store.empty.afterAll before).module? module = some m) {part : List Turn}
    (hpart : part <+: b :: after ++ [t]) :
    (Store.empty.afterAll (before ++ part)).module? module = some m := by
  induction part using List.reverseRecOn with
  | nil => rwa [List.append_nil]
  | append_singleton part x ih =>
      have hformer := ih ((List.prefix_append part [x]).trans hpart)
      -- The turn finds a run that adds modules only.
      obtain ⟨rest, hrest⟩ := hpart
      have hsplit : turns ++ [t] = (before ++ part) ++ ([x] ++ rest) := by
        rw [h.run, List.append_assoc, ← hrest]
        simp only [List.append_assoc]
      rw [hsplit, Store.along_append] at hadds
      have hx : x.AddsModules (Store.empty.afterAll (before ++ part)) := hadds.2.1
      -- It is the cancellation, or it leaves the draft where it is.
      have hlives : ¬x.Concludes module (Store.empty.afterAll (before ++ part)) := by
        intro hconcludes
        rcases List.prefix_concat_iff.1 ⟨rest, hrest⟩ with hlast | hearlier
        · obtain ⟨-, hxt⟩ := List.append_inj' hlast rfl
          obtain ⟨_, _, _, haction, -⟩ := hconcludes
          rw [List.singleton_inj.1 hxt, hcancels.1] at haction
          cases haction
        · have hgone := Turn.draft?_of_concludes hconcludes
          rw [← Store.afterAll_concat, List.append_assoc] at hgone
          rcases List.prefix_cons_iff.1 hearlier with hnil | ⟨later, hlater, hprefix⟩
          · cases (List.append_eq_nil_iff.1 hnil).2
          · have hsome := h.since later hprefix
            rw [← hlater, hgone] at hsome
            cases hsome
      have hkept := Turn.module?_of_not_concludes hx hlives hformer
      rwa [← Store.afterAll_concat, List.append_assoc] at hkept

/-- As long as modules are not edited from outside, every draft works on a copy of the current
document of its module. Another document becomes current only when a draft is concluded, and it is
the document of the draft; so it stays the same in every sequence of turns none of which concludes
the draft of the module, in the life of every draft that ends with its cancellation, and in every
operation that fails or concerns process definitions. -/
theorem no_lost_update {turns : List Turn} (h : Store.empty.Along Turn.AddsModules turns) :
    let s := Store.empty.afterAll turns
    (∀ d ∈ s.drafts, ∃ m doc, s.module? d.module = some m ∧
      s.documents.filter (fun e => e.id == d.document) = [doc] ∧ doc.source = m.document) ∧
    (∀ t, t.AddsModules s → ∀ module m, s.module? module = some m →
      (t.Concludes module s → ∃ d, s.draft? module = some d ∧
        (s.after t).module? module = some { m with document := d.document }) ∧
      (¬t.Concludes module s → (s.after t).module? module = some m)) ∧
    (∀ later, s.Along Turn.AddsModules later → ∀ module m, s.module? module = some m →
      s.Along (fun u t => ¬t.Concludes module u) later →
        (s.afterAll later).module? module = some m) ∧
    (∀ module t, t.Cancels module s → ∃ before b after m, Begun turns module before b after ∧
      ∀ part, part <+: b :: after ++ [t] →
        (Store.empty.afterAll (before ++ part)).module? module = some m) ∧
    (∀ c (op : Drafting.Operation) f, (op.perform c s).result = .error f →
      (op.perform c s).store.modules = s.modules) ∧
    ∀ c (op : Definitions.Operation), (op.perform c s).store.modules = s.modules := by
  intro s
  have hs : s.Sound := Store.sound_empty.afterAll turns
  refine ⟨fun d hd => (Store.upToDate_empty.afterAll h).filter_eq hd, fun t ht module m hm =>
    ⟨fun hconcludes => Turn.module?_of_concludes hconcludes hm,
      fun hnot => Turn.module?_of_not_concludes ht hnot hm⟩,
    fun later hlater module m hm hnot => Store.module?_afterAll hlater hnot hm,
    fun module t hcancels => ?_, fun c op f hf => ?_, fun c op => ?_⟩
  · obtain ⟨d, hd⟩ := hcancels.exists_draft
    obtain ⟨before, b, after, hbegun⟩ := exists_begun_since hd
    obtain ⟨m, hm⟩ := hbegun.exists_module
    have ht : t.AddsModules s := fun m' hset => by cases hcancels.1.symm.trans hset
    have hadds : Store.empty.Along Turn.AddsModules (turns ++ [t]) :=
      Store.along_append.2 ⟨h, ht, trivial⟩
    exact ⟨before, b, after, m, hbegun, fun part hpart => hbegun.module?_eq hadds hcancels hm hpart⟩
  · obtain ⟨u, heffect, es, hes⟩ := op.exists_effect c s
    rw [hes]
    rcases heffect.modules with hkept | ⟨d, user, slot, target, rfl, -, hfinished, -⟩
    · exact hkept
    · cases hfinished.symm.trans hf
  · obtain ⟨processes, versions, hstore⟩ := op.onlyDefines c s
    rw [hstore]

/-- In the review, the draft works on a copy of the document of the module. -/
theorem copy_of_review :
    Store.empty.Along Turn.AddsModules Review.turns ∧
      ∃ m doc, Review.store.module? "m" = some m ∧
        Review.store.documents.filter (fun e => e.id == Review.begun.document) = [doc] ∧
        doc.source = m.document := by
  have hadds : Store.empty.Along Turn.AddsModules Review.turns := by
    refine ⟨fun m hm => ?_, nofun, nofun, nofun, trivial⟩
    cases hm
    rfl
  have hmem := List.mem_of_find?_eq_some Review.draft?_store
  exact ⟨hadds, (no_lost_update hadds).1 Review.begun hmem⟩

end Editorial
