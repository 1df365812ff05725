import Editorial.Proofs.Event.Narration

/-!
# What operations on drafts do to the tables

An operation on drafts leaves every table as it is, adds a draft with its document and its run, puts
a draft in place of itself with other seats or at another step, or ends a draft, by concluding or by
cancelling it (`Drafting.Operation.Effect`). Nothing else is done whatever happens
(`Drafting.Operation.exists_effect`), so that a table is looked at in five cases, not for each
operation.
-/

namespace Editorial

namespace Drafting.Operation

/-- What an operation on drafts does to the tables, events apart. -/
inductive Effect (c : Conditions) (s : Store) (op : Operation) : Store → Prop where
  | kept : Effect c s op s
  | begun {m : Module} {p : Process} {v : Version} {d : Draft}
      (asked : ∃ placements, op = .begin m.id p.id placements) (module : s.module? m.id = some m)
      (process : s.process? p.id = some p) (team : p.team = m.team) (idle : s.draft? m.id = none)
      (latest : s.latest? p.id = some v)
      (draft : d = { freshDraft c s m v with seats := d.seats }) :
      Effect c s op { s with
        documents := s.documents ++ [⟨nextId (s.documents.map Document.id), m.document, c.now⟩]
        drafts := s.drafts ++ [d]
        runs := s.runs ++ [⟨nextId (s.runs.map Run.id), m.id, v.id, .active, c.now, none⟩] }
  | changed {d d' : Draft} (about : op.module = d.module) (found : s.draft? d.module = some d)
      (draft : d' = { d with step := d'.step, seats := d'.seats })
      (goesOn : ∀ module process placements, op ≠ .begin module process placements) :
      Effect c s op (s.putDraft d')
  | concluded {d : Draft} {user slot target : Int} (asked : op = .advance d.module user slot target)
      (found : s.draft? d.module = some d)
      (answer : (Drafting.advance c s d.module user slot target).result = .ok .finished) :
      Effect c s op (s.conclude d c.now)
  | cancelled {d : Draft} (asked : op = .cancel d.module) (found : s.draft? d.module = some d)
      (answer : (Drafting.cancel c s d.module).result = .ok ()) :
      Effect c s op ((s.closeOpenRun d.module .cancelled c.now).removeDraft d.module)

section Cases

variable {c : Conditions} {s : Store} {op : Operation} {α : Type}

/-- An operation that fails has no effect, and one that is committed has the effect of its work. -/
theorem effect_of_cases {o : Outcome α} (hop : (op.perform c s).store = o.store)
    (h : (∃ f, o = .failed s f) ∨ ∃ w : Work α, op.Effect c s w.store ∧ o = w.outcome c) :
    ∃ u, op.Effect c s u ∧ (op.perform c s).store.Extends u := by
  rw [hop]
  rcases h with ⟨f, rfl⟩ | ⟨w, heffect, rfl⟩
  · exact ⟨s, .kept, .refl s⟩
  · exact ⟨w.store, heffect, w.extends_outcome c⟩

theorem effect_begin (c : Conditions) (s : Store) (module : String) (process : Int)
    (placements : List Placement) :
    ∃ u, (begin module process placements).Effect c s u ∧
      ((begin module process placements).perform c s).store.Extends u := by
  rcases begin_cases c s module process placements with ⟨f, hf⟩ |
    ⟨m, p, v, ordered, placed, change, filled, hm, -, hp, hteam, hidle, hv, -, -, -, hplaced,
      hfilled, -, ho⟩
  · exact ⟨s, .kept, by rw [perform, hf]; exact .refl s⟩
  · have hmid := Store.id_of_module? hm
    have hpid := Store.id_of_process? hp
    subst hmid hpid
    have hsame := ((Store.seats_placeAll hplaced).1.trans (Store.seats_autofill hfilled)).draft_eq
    refine ⟨_, .begun ⟨placements, rfl⟩ hm hp hteam hidle hv hsame, ?_⟩
    have hmodule : change.draft.module = m.id := by
      rw [hsame]
      rfl
    rw [perform, ho, store_lookingBack, ← freshStore_putDraft hidle hmodule]
    exact Work.extends_outcome c (change.work (freshStore c s m v) change.draft)

theorem effect_advance (c : Conditions) (s : Store) (module : String) (user slot target : Int) :
    ∃ u, (advance module user slot target).Effect c s u ∧
      ((advance module user slot target).perform c s).store.Extends u := by
  refine effect_of_cases rfl ((advance_cases c s module user slot target).imp_right ?_)
  rintro ⟨d, step, l, w, -, hd, -, -, -, -, -, hw, -, ho⟩
  have hmodule := Store.module_of_draft? hd
  subst hmodule
  refine ⟨w, ?_, ho⟩
  by_cases hfinal : s.isFinalFor d l.target = true
  · rw [if_pos hfinal] at hw
    obtain ⟨-, -, rfl⟩ := finish_eq_ok_iff.1 hw
    exact .concluded rfl hd (by rw [ho]; rfl)
  · rw [if_neg hfinal] at hw
    obtain ⟨change, filled, hfilled, rfl⟩ := move_eq_ok_iff.1 hw
    have hsame := (Store.seats_autofill hfilled).draft_eq
    have hput : (s.putDraft { d with step := l.target }).putDraft change.draft =
        s.putDraft change.draft := Store.putDraft_putDraft (by rw [hsame]; rfl)
    unfold Change.work
    dsimp only
    rw [hput]
    refine .changed rfl hd ?_ nofun
    rw [hsame]
    rfl

/-- Every operation on drafts has one of the effects, with further events. -/
theorem exists_effect (c : Conditions) (s : Store) (op : Operation) :
    ∃ u, op.Effect c s u ∧ (op.perform c s).store.Extends u := by
  cases op with
  | begin module process placements => exact effect_begin c s module process placements
  | advance module user slot target => exact effect_advance c s module user slot target
  | cancel module =>
      refine effect_of_cases rfl ((cancel_cases c s module).imp_right ?_)
      rintro ⟨d, w, -, hd, -, rfl, -, ho⟩
      have hmodule := Store.module_of_draft? hd
      subst hmodule
      exact ⟨_, .cancelled rfl hd (by rw [ho]; rfl), ho⟩
  | assign module slot user =>
      refine effect_of_cases rfl ((assign_cases c s module slot user).imp_right ?_)
      rintro ⟨d, row, w, -, hd, -, -, -, rfl, -, ho⟩
      have hmodule := Store.module_of_draft? hd
      subst hmodule
      refine ⟨_, .changed rfl hd rfl ?_, ho⟩
      nofun
  | claim module slot user =>
      refine effect_of_cases rfl ((claim_cases c s module slot user).imp_right ?_)
      rintro ⟨d, row, w, -, hd, -, -, -, -, -, rfl, -, ho⟩
      have hmodule := Store.module_of_draft? hd
      subst hmodule
      refine ⟨_, .changed rfl hd rfl ?_, ho⟩
      nofun
  | unassign module slot =>
      refine effect_of_cases rfl ((unassign_cases c s module slot).imp_right ?_)
      rintro ⟨d, row, w, -, hd, -, -, rfl, -, ho⟩
      have hmodule := Store.module_of_draft? hd
      subst hmodule
      refine ⟨_, .changed rfl hd rfl ?_, ho⟩
      nofun

end Cases

end Drafting.Operation

theorem Store.exists_after_draft (s : Store) (c : Conditions) (op : Drafting.Operation) :
    ∃ u, op.Effect c s u ∧ (s.after ⟨c, .draft op⟩).Extends u :=
  op.exists_effect c s

end Editorial
