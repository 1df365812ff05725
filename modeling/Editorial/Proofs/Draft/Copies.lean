import Editorial.Proofs.Draft.Publication

/-!
# Numbers of copies

The copy on which a draft works gets the next number of the documents that are stored
(`exists_origin`), and since documents are never removed, no two drafts work on the same one
(`Store.CopiesApart`). Modules, however, come with document numbers of their own, and nothing keeps
these apart from the numbers of copies. A module that still has the document it came with, under a
number that no copy had yet (`stored_or_came`), can find this number given to the copy on which its
draft is to work (`copies_apart`).
-/

namespace Editorial

/-- The module of a draft and the number of the copy on which the draft works. -/
def Draft.copy (d : Draft) : String × Int := (d.module, d.document)

namespace Store

/-- The number of the next copy of a document. -/
def nextCopy (s : Store) : Int := nextId (s.documents.map Document.id)

/-- Between two stores at most one document has been copied, for a new draft. -/
inductive Copying (s u : Store) : Prop where
  | none (documents : u.documents = s.documents)
      (drafts : (u.drafts.map Draft.copy).Sublist (s.drafts.map Draft.copy))
  | one {doc : Document} {module : String} (number : doc.id = s.nextCopy)
      (idle : s.draft? module = .none) (documents : u.documents = s.documents ++ [doc])
      (drafts : u.drafts.map Draft.copy = s.drafts.map Draft.copy ++ [(module, doc.id)])

end Store

/-! ### One turn -/

section Turns

variable {s u : Store}

theorem Drafting.Operation.Effect.copying {c : Conditions} {op : Drafting.Operation}
    (hs : s.Sound) (h : op.Effect c s u) : s.Copying u := by
  cases h with
  | kept => exact .none rfl (.refl _)
  | @begun m p v d _ _ _ _ idle _ draft =>
      refine @Store.Copying.one s _ ⟨s.nextCopy, m.document, c.now⟩ m.id rfl idle rfl ?_
      rw [List.map_append, draft]
      rfl
  | @changed d d' _ found draft _ =>
      have hsame : (s.putDraft d').drafts.map Draft.copy = s.drafts.map Draft.copy := by
        unfold Store.putDraft
        rw [List.map_map]
        refine List.map_congr_left fun e he => ?_
        simp only [Function.comp_apply]
        split
        · rename_i hmodule
          have hmodule' : e.module = d.module := by rw [hmodule, draft]
          have hfound : s.draft? d.module = some e := hs.draft?_eq_some_iff.2 ⟨he, hmodule'⟩
          rw [draft, Option.some.inj (found.symm.trans hfound)]
          rfl
        · rfl
      exact .none rfl (hsame ▸ .refl _)
  | @concluded d _ _ _ _ _ _ =>
      obtain ⟨runs, hruns⟩ := (s.publish d.module d.document).exists_runs_closeOpenRun d.module
        .finished c.now
      unfold Store.conclude
      rw [hruns]
      exact .none rfl (List.filter_sublist.map _)
  | @cancelled d _ _ _ =>
      obtain ⟨runs, hruns⟩ := s.exists_runs_closeOpenRun d.module .cancelled c.now
      rw [hruns]
      exact .none rfl (List.filter_sublist.map _)

theorem Turn.copying (hs : s.Sound) (t : Turn) : s.Copying (s.after t) := by
  obtain ⟨c, action⟩ := t
  cases action with
  | define op =>
      obtain ⟨processes, versions, hafter⟩ := s.exists_after_define c op
      rw [hafter]
      exact .none rfl (.refl _)
  | direct op =>
      obtain ⟨modules, members, hafter⟩ := s.exists_after_direct c op
      rw [hafter]
      exact .none rfl (.refl _)
  | draft op =>
      obtain ⟨u, heffect, es, hafter⟩ := s.exists_after_draft c op
      rw [hafter]
      rcases heffect.copying hs with ⟨hdocuments, hdrafts⟩ | ⟨hnumber, hidle, hdocuments, hdrafts⟩
      · exact .none hdocuments hdrafts
      · exact .one hnumber hidle hdocuments hdrafts

namespace Store.Copying

theorem exists_more (h : s.Copying u) : ∃ more, u.documents = s.documents ++ more := by
  rcases h with ⟨hdocuments, -⟩ | ⟨-, -, hdocuments, -⟩
  · exact ⟨[], by rw [hdocuments, List.append_nil]⟩
  · exact ⟨_, hdocuments⟩

/-- The draft of a module works on the same copy as before, or on a new one when the module had no
draft. -/
theorem document_eq (h : s.Copying u) (hs : s.Sound) {d : Draft} (hd : d ∈ u.drafts) :
    (∃ e, s.draft? d.module = some e ∧ d.document = e.document) ∨
      s.draft? d.module = .none ∧ d.document = s.nextCopy := by
  have hkept (hmem : d.copy ∈ s.drafts.map Draft.copy) :
      ∃ e, s.draft? d.module = some e ∧ d.document = e.document := by
    obtain ⟨e, he, hcopy⟩ := List.mem_map.1 hmem
    obtain ⟨hmodule, hdocument⟩ := Prod.ext_iff.1 hcopy
    exact ⟨e, hs.draft?_eq_some_iff.2 ⟨he, hmodule⟩, hdocument.symm⟩
  have hcopy : d.copy ∈ u.drafts.map Draft.copy := List.mem_map_of_mem hd
  rcases h with ⟨-, hdrafts⟩ | ⟨hnumber, hidle, -, hdrafts⟩
  · exact Or.inl (hkept (hdrafts.mem hcopy))
  · rw [hdrafts] at hcopy
    rcases List.mem_append.1 hcopy with hmem | hnew
    · exact Or.inl (hkept hmem)
    · obtain ⟨hmodule, hdocument⟩ := Prod.ext_iff.1 (List.mem_singleton.1 hnew)
      obtain rfl : d.module = _ := hmodule
      exact Or.inr ⟨hidle, hdocument.trans hnumber⟩

end Store.Copying

end Turns

/-! ### Copies are apart -/

namespace Store

variable {s u : Store}

/-- No two drafts work on the same copy. -/
def CopiesApart (s : Store) : Prop := (s.drafts.map Draft.document).Nodup

theorem UpToDate.document_lt (h : s.UpToDate) {d : Draft} (hd : d ∈ s.drafts) :
    d.document < s.nextCopy := by
  obtain ⟨-, doc, -, hdoc, hid, -⟩ := h.copies d hd
  rw [← hid]
  exact lt_nextId (List.mem_map_of_mem hdoc)

theorem CopiesApart.of_copying (h : s.CopiesApart) (hs : s.UpToDate) (hu : s.Copying u) :
    u.CopiesApart := by
  have hdocument (t : Store) :
      t.drafts.map Draft.document = (t.drafts.map Draft.copy).map Prod.snd := by
    rw [List.map_map]
    rfl
  unfold CopiesApart at h ⊢
  rw [hdocument] at h ⊢
  rcases hu with ⟨-, hdrafts⟩ | ⟨hnumber, -, -, hdrafts⟩
  · exact (hdrafts.map Prod.snd).nodup h
  · rw [hdrafts, List.map_append]
    refine List.nodup_append.2 ⟨h, List.nodup_singleton _, fun n hn n' hn' => ?_⟩
    rw [← hdocument] at hn
    obtain ⟨d, hd, rfl⟩ := List.mem_map.1 hn
    rw [List.mem_singleton.1 hn', hnumber]
    exact Int.ne_of_lt (hs.document_lt hd)

theorem copiesApart_afterAll {turns : List Turn} (h : empty.Along Turn.AddsModules turns) :
    (empty.afterAll turns).CopiesApart := by
  induction turns using List.reverseRecOn with
  | nil => exact List.nodup_nil
  | append_singleton turns t ih =>
      obtain ⟨hbefore, -⟩ := along_append.1 h
      rw [afterAll_concat]
      exact (ih hbefore).of_copying (upToDate_empty.afterAll hbefore)
        (t.copying (sound_empty.afterAll turns))

theorem exists_more_afterAll (hs : s.Sound) (turns : List Turn) :
    ∃ more, (s.afterAll turns).documents = s.documents ++ more := by
  induction turns using List.reverseRecOn with
  | nil => exact ⟨[], (List.append_nil _).symm⟩
  | append_singleton turns t ih =>
      obtain ⟨more, hmore⟩ := ih
      obtain ⟨more', hmore'⟩ := (t.copying (hs.afterAll turns)).exists_more
      refine ⟨more ++ more', ?_⟩
      rw [afterAll_concat, hmore', hmore, List.append_assoc]

/-- Numbers of copies only grow. -/
theorem nextCopy_le (hs : s.Sound) (turns : List Turn) :
    s.nextCopy ≤ (s.afterAll turns).nextCopy := by
  obtain ⟨more, hmore⟩ := exists_more_afterAll hs turns
  unfold nextCopy nextId
  rw [hmore, List.map_append, List.foldl_append]
  exact Int.add_le_add_right (le_foldl_max _ _).1 1

end Store

/-! ### Where copies and documents come from -/

/-- A draft works on the copy that was made when it was begun, and its module has not got another
document since. -/
theorem exists_origin {turns : List Turn} (h : Store.empty.Along Turn.AddsModules turns)
    {module : String} {d : Draft} (hd : (Store.empty.afterAll turns).draft? module = some d) :
    ∃ before b after m, Begun turns module before b after ∧
      (Store.empty.afterAll before).module? module = some m ∧
      (Store.empty.afterAll turns).module? module = some m ∧
      d.document = (Store.empty.afterAll before).nextCopy := by
  induction turns using List.reverseRecOn generalizing d with
  | nil => cases hd
  | append_singleton turns t ih =>
      obtain ⟨hbefore, ht, -⟩ := Store.along_append.1 h
      have hs : (Store.empty.afterAll turns).Sound := Store.sound_empty.afterAll turns
      have hmodule := Store.module_of_draft? hd
      have hdocument := (t.copying hs).document_eq hs
        (Store.afterAll_concat _ _ _ ▸ List.mem_of_find?_eq_some hd)
      rw [hmodule] at hdocument
      rcases hdocument with ⟨e, he, hsame⟩ | ⟨hidle, hnew⟩
      · obtain ⟨before, b, after, m, hbegun, hm, hm', hnumber⟩ := ih hbefore he
        have hlives : ¬t.Concludes module (Store.empty.afterAll turns) := by
          intro hconcludes
          rw [Store.afterAll_concat, Turn.draft?_of_concludes hconcludes] at hd
          cases hd
        refine ⟨before, b, after ++ [t], m, hbegun.concat hd, hm, ?_, hsame.trans hnumber⟩
        rw [Store.afterAll_concat]
        exact Turn.module?_of_not_concludes ht hlives hm'
      · have hsome : (((Store.empty.afterAll turns).after t).draft? module).isSome = true := by
          rw [← Store.afterAll_concat, hd]
          rfl
        have hbegins := Turn.begins_of_isSome hs hidle hsome
        have hbegun : Begun (turns ++ [t]) module turns t [] := by
          refine ⟨rfl, hbegins, hidle, fun later hlater => ?_⟩
          rw [List.prefix_nil.1 hlater, hd]
          rfl
        obtain ⟨m, hm⟩ := hbegun.exists_module
        have hgoes : ¬t.Concludes module (Store.empty.afterAll turns) := by
          rintro ⟨_, _, _, haction, -⟩
          obtain ⟨_, _, hbegin⟩ := hbegins
          cases hbegin.symm.trans haction
        refine ⟨turns, t, [], m, hbegun, hm, ?_, hnew⟩
        rw [Store.afterAll_concat]
        exact Turn.module?_of_not_concludes ht hgoes hm

/-- A turn that gives a module a row has set it. -/
theorem Turn.sets_of_module? {s : Store} {t : Turn} (ht : t.AddsModules s) {module : String}
    {m : Module} (hnone : s.module? module = none) (hm : (s.after t).module? module = some m) :
    t.action = .direct (.setModule m) := by
  rcases t.modules_after s with hkept | ⟨m', haction, hput⟩ | ⟨d, -, hended⟩
  · rw [Store.module?_eq_of_modules hkept, hnone] at hm
    cases hm
  · rw [Store.module?_eq_of_modules hput] at hm
    unfold Store.putModule at hm
    rw [ht m' haction, Option.isSome_none, if_neg Bool.false_ne_true] at hm
    unfold Store.module? at hm hnone
    rw [List.find?_append, hnone, Option.none_or, List.find?_singleton] at hm
    split at hm
    · rw [haction, Option.some.inj hm]
    · cases hm
  · rw [Store.module?_eq_of_modules hended, Store.module?_conclude, hnone, Option.map_none,
      ite_self] at hm
    cases hm

/-- The document of a module is stored, or the module still has the row with which it came. -/
theorem stored_or_came {turns : List Turn} (h : Store.empty.Along Turn.AddsModules turns)
    {module : String} {m : Module} (hm : (Store.empty.afterAll turns).module? module = some m) :
    m.document < (Store.empty.afterAll turns).nextCopy ∨
      ∃ earlier a later, turns = earlier ++ a :: later ∧ a.action = .direct (.setModule m) ∧
        (Store.empty.afterAll earlier).module? module = none := by
  induction turns using List.reverseRecOn generalizing m with
  | nil => cases hm
  | append_singleton turns t ih =>
      obtain ⟨hbefore, ht, -⟩ := Store.along_append.1 h
      have hs : (Store.empty.afterAll turns).Sound := Store.sound_empty.afterAll turns
      have hle := Store.nextCopy_le hs [t]
      rw [Store.afterAll_concat] at hm
      cases hformer : (Store.empty.afterAll turns).module? module with
      | none => exact Or.inr ⟨turns, t, [], rfl, Turn.sets_of_module? ht hformer hm, hformer⟩
      | some m' =>
          by_cases hconcludes : t.Concludes module (Store.empty.afterAll turns)
          · obtain ⟨d, hd, hmodule⟩ := Turn.module?_of_concludes hconcludes hformer
            have hlt := (Store.upToDate_empty.afterAll hbefore).document_lt
              (List.mem_of_find?_eq_some hd)
            rw [Option.some.inj (hm.symm.trans hmodule), Store.afterAll_concat]
            exact Or.inl (Int.lt_of_lt_of_le hlt hle)
          · have hkept := Turn.module?_of_not_concludes ht hconcludes hformer
            obtain rfl := Option.some.inj (hm.symm.trans hkept)
            refine (ih hbefore hformer).imp (fun hlt => ?_) ?_
            · rw [Store.afterAll_concat]
              exact Int.lt_of_lt_of_le hlt hle
            · rintro ⟨earlier, a, later, rfl, haction, hnone⟩
              exact ⟨earlier, a, later ++ [t], by simp, haction, hnone⟩

/-- No two drafts work on the same copy. A draft works on another document than the current one of
its module, unless this has the very number that was next when the draft was begun. Then the module
still has the row with which it came, and it came with a number that no copy had had by then. -/
theorem copies_apart {turns : List Turn} (h : Store.empty.Along Turn.AddsModules turns) :
    let s := Store.empty.afterAll turns
    (s.drafts.map Draft.document).Nodup ∧
    ∀ d ∈ s.drafts, ∃ before b after m, Begun turns d.module before b after ∧
      (Store.empty.afterAll before).module? d.module = some m ∧
      s.module? d.module = some m ∧
      (d.document = m.document ↔ m.document = (Store.empty.afterAll before).nextCopy) ∧
      (d.document = m.document → ∃ earlier a later, before = earlier ++ a :: later ∧
        a.action = .direct (.setModule m) ∧
        (Store.empty.afterAll earlier).module? d.module = none ∧
        (Store.empty.afterAll earlier).nextCopy ≤ m.document) := by
  intro s
  have hs : s.Sound := Store.sound_empty.afterAll turns
  refine ⟨Store.copiesApart_afterAll h, fun d hd => ?_⟩
  obtain ⟨before, b, after, m, hbegun, hm, hm', hnumber⟩ :=
    exists_origin h (hs.draft?_eq_some_iff.2 ⟨hd, rfl⟩)
  refine ⟨before, b, after, m, hbegun, hm, hm', by rw [hnumber, eq_comm], fun hsame => ?_⟩
  have hadds : Store.empty.Along Turn.AddsModules before := by
    rw [hbegun.run] at h
    exact (Store.along_append.1 h).1
  rcases stored_or_came hadds hm with hlt | ⟨earlier, a, later, rfl, haction, hnone⟩
  · exact absurd (hsame.symm.trans hnumber) (Int.ne_of_lt hlt)
  · refine ⟨earlier, a, later, rfl, haction, hnone, ?_⟩
    rw [← hsame, hnumber]
    have hle := Store.nextCopy_le (Store.sound_empty.afterAll earlier) (a :: later)
    unfold Store.afterAll at hle ⊢
    rwa [← List.foldl_append] at hle

/-- In the review, the draft works on another document than the module has. -/
theorem own_copy_of_review :
    Store.empty.Along Turn.AddsModules Review.turns ∧
      (Review.store.drafts.map Draft.document).Nodup ∧
      ∃ before b after m, Begun Review.turns "m" before b after ∧
        Review.store.module? "m" = some m ∧ Review.begun.document ≠ m.document := by
  have hadds : Store.empty.Along Turn.AddsModules Review.turns := by
    refine ⟨fun m hm => ?_, nofun, nofun, nofun, trivial⟩
    cases hm
    rfl
  obtain ⟨hapart, horigin⟩ := copies_apart hadds
  obtain ⟨before, b, after, m, hbegun, -, hm, -⟩ :=
    horigin Review.begun (List.mem_of_find?_eq_some Review.draft?_store)
  have hdocument : (Review.store.module? "m").map Module.document = some 100 := by decide +kernel
  refine ⟨hadds, hapart, before, b, after, m, hbegun, hm, ?_⟩
  have hm' : Review.store.module? "m" = some m := hm
  rw [hm', Option.map_some, Option.some.injEq] at hdocument
  rw [hdocument]
  decide +kernel

/-- A module that comes with the number of the first copy: its draft is to work on what is current
and not on a copy of its own. -/
theorem module_with_number_of_copy :
    let turns := ([.direct (.setModule ⟨"m", 1, "", 1⟩),
      .define (.createProcess 1 Review.description), .draft (.begin "m" 1 [])] : List Action).map
        (Turn.mk Review.conditions)
    let s := Store.empty.afterAll turns
    Store.empty.Along Turn.AddsModules turns ∧ ∃ d ∈ s.drafts, ∃ m ∈ s.modules,
      d.module = m.id ∧ d.document = m.document := by
  intro turns s
  refine ⟨⟨fun m hm => by cases hm; rfl, nofun, nofun, trivial⟩, ?_⟩
  have hclash : (s.drafts.any fun d => s.modules.any fun m =>
      d.module == m.id && d.document == m.document) = true := by decide +kernel
  simpa using hclash

end Editorial
