import Editorial.Proofs.Process.Acceptance
import Editorial.Proofs.Process.Misreading

/-!
# Which descriptions are judged

A description is judged when it is accepted or refused with a defect. The reader gives up without a
judgement at one thing only, an array or object in the place of a permission, and only when it gets
there: when everything that it reads before is as it should be (`Description.Confounds`). That
settles for every value whether it is judged, and what the reader gives up at if not
(`judged_iff_not_confounded`).
-/

namespace Editorial

open Json Text

/-! ### What cannot be judged -/

/-- A value grants a permission to the slot at an index, and an array or object stands for it. -/
inductive GrantSpec.Confounds (p : Json) : Json → Prop where
  | mk {fields : Fields} {slot : Int} (slot : find? fields "slot" = some (int slot))
      (permission : find? fields "permission" = some p) (container : p.isContainer = true) :
      Confounds p (object fields)

/-- The first grant of a step that cannot be read is one that cannot be judged. -/
inductive StepSpec.Confounds (p : Json) : Json → Prop where
  | mk {fields : Fields} {name : Wording} {before after : List Json} {grant : Json}
      (name : HasName fields name)
      (grant_items : HasItems fields "slots" (before ++ grant :: after))
      (before_read : ∀ v ∈ before, ∃ g, GrantSpec.Reads v g)
      (confounds : GrantSpec.Confounds p grant) : Confounds p (object fields)

/-- Everything besides the steps can be read, and the first step that cannot is one that cannot be
judged. -/
inductive Description.Confounds (p : Json) : Json → Prop where
  | mk {fields : Fields} {name : Wording} {start : Int} {rawSlots before after : List Json}
      {step : Json} (name : HasName fields name) (start : find? fields "start" = some (int start))
      (slot_items : HasItems fields "slots" rawSlots)
      {slots : List SlotSpec} (slots_read : List.Forall₂ SlotSpec.Reads rawSlots slots)
      (step_items : find? fields "steps" = some (array (before ++ step :: after)))
      (before_read : ∀ v ∈ before, ∃ s, StepSpec.Reads v s)
      (confounds : StepSpec.Confounds p step) : Confounds p (object fields)

/-! ### Where the reader gives up -/

variable {p : Json}

/-- A list is read up to the first value that cannot be read. -/
theorem readEach_eq_error_iff {α : Type} {read : Nat → Json → Except Failure α}
    {R : Json → α → Prop} {E : Json → Prop} {f : Failure}
    (hread : ∀ index v a, read index v = .ok a ↔ R v a)
    (hfail : ∀ index v, read index v = .error f ↔ E v) {index : Nat} {vs : List Json} :
    readEach read index vs = .error f ↔
      ∃ before v after, vs = before ++ v :: after ∧ (∀ w ∈ before, ∃ a, R w a) ∧ E v := by
  induction vs generalizing index with
  | nil => exact iff_of_false nofun fun ⟨before, v, after, h, _⟩ => by simp at h
  | cons v vs ih =>
      simp only [readEach, bind_eq_error_iff, hread, hfail, ih, pure, Except.pure, reduceCtorEq,
        and_false, exists_false, or_false]
      constructor
      · rintro (hv | ⟨a, ha, before, w, after, rfl, hbefore, hw⟩)
        · exact ⟨[], v, vs, rfl, List.forall_mem_nil _, hv⟩
        · exact ⟨v :: before, w, after, rfl, List.forall_mem_cons.2 ⟨⟨a, ha⟩, hbefore⟩, hw⟩
      · rintro ⟨before, w, after, h, hbefore, hw⟩
        rcases List.cons_eq_append_iff.1 h with ⟨rfl, hvs⟩ | ⟨before, rfl, rfl⟩
        · obtain ⟨rfl, rfl⟩ := List.cons.inj hvs
          exact Or.inl hw
        · obtain ⟨⟨a, ha⟩, hbefore⟩ := List.forall_mem_cons.1 hbefore
          exact Or.inr ⟨a, ha, before, w, after, rfl, hbefore, hw⟩

theorem eq_error_iff_false {ε α : Type} {P : ε → Prop} {x : Except ε α} {e : ε}
    (h : OnlyFails P x) (he : ¬P e) : x = .error e ↔ False := by
  refine iff_false_intro fun hx => he ?_
  rwa [hx] at h

/-- What has the wrong shape is refused. -/
theorem Place.not_blamed_incomparable {place : Place} : ¬place.Blamed (.incomparable p) :=
  fun ⟨_, _, h⟩ => nomatch h

theorem readName_eq_incomparable_iff {place : Place} {element : Named} {v : Json} :
    readName place element v = .error (.incomparable p) ↔ False :=
  eq_error_iff_false onlyFails_readName Place.not_blamed_incomparable

theorem readList_eq_incomparable_iff {place : Place} {list : ListName} {v : Json} :
    readList place list v = .error (.incomparable p) ↔ False :=
  eq_error_iff_false onlyFails_readList Place.not_blamed_incomparable

theorem readPermission_eq_incomparable_iff {place : Place} {v : Json} :
    readPermission place v = .error (.incomparable p) ↔ v = p ∧ p.isContainer = true := by
  constructor
  · intro h
    have hfault : OnlyFails (Permission.Fault place v) (readPermission place v) :=
      onlyFails_readPermission
    rw [h] at hfault
    cases hfault with
    | container hcontainer => exact ⟨rfl, hcontainer⟩
  · rintro ⟨rfl, hcontainer⟩
    cases v with
    | array | object => rfl
    | _ => cases hcontainer

theorem GrantSpec.ofJson_eq_incomparable_iff {step : Nat} {v : Json} :
    ofJson step v = .error (.incomparable p) ↔ Confounds p v := by
  unfold ofJson
  split
  · rename_i fields
    constructor
    · intro h
      split at h
      · cases h
      · rename_i slot hslot
        simp only [bind_eq_error_iff, readPermission_eq_incomparable_iff, pure, Except.pure,
          reduceCtorEq, and_false, exists_false, or_false] at h
        obtain ⟨hpermission, hcontainer⟩ := h
        have hp : p ≠ null := by
          rintro rfl
          cases hcontainer
        exact .mk (asIndex?_field_eq_some_iff.1 hslot) ((field_eq_iff hp).1 hpermission) hcontainer
    · rintro ⟨hslot, hpermission, hcontainer⟩
      have hfield : field fields "permission" = p := by rw [field, hpermission]; rfl
      rw [asIndex?_field_eq_some_iff.2 hslot]
      exact bind_eq_error_iff.2 (Or.inl (readPermission_eq_incomparable_iff.2 ⟨hfield, hcontainer⟩))
  · rename_i hv
    refine iff_of_false (fun h => ?_) fun h => ?_
    · cases h
    · cases h
      exact hv _ rfl

theorem StepSpec.ofJson_eq_incomparable_iff {index : Nat} {v : Json} :
    ofJson index v = .error (.incomparable p) ↔ Confounds p v := by
  have hgrant {vs : List Json} :
      readEach (fun _ => GrantSpec.ofJson index) 0 vs = .error (.incomparable p) ↔
        ∃ before grant after, vs = before ++ grant :: after ∧
          (∀ v ∈ before, ∃ g, GrantSpec.Reads v g) ∧ GrantSpec.Confounds p grant :=
    readEach_eq_error_iff (fun _ v _ => GrantSpec.ofJson_eq_ok_iff (v := v))
      fun _ v => GrantSpec.ofJson_eq_incomparable_iff (v := v)
  have hlink {vs : List Json} :
      readEach (fun _ => LinkSpec.ofJson index) 0 vs = .error (.incomparable p) ↔ False :=
    eq_error_iff_false (onlyFails_readEach fun _ _ _ => LinkSpec.onlyFails_ofJson)
      Place.not_blamed_incomparable
  unfold ofJson
  split
  · simp only [bind_eq_error_iff, readName_eq_incomparable_iff, readList_eq_incomparable_iff,
      hgrant, hlink, readName_eq_ok_iff, readList_eq_ok_iff, pure, Except.pure, reduceCtorEq,
      and_false, exists_false, or_false, false_or]
    constructor
    · rintro ⟨name, hname, rawGrants, hitems, before, grant, after, rfl, hbefore, hgrant⟩
      exact .mk hname hitems hbefore hgrant
    · rintro ⟨hname, hitems, hbefore, hgrant⟩
      exact ⟨_, hname, _, hitems, _, _, _, rfl, hbefore, hgrant⟩
  · rename_i hv
    refine iff_of_false (fun h => ?_) fun h => ?_
    · cases h
    · cases h
      exact hv _ rfl

/-- The reader gives up at a value exactly when that is what cannot be judged. -/
theorem Description.ofJson_eq_incomparable_iff {raw : Json} :
    ofJson raw = .error (.incomparable p) ↔ Confounds p raw := by
  have hslots {vs : List Json} {slots : List SlotSpec} : readEach SlotSpec.ofJson 0 vs = .ok slots ↔
      List.Forall₂ SlotSpec.Reads vs slots :=
    readEach_eq_ok_iff fun _ v _ => SlotSpec.ofJson_eq_ok_iff (v := v)
  have hslot {vs : List Json} :
      readEach SlotSpec.ofJson 0 vs = .error (.incomparable p) ↔ False :=
    eq_error_iff_false (P := fun f => ∃ i, (Place.slot i).Blamed f)
      (onlyFails_readEach fun _ _ _ => SlotSpec.onlyFails_ofJson.imp fun _ _ h => ⟨_, h⟩)
      fun ⟨_, h⟩ => Place.not_blamed_incomparable h
  have hstep {vs : List Json} : readEach StepSpec.ofJson 0 vs = .error (.incomparable p) ↔
      ∃ before step after, vs = before ++ step :: after ∧
        (∀ v ∈ before, ∃ s, StepSpec.Reads v s) ∧ StepSpec.Confounds p step :=
    readEach_eq_error_iff (fun _ v _ => StepSpec.ofJson_eq_ok_iff (v := v))
      fun _ v => StepSpec.ofJson_eq_incomparable_iff (v := v)
  unfold ofJson
  split
  · rename_i fields
    constructor
    · intro h
      split at h
      · cases h
      · rename_i start hstart
        rcases bind_eq_error_iff.1 h with h | ⟨rawSteps, hrawSteps, h⟩
        · exact (readList_eq_incomparable_iff.1 h).elim
        split at h
        · cases h
        · rename_i hsome
          have hne : rawSteps ≠ [] := by simpa using hsome
          simp only [bind_eq_error_iff, readName_eq_incomparable_iff, readList_eq_incomparable_iff,
            readName_eq_ok_iff, readList_eq_ok_iff, hslot, hslots, hstep, pure, Except.pure,
            reduceCtorEq, and_false, exists_false, or_false, false_or] at h hrawSteps
          obtain ⟨name, hname, rawSlots, hrawSlots, slots, hslotsRead, before, step, after, rfl,
            hbefore, hconfounds⟩ := h
          exact .mk hname (asIndex?_field_eq_some_iff.1 hstart) hrawSlots hslotsRead
            ((hasItems_iff_of_ne_nil hne).1 hrawSteps) hbefore hconfounds
    · rintro ⟨hname, hstart, hrawSlots, hslotsRead, hrawSteps, hbefore, hconfounds⟩
      have hsome {before after : List Json} {step : Json} :
          ¬(before ++ step :: after).isEmpty = true := by simp
      rw [asIndex?_field_eq_some_iff.2 hstart]
      refine bind_eq_error_iff.2 (Or.inr ⟨_, readList_eq_ok_iff.2 (Or.inl hrawSteps), ?_⟩)
      simp only [if_neg hsome, bind_eq_error_iff, readName_eq_incomparable_iff,
        readList_eq_incomparable_iff, readName_eq_ok_iff, readList_eq_ok_iff, hslot, hslots, hstep,
        pure, Except.pure, reduceCtorEq, and_false, exists_false, or_false, false_or]
      exact ⟨_, hname, _, hrawSlots, _, hslotsRead, _, _, _, rfl, hbefore, hconfounds⟩
  · rename_i hv
    refine iff_of_false (fun h => ?_) fun h => ?_
    · cases h
    · cases h
      exact hv _ rfl

/-! ### What is judged -/

namespace Description

/-- A description that has been read is judged. -/
theorem validate_eq_incomparable_iff {raw : Json} :
    validate raw = .error (.incomparable p) ↔ Confounds p raw := by
  rw [← ofJson_eq_incomparable_iff, validate, bind_eq_error_iff]
  refine or_iff_left fun ⟨d, _, h⟩ => ?_
  split at h <;> cases h

/-- Whoever is neither accepted nor confounds the reader is refused with a defect. -/
theorem onlyFails_validate_cases {raw : Json} :
    OnlyFails (fun f => (∃ defect, f = .invalid defect) ∨ ∃ p, f = .incomparable p)
      (validate raw) := by
  refine .bind (onlyFails_ofJson.imp fun _ f hf => ?_) fun d _ => ?_
  · have hplace {place : Place} (h : place.Blamed f) : ∃ defect, f = .invalid defect := by
      obtain ⟨cause, -, rfl⟩ := h
      exact ⟨_, rfl⟩
    cases hf with
    | top _ h => exact Or.inl (hplace h)
    | slot _ _ h => exact Or.inl (hplace h)
    | step _ _ h =>
        rcases h with h | ⟨p, -, h⟩
        · exact Or.inl (hplace h)
        · cases h with
          | container => exact Or.inr ⟨p, rfl⟩
          | unknown => exact Or.inl ⟨_, rfl⟩
  · cases d.defect? with
    | some defect => exact Or.inl ⟨defect, rfl⟩
    | none => trivial

end Description

open Description in
/-- A value is accepted or refused with a defect exactly when nothing in it confounds the reader,
and otherwise the reader gives up at what confounds it. -/
theorem judged_iff_not_confounded (raw : Json) :
    (((∃ d, validate raw = .ok d) ∨ ∃ defect, validate raw = .error (.invalid defect)) ↔
        ∀ p, ¬Confounds p raw) ∧
      ∀ p, validate raw = .error (.incomparable p) ↔ Confounds p raw := by
  refine ⟨?_, fun p => validate_eq_incomparable_iff⟩
  have hcases : OnlyFails _ (validate raw) := onlyFails_validate_cases
  simp only [← validate_eq_incomparable_iff]
  cases hvalid : validate raw with
  | ok d => simp
  | error f =>
      rw [hvalid] at hcases
      rcases hcases with ⟨defect, rfl⟩ | ⟨p, rfl⟩ <;> simp

open Description in
/-- Not everything is judged: a list may stand in the place of a permission. -/
theorem listed_permission_not_judged :
    ¬∀ raw, (∃ d, validate raw = .ok d) ∨ ∃ defect, validate raw = .error (.invalid defect) := by
  intro h
  let grant := object [("slot", int 0), ("permission", array [text "edit"])]
  let raw := object [("name", text "Essay"), ("start", int 0),
    ("slots", array [object [("name", text "Author")]]),
    ("steps", array [object [("name", text "Writing"), ("slots", array [grant])]])]
  have hraw : validate raw = .error (.incomparable (array [text "edit"])) := rfl
  rcases h raw with ⟨d, hd⟩ | ⟨defect, hdefect⟩
  · cases hraw.symm.trans hd
  · cases hraw.symm.trans hdefect

end Editorial
