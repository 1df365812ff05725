import Editorial.Process.Reader
import Editorial.Proofs.Operation
import Editorial.Proofs.Ordered
import Editorial.Proofs.Text.Strip

/-!
# What a description says

`Description.Reads` says which description a value gives, without regard to the order in which it
is read: which fields its objects have, and what stands in them. The reader gives that description
and refuses every value that gives none (`Description.ofJson_eq_ok_iff`).
-/

namespace Editorial

open Json Text Ordered

/-! ### Fields -/

namespace Json

/-- A field holds a list; one that is null or missing counts as the empty list. -/
def HasItems (fields : Fields) (name : Wording) (items : List Json) : Prop :=
  find? fields name = some (array items) ∨
    items = [] ∧ (find? fields name = some null ∨ find? fields name = none)

/-- A field holds a text, and this is left of it without the blanks around it. -/
def HasName (fields : Fields) (name : Wording) : Prop :=
  ∃ raw, find? fields "name" = some (text raw) ∧ raw.StripsTo name

theorem field_eq_iff {fields : Fields} {name : Wording} {v : Json} (hv : v ≠ null) :
    field fields name = v ↔ find? fields name = some v := by
  unfold field
  cases find? fields name with
  | none => simpa using hv.symm
  | some u => simp

theorem field_eq_null_iff {fields : Fields} {name : Wording} :
    field fields name = null ↔ find? fields name = some null ∨ find? fields name = none := by
  unfold field
  cases find? fields name <;> simp

end Json

/-! ### What the parts of a description say -/

/-- What a value says about a slot. The roles are listed in ascending order, each once. -/
inductive SlotSpec.Reads : Json → SlotSpec → Prop where
  | mk {fields : Fields} {s : SlotSpec} {items : List Json}
      (name : HasName fields s.name)
      (roles : HasItems fields "roles" items) (ids : ∀ item ∈ items, ∃ r, item = int r)
      (mem_roles : ∀ r, r ∈ s.roles ↔ int r ∈ items) (ordered : s.roles.Pairwise (· < ·))
      (autofill : find? fields "autofill" = some (bool s.autofill) ∨
        find? fields "autofill" = none ∧ s.autofill = false) :
      Reads (object fields) s

/-- What a value says about a grant. -/
inductive GrantSpec.Reads : Json → GrantSpec → Prop where
  | mk {fields : Fields} {g : GrantSpec}
      (slot : find? fields "slot" = some (int g.slot))
      (permission : find? fields "permission" = some (text g.permission.text)) :
      Reads (object fields) g

/-- What a value says about a link. -/
inductive LinkSpec.Reads : Json → LinkSpec → Prop where
  | mk {fields : Fields} {l : LinkSpec}
      (name : HasName fields l.name)
      (target : find? fields "to" = some (int l.target))
      (slot : find? fields "slot" = some (int l.slot)) :
      Reads (object fields) l

/-- What a value says about a step. Of grants that are repeated the first one counts. -/
inductive StepSpec.Reads : Json → StepSpec → Prop where
  | mk {fields : Fields} {s : StepSpec} {rawGrants rawLinks : List Json} {grants : List GrantSpec}
      (name : HasName fields s.name)
      (grant_items : HasItems fields "slots" rawGrants)
      (grants_read : List.Forall₂ GrantSpec.Reads rawGrants grants)
      (grants_once : s.grants = grants.eraseDups)
      (link_items : HasItems fields "links" rawLinks)
      (links_read : List.Forall₂ LinkSpec.Reads rawLinks s.links) :
      Reads (object fields) s

/-- What a value says about a process. -/
inductive Description.Reads : Json → Description → Prop where
  | mk {fields : Fields} {d : Description} {rawSlots rawSteps : List Json}
      (name : HasName fields d.name)
      (start : find? fields "start" = some (int d.start))
      (slot_items : HasItems fields "slots" rawSlots)
      (slots_read : List.Forall₂ SlotSpec.Reads rawSlots d.slots)
      (step_items : find? fields "steps" = some (array rawSteps)) (some_step : rawSteps ≠ [])
      (steps_read : List.Forall₂ StepSpec.Reads rawSteps d.steps) :
      Reads (object fields) d

/-! ### The reader -/

theorem readName_eq_ok_iff_stripsTo {place : Place} {element : Named} {v : Json} {w : Wording} :
    readName place element v = .ok w ↔ ∃ raw, v = text raw ∧ raw.StripsTo w := by
  unfold readName
  split
  · rename_i raw
    split
    · rename_i hblank
      refine iff_of_false nofun fun ⟨raw', hraw, hstrips⟩ => ?_
      cases hraw
      simp [(Wording.stripsTo_iff.1 hstrips).1] at hblank
    · rename_i hblank
      rw [Except.ok.injEq]
      constructor
      · rintro rfl
        exact ⟨raw, rfl, Wording.stripsTo_iff.2 ⟨Bool.eq_false_iff.2 hblank, rfl⟩⟩
      · rintro ⟨raw', hraw, hstrips⟩
        cases hraw
        exact (Wording.stripsTo_iff.1 hstrips).2.symm
  · rename_i hv
    exact iff_of_false nofun fun ⟨raw, h, _⟩ => hv raw h

theorem readName_eq_ok_iff {place : Place} {element : Named} {fields : Fields} {w : Wording} :
    readName place element (field fields "name") = .ok w ↔ HasName fields w := by
  rw [readName_eq_ok_iff_stripsTo]
  exact exists_congr fun raw => and_congr_left fun _ => field_eq_iff nofun

theorem readList_eq_ok_iff {place : Place} {list : ListName} {fields : Fields} {name : Wording}
    {items : List Json} :
    readList place list (field fields name) = .ok items ↔ HasItems fields name items := by
  have hread {v : Json} : readList place list v = .ok items ↔
      v = array items ∨ items = [] ∧ v = null := by
    unfold readList
    split
    · simp [eq_comm]
    · simp
    · rename_i hnull harray
      exact iff_of_false nofun fun h => h.elim (harray items) fun h => hnull h.2
  rw [hread, field_eq_null_iff, field_eq_iff (v := array items) nofun]
  rfl

theorem readEach_eq_ok_iff {α : Type} {read : Nat → Json → Except Failure α} {R : Json → α → Prop}
    (hread : ∀ index v a, read index v = .ok a ↔ R v a) {index : Nat} {vs : List Json}
    {as : List α} : readEach read index vs = .ok as ↔ List.Forall₂ R vs as := by
  induction vs generalizing index as with
  | nil => simp [readEach, eq_comm]
  | cons v vs ih =>
      unfold readEach
      simp only [bind_eq_ok_iff, pure_eq_ok_iff, hread, ih]
      constructor
      · rintro ⟨a, ha, rest, hrest, rfl⟩
        exact .cons ha hrest
      · rintro (_ | ⟨ha, hrest⟩)
        exact ⟨_, ha, _, hrest, rfl⟩

theorem forall_int_iff {items : List Json} :
    (∀ item ∈ items, ∃ n, item = int n) ↔ ∃ ns : List Int, items = ns.map int := by
  constructor
  · intro h
    induction items with
    | nil => exact ⟨[], rfl⟩
    | cons item items ih =>
        obtain ⟨n, rfl⟩ := h _ List.mem_cons_self
        obtain ⟨ns, rfl⟩ := ih fun item hitem => h item (List.mem_cons_of_mem _ hitem)
        exact ⟨n :: ns, rfl⟩
  · rintro ⟨ns, rfl⟩ item hitem
    obtain ⟨n, -, rfl⟩ := List.mem_map.1 hitem
    exact ⟨n, rfl⟩

theorem roleIds?_eq_some_iff {items : List Json} {roles : List Int} :
    roleIds? items = some roles ↔ items = roles.map int := by
  induction items generalizing roles with
  | nil => cases roles <;> simp [roleIds?]
  | cons v items ih =>
      unfold roleIds? at ih ⊢
      simp only [List.mapM_cons, Option.bind_eq_bind, Option.bind_eq_some_iff,
        asIndex?_eq_some_iff, Option.pure_def, Option.some.injEq, ih]
      constructor
      · rintro ⟨r, rfl, rest, rfl, rfl⟩
        rfl
      · intro h
        obtain ⟨r, rest, rfl, rfl, rfl⟩ := List.map_eq_cons_iff.1 h.symm
        exact ⟨r, rfl, rest, rfl, rfl⟩

theorem readAutofill_eq_ok_iff {place : Place} {v : Option Json} {autofill : Bool} :
    readAutofill place v = .ok autofill ↔
      v = some (bool autofill) ∨ v = none ∧ autofill = false := by
  unfold readAutofill
  split
  · simp [eq_comm]
  · simp [eq_comm]
  · rename_i hbool
    exact iff_of_false nofun fun h => h.elim (fun h => hbool _ (Option.some.inj h)) nofun

theorem readPermission_eq_ok_iff {place : Place} {v : Json} {p : Permission} :
    readPermission place v = .ok p ↔ v = text p.text := by
  have hname {s : String} : Permission.ofText? s = some p ↔ s = p.text := by
    refine ⟨fun h => ?_, fun h => h ▸ Permission.ofText?_text p⟩
    have htext : p.text = s := by simpa using List.find?_some h
    exact htext.symm
  unfold readPermission
  split
  · simp
  · simp
  · rename_i s
    cases hs : Permission.ofText? s with
    | none =>
        have hne : s ≠ p.text := fun h => by simp [hname.2 h] at hs
        simp [hne]
    | some q =>
        rw [Except.ok.injEq, Json.text.injEq, Wording.whole.injEq, ← hname, hs, Option.some.injEq]
  · rename_i hwhole
    exact iff_of_false nofun fun h => hwhole _ h

/-- The roles of a slot are determined by the values that are listed. -/
theorem roles_eq_ascending_iff {roles items : List Int} :
    roles = ascending items ↔ (∀ r, r ∈ roles ↔ r ∈ items) ∧ roles.Pairwise (· < ·) := by
  constructor
  · rintro rfl
    exact ⟨fun r => mem_ascending, pairwise_ascending items⟩
  · rintro ⟨hmem, hordered⟩
    have hperm : roles.Perm (ascending items) :=
      (List.perm_ext_iff_of_nodup (hordered.imp Int.ne_of_lt) (nodup_ascending items)).2
        fun r => (hmem r).trans mem_ascending.symm
    exact hperm.eq_of_pairwise (fun a b _ _ hab hba => absurd hab (Int.lt_asymm hba)) hordered
      (pairwise_ascending items)

theorem SlotSpec.ofJson_eq_ok_iff {index : Nat} {v : Json} {s : SlotSpec} :
    ofJson index v = .ok s ↔ Reads v s := by
  unfold ofJson
  split
  · rename_i fields
    simp only [bind_eq_ok_iff, readList_eq_ok_iff]
    constructor
    · rintro ⟨items, hitems, h⟩
      split at h
      · cases h
      · rename_i roles hroles
        obtain rfl := roleIds?_eq_some_iff.1 hroles
        simp only [bind_eq_ok_iff, pure_eq_ok_iff, readAutofill_eq_ok_iff,
          readName_eq_ok_iff] at h
        obtain ⟨autofill, hautofill, name, hname, rfl⟩ := h
        exact .mk hname hitems (forall_int_iff.2 ⟨roles, rfl⟩)
          (fun r => by simp [mem_ascending]) (pairwise_ascending roles) hautofill
    · rintro ⟨hname, hitems, hids, hmem, hordered, hautofill⟩
      rename_i items
      obtain ⟨roles, rfl⟩ := forall_int_iff.1 hids
      refine ⟨_, hitems, ?_⟩
      rw [roleIds?_eq_some_iff.2 rfl]
      simp only [bind_eq_ok_iff, pure_eq_ok_iff, readAutofill_eq_ok_iff, readName_eq_ok_iff]
      refine ⟨s.autofill, hautofill, s.name, hname, ?_⟩
      rw [← roles_eq_ascending_iff.2 ⟨fun r => by simpa using hmem r, hordered⟩]
  · rename_i hv
    exact iff_of_false nofun fun ⟨_, _, _, _, _, _⟩ => hv _ rfl

theorem asIndex?_field_eq_some_iff {fields : Fields} {name : Wording} {n : Int} :
    (field fields name).asIndex? = some n ↔ find? fields name = some (int n) := by
  rw [asIndex?_eq_some_iff, field_eq_iff (v := int n) nofun]

theorem GrantSpec.ofJson_eq_ok_iff {step : Nat} {v : Json} {g : GrantSpec} :
    ofJson step v = .ok g ↔ Reads v g := by
  unfold ofJson
  split
  · rename_i fields
    constructor
    · intro h
      split at h
      · cases h
      · rename_i slot hslot
        simp only [bind_eq_ok_iff, pure_eq_ok_iff, readPermission_eq_ok_iff] at h
        obtain ⟨permission, hpermission, rfl⟩ := h
        exact .mk (asIndex?_field_eq_some_iff.1 hslot)
          ((field_eq_iff (v := text permission.text) nofun).1 hpermission)
    · rintro ⟨hslot, hpermission⟩
      rw [asIndex?_field_eq_some_iff.2 hslot]
      simp only [bind_eq_ok_iff, pure_eq_ok_iff, readPermission_eq_ok_iff]
      exact ⟨g.permission, (field_eq_iff (v := text g.permission.text) nofun).2 hpermission, rfl⟩
  · rename_i hv
    exact iff_of_false nofun fun ⟨_, _⟩ => hv _ rfl

theorem LinkSpec.ofJson_eq_ok_iff {step : Nat} {v : Json} {l : LinkSpec} :
    ofJson step v = .ok l ↔ Reads v l := by
  unfold ofJson
  split
  · rename_i fields
    constructor
    · intro h
      split at h
      · rename_i target slot htarget hslot
        simp only [bind_eq_ok_iff, pure_eq_ok_iff, readName_eq_ok_iff] at h
        obtain ⟨name, hname, rfl⟩ := h
        exact .mk hname (asIndex?_field_eq_some_iff.1 htarget) (asIndex?_field_eq_some_iff.1 hslot)
      · cases h
    · rintro ⟨hname, htarget, hslot⟩
      rw [asIndex?_field_eq_some_iff.2 htarget, asIndex?_field_eq_some_iff.2 hslot]
      simp only [bind_eq_ok_iff, pure_eq_ok_iff, readName_eq_ok_iff]
      exact ⟨l.name, hname, rfl⟩
  · rename_i hv
    exact iff_of_false nofun fun ⟨_, _, _⟩ => hv _ rfl

theorem StepSpec.ofJson_eq_ok_iff {index : Nat} {v : Json} {s : StepSpec} :
    ofJson index v = .ok s ↔ Reads v s := by
  have hgrant {vs grants} : readEach (fun _ => GrantSpec.ofJson index) 0 vs = .ok grants ↔
      List.Forall₂ GrantSpec.Reads vs grants :=
    readEach_eq_ok_iff fun _ v _ => GrantSpec.ofJson_eq_ok_iff (v := v)
  have hlink {vs links} : readEach (fun _ => LinkSpec.ofJson index) 0 vs = .ok links ↔
      List.Forall₂ LinkSpec.Reads vs links :=
    readEach_eq_ok_iff fun _ v _ => LinkSpec.ofJson_eq_ok_iff (v := v)
  unfold ofJson
  split
  · simp only [bind_eq_ok_iff, pure_eq_ok_iff, readName_eq_ok_iff, readList_eq_ok_iff, hgrant,
      hlink]
    constructor
    · rintro ⟨name, hname, rawGrants, hrawGrants, grants, hgrants, rawLinks, hrawLinks, links,
        hlinks, rfl⟩
      exact .mk hname hrawGrants hgrants rfl hrawLinks hlinks
    · rintro ⟨hname, hrawGrants, hgrants, honce, hrawLinks, hlinks⟩
      exact ⟨s.name, hname, _, hrawGrants, _, hgrants, _, hrawLinks, s.links, hlinks,
        by rw [← honce]⟩
  · rename_i hv
    exact iff_of_false nofun fun ⟨_, _, _, _, _, _⟩ => hv _ rfl

theorem hasItems_iff_of_ne_nil {fields : Fields} {name : Wording} {items : List Json}
    (h : items ≠ []) : HasItems fields name items ↔ find? fields name = some (array items) :=
  or_iff_left fun hnil => h hnil.1

/-- The reader gives what the value says, and refuses a value that says nothing. -/
theorem Description.ofJson_eq_ok_iff {raw : Json} {d : Description} :
    ofJson raw = .ok d ↔ Reads raw d := by
  have hslot {vs slots} : readEach SlotSpec.ofJson 0 vs = .ok slots ↔
      List.Forall₂ SlotSpec.Reads vs slots :=
    readEach_eq_ok_iff fun _ v _ => SlotSpec.ofJson_eq_ok_iff (v := v)
  have hstep {vs steps} : readEach StepSpec.ofJson 0 vs = .ok steps ↔
      List.Forall₂ StepSpec.Reads vs steps :=
    readEach_eq_ok_iff fun _ v _ => StepSpec.ofJson_eq_ok_iff (v := v)
  unfold ofJson
  split
  · rename_i fields
    constructor
    · intro h
      split at h
      · cases h
      · rename_i start hstart
        obtain ⟨rawSteps, hrawSteps, h⟩ := bind_eq_ok_iff.1 h
        split at h
        · cases h
        · rename_i hsome
          have hne : rawSteps ≠ [] := by simpa using hsome
          simp only [bind_eq_ok_iff, pure_eq_ok_iff, readName_eq_ok_iff, readList_eq_ok_iff, hslot,
            hstep] at h hrawSteps
          obtain ⟨name, hname, rawSlots, hrawSlots, slots, hslots, steps, hsteps, rfl⟩ := h
          exact .mk hname (asIndex?_field_eq_some_iff.1 hstart) hrawSlots hslots
            ((hasItems_iff_of_ne_nil hne).1 hrawSteps) hne hsteps
    · rintro ⟨hname, hstart, hrawSlots, hslots, hrawSteps, hne, hsteps⟩
      rename_i rawSlots rawSteps
      have hsome : ¬rawSteps.isEmpty = true := by simpa using hne
      rw [asIndex?_field_eq_some_iff.2 hstart]
      refine bind_eq_ok_iff.2 ⟨rawSteps, readList_eq_ok_iff.2 (Or.inl hrawSteps), ?_⟩
      simp only [if_neg hsome, bind_eq_ok_iff, pure_eq_ok_iff, readName_eq_ok_iff,
        readList_eq_ok_iff, hslot, hstep]
      exact ⟨d.name, hname, rawSlots, hrawSlots, d.slots, hslots, d.steps, hsteps, rfl⟩
  · rename_i hv
    exact iff_of_false nofun fun ⟨_, _, _, _, _, _, _⟩ => hv _ rfl

/-! ### What has been read -/

/-- What reading sees to: names are stripped, roles in order, grants not repeated, and there is a
step. -/
structure Description.Clean (d : Description) : Prop where
  name : d.name.StripsTo d.name
  slot_names : ∀ s ∈ d.slots, s.name.StripsTo s.name
  roles : ∀ s ∈ d.slots, s.roles.Pairwise (· < ·)
  some_step : d.steps ≠ []
  step_names : ∀ s ∈ d.steps, s.name.StripsTo s.name
  grants : ∀ s ∈ d.steps, s.grants.Nodup
  link_names : ∀ s ∈ d.steps, ∀ l ∈ s.links, l.name.StripsTo l.name

theorem exists_of_forall₂ {α β : Type} {R : α → β → Prop} {as : List α} {bs : List β}
    (h : List.Forall₂ R as bs) : ∀ b ∈ bs, ∃ a, R a b := by
  induction h with
  | nil => nofun
  | cons hab _ ih => exact List.forall_mem_cons.2 ⟨⟨_, hab⟩, ih⟩

theorem Json.HasName.again {fields : Fields} {name : Wording} (h : HasName fields name) :
    name.StripsTo name :=
  h.elim fun _ ⟨_, hstrips⟩ => hstrips.again

theorem Description.Reads.clean {raw : Json} {d : Description} (h : Reads raw d) : d.Clean := by
  obtain ⟨hname, -, -, hslots, -, hne, hsteps⟩ := h
  have hslot := exists_of_forall₂ hslots
  have hstep := exists_of_forall₂ hsteps
  refine {
    name := hname.again
    slot_names := fun s hs => ?_, roles := fun s hs => ?_
    some_step := fun hnil => hne (List.forall₂_nil_right_iff.1 (hnil ▸ hsteps))
    step_names := fun s hs => ?_, grants := fun s hs => ?_, link_names := fun s hs l hl => ?_ }
  · obtain ⟨_, ⟨hslotname, -⟩⟩ := hslot s hs
    exact hslotname.again
  · obtain ⟨_, ⟨-, -, -, -, hordered, -⟩⟩ := hslot s hs
    exact hordered
  · obtain ⟨_, ⟨hstepname, -⟩⟩ := hstep s hs
    exact hstepname.again
  · obtain ⟨_, ⟨-, -, -, honce, -, -⟩⟩ := hstep s hs
    rw [honce]
    exact nodup_eraseDups _
  · obtain ⟨_, ⟨-, -, -, -, -, hlinks⟩⟩ := hstep s hs
    obtain ⟨_, ⟨hlinkname, -⟩⟩ := exists_of_forall₂ hlinks l hl
    exact hlinkname.again

end Editorial
