import Editorial.Proofs.Process.Reading
import Editorial.Proofs.Refusal

/-!
# Why a value gives no description

The reader stops at the first part that it cannot read, and its failure says which part that is:
the description as a whole, one of its slots or one of its steps (`Description.onlyFails_ofJson`).
Nearly always the part has the wrong shape. The only other thing that can be wrong is what stands
for a permission in a step, and an array or object there stops the reader altogether.
-/

namespace Editorial

open Json Text

/-! ### Permissions as they are written -/

namespace Json

/-- Whether a value is an array or an object. -/
def isContainer : Json → Bool
  | array _ | object _ => true
  | _ => false

end Json

/-- What stands in the grants of a step in place of a permission. -/
def StepSpec.rawPermissions (step : Json) : List Json :=
  (step.member "slots").items.map fun grant => grant.member "permission"

/-- What stands in the grants of a description in place of permissions. -/
def Description.rawPermissions (raw : Json) : List Json :=
  (raw.member "steps").items.flatMap StepSpec.rawPermissions

/-! ### Failures of the reader -/

/-- Whether a part has the wrong shape; otherwise a permission is unknown. -/
def Malformation.isShape : Malformation → Bool
  | unknownPermission _ => false
  | _ => true

/-- A failure says that the part at a place has the wrong shape. -/
def Place.Blamed (place : Place) (f : Failure) : Prop :=
  ∃ cause : Malformation, cause.isShape = true ∧ f = malformedAt place cause

/-- How a value that is no permission is refused. -/
inductive Permission.Fault (place : Place) (v : Json) : Failure → Prop where
  | container (container : v.isContainer = true) : Fault place v (.incomparable v)
  | unknown (unknown : ∀ p : Permission, v ≠ Json.text p.text) :
      Fault place v (malformedAt place (.unknownPermission v))

/-- How the reader of a step fails. -/
def StepSpec.Fault (index : Nat) (step : Json) (f : Failure) : Prop :=
  (Place.step index).Blamed f ∨
    ∃ p ∈ rawPermissions step, Permission.Fault (.step index) p f

namespace Description

/-- Everything that a description needs besides its slots and steps is there. -/
inductive Framed : Json → Prop where
  | mk {fields : Fields} {name : Wording} {start : Int} {rawSlots rawSteps : List Json}
      (name : HasName fields name) (start : find? fields "start" = some (int start))
      (slot_items : HasItems fields "slots" rawSlots)
      (step_items : find? fields "steps" = some (array rawSteps)) (some_step : rawSteps ≠ []) :
      Framed (object fields)

/-- How the reader of a description fails. -/
inductive Fault (raw : Json) : Failure → Prop where
  | top {f : Failure} (unframed : ¬Framed raw) (blamed : Place.top.Blamed f) : Fault raw f
  | slot {i : Nat} {v : Json} {f : Failure} (item : (raw.member "slots").items[i]? = some v)
      (unread : ∀ s, ¬SlotSpec.Reads v s) (blamed : (Place.slot i).Blamed f) : Fault raw f
  | step {i : Nat} {v : Json} {f : Failure} (item : (raw.member "steps").items[i]? = some v)
      (unread : ∀ s, ¬StepSpec.Reads v s) (fault : StepSpec.Fault i v f) : Fault raw f

end Description

/-! ### Reading names and lists -/

theorem onlyFails_readName {place : Place} {element : Named} {v : Json} :
    OnlyFails place.Blamed (readName place element v) := by
  cases v with
  | text w => exact .ite (fun _ => ⟨_, rfl, rfl⟩) fun _ => trivial
  | _ => exact ⟨_, rfl, rfl⟩

theorem onlyFails_readList {place : Place} {list : ListName} {v : Json} :
    OnlyFails place.Blamed (readList place list v) := by
  cases v with
  | null | array => trivial
  | _ => exact ⟨_, rfl, rfl⟩

theorem items_of_readList {place : Place} {list : ListName} {v : Json} {items : List Json}
    (h : readList place list v = .ok items) : items = v.items := by
  cases v with
  | null | array => exact (Except.ok.inj h).symm
  | _ => cases h

theorem onlyFails_readEach {α : Type} {P : Failure → Prop} {read : Nat → Json → Except Failure α}
    {index : Nat} {vs : List Json}
    (h : ∀ i v, vs[i]? = some v → OnlyFails P (read (index + i) v)) :
    OnlyFails P (readEach read index vs) := by
  induction vs generalizing index with
  | nil => trivial
  | cons v vs ih =>
      refine .bind (h 0 v rfl) fun _ _ => .bind (ih fun i w hw => ?_) fun _ _ => trivial
      rw [Nat.add_assoc, Nat.add_comm 1 i]
      exact h (i + 1) w hw

/-! ### Reading slots -/

theorem onlyFails_readAutofill {place : Place} {v : Option Json} :
    OnlyFails place.Blamed (readAutofill place v) := by
  unfold readAutofill
  split
  · trivial
  · trivial
  · exact ⟨_, rfl, rfl⟩

theorem SlotSpec.onlyFails_ofJson {index : Nat} {v : Json} :
    OnlyFails (Place.slot index).Blamed (ofJson index v) := by
  cases v with
  | object fields =>
      refine .bind onlyFails_readList fun items _ => ?_
      split
      · exact ⟨_, rfl, rfl⟩
      · exact .bind onlyFails_readAutofill fun _ _ => .bind onlyFails_readName fun _ _ => trivial
  | _ => exact ⟨_, rfl, rfl⟩

/-! ### Reading steps -/

theorem onlyFails_readPermission {place : Place} {v : Json} :
    OnlyFails (Permission.Fault place v) (readPermission place v) := by
  have hunknown (hfail : ∀ p, readPermission place v ≠ .ok p) (p : Permission) :
      v ≠ text p.text := fun h => hfail p (readPermission_eq_ok_iff.2 h)
  unfold readPermission at hunknown ⊢
  split
  · exact .container rfl
  · exact .container rfl
  · split
    · trivial
    · rename_i hs
      exact .unknown (hunknown fun p => by simp [hs])
  · rename_i hwhole
    exact .unknown fun p h => hwhole _ h

theorem GrantSpec.onlyFails_ofJson {step : Nat} {v : Json} :
    OnlyFails (fun f => (Place.step step).Blamed f ∨
      Permission.Fault (.step step) (v.member "permission") f) (ofJson step v) := by
  cases v with
  | object fields =>
      unfold ofJson
      dsimp only
      split
      · exact Or.inl ⟨_, rfl, rfl⟩
      · exact .bind (onlyFails_readPermission.imp fun _ _ => Or.inr) fun _ _ => trivial
  | _ => exact Or.inl ⟨_, rfl, rfl⟩

theorem LinkSpec.onlyFails_ofJson {step : Nat} {v : Json} :
    OnlyFails (Place.step step).Blamed (ofJson step v) := by
  cases v with
  | object fields =>
      unfold ofJson
      dsimp only
      split
      · exact .bind onlyFails_readName fun _ _ => trivial
      · exact ⟨_, rfl, rfl⟩
  | _ => exact ⟨_, rfl, rfl⟩

theorem StepSpec.onlyFails_ofJson {index : Nat} {v : Json} :
    OnlyFails (Fault index v) (ofJson index v) := by
  have hblamed {α : Type} {x : Except Failure α} (h : OnlyFails (Place.step index).Blamed x) :
      OnlyFails (Fault index v) x := h.imp fun _ _ => Or.inl
  cases v with
  | object fields =>
      refine .bind (hblamed onlyFails_readName) fun _ _ =>
        .bind (hblamed onlyFails_readList) fun grants hgrants => ?_
      refine .bind (onlyFails_readEach fun i grant hgrant => ?_) fun _ _ =>
        .bind (hblamed onlyFails_readList) fun _ _ =>
          .bind (onlyFails_readEach fun _ _ _ => hblamed LinkSpec.onlyFails_ofJson)
            fun _ _ => trivial
      obtain rfl := items_of_readList hgrants
      exact GrantSpec.onlyFails_ofJson.imp fun _ _ =>
        .imp_right fun h => ⟨_, List.mem_map_of_mem (List.mem_of_getElem? hgrant), h⟩
  | _ => exact Or.inl ⟨_, rfl, rfl⟩

/-! ### Reading descriptions -/

/-- A failure of the reader says which part cannot be read. -/
theorem Description.onlyFails_ofJson {raw : Json} : OnlyFails (Fault raw) (ofJson raw) := by
  have htop {α : Type} {x : Except Failure α} (h : OnlyFails Place.top.Blamed x)
      (hframed : (∀ a, x ≠ .ok a) → ¬Framed raw) : OnlyFails (Fault raw) x :=
    h.imp fun hfail _ => .top (hframed hfail)
  cases raw with
  | object fields =>
      unfold ofJson
      dsimp only
      split
      · rename_i hstart
        refine .top ?_ ⟨_, rfl, rfl⟩
        rintro ⟨-, hint, -, -, -⟩
        cases hstart.symm.trans (asIndex?_field_eq_some_iff.2 hint)
      · refine .bind (htop onlyFails_readList ?_) fun steps hsteps => .ite (fun hnone => ?_)
          fun _ => .bind (htop onlyFails_readName ?_) fun _ _ =>
            .bind (htop onlyFails_readList ?_) fun slots hslots =>
              .bind (onlyFails_readEach fun i v hv => ?_) fun _ _ =>
                .bind (onlyFails_readEach fun i v hv => ?_) fun _ _ => trivial
        · rintro hfail ⟨-, -, -, hitems, -⟩
          exact hfail _ (readList_eq_ok_iff.2 (Or.inl hitems))
        · refine .top ?_ ⟨_, rfl, rfl⟩
          rintro ⟨-, -, -, hitems, hsome⟩
          cases (readList_eq_ok_iff.2 (Or.inl hitems)).symm.trans hsteps
          exact hsome (List.isEmpty_iff.1 hnone)
        · rintro hfail ⟨hname, -, -, -, -⟩
          exact hfail _ (readName_eq_ok_iff.2 hname)
        · rintro hfail ⟨-, -, hitems, -, -⟩
          exact hfail _ (readList_eq_ok_iff.2 hitems)
        · obtain rfl := items_of_readList hslots
          rw [Nat.zero_add]
          exact SlotSpec.onlyFails_ofJson.imp fun hfail _ =>
            .slot hv fun s hs => hfail s (SlotSpec.ofJson_eq_ok_iff.2 hs)
        · obtain rfl := items_of_readList hsteps
          rw [Nat.zero_add]
          exact StepSpec.onlyFails_ofJson.imp fun hfail _ =>
            .step hv fun s hs => hfail s (StepSpec.ofJson_eq_ok_iff.2 hs)
  | _ => exact .top nofun ⟨_, rfl, rfl⟩

end Editorial
