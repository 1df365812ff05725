import Editorial.Process.Validation
import Mathlib.Data.List.Nodup

/-!
# What the checks of a description guarantee

Each check of a description finds no defect exactly when a condition holds of the whole description:
every index exists (`referenceDefect?_eq_none_iff`), no link leads to its own step and no two links
share target and slot (`linkDefect?_eq_none_iff`), and a step has at most one exclusive grant
(`isExclusive_of_stepPermissionDefect?`). `Description.Sensible` collects what is known of an
accepted description.
-/

namespace Editorial

open Ordered

namespace LinkSpec

/-- The target and the slot of a link. -/
def key (l : LinkSpec) : Int × Int := (l.target, l.slot)

end LinkSpec

namespace Description

/-! ### References -/

/-- The indices that a step names exist. -/
structure StepRefers (d : Description) (step : StepSpec) : Prop where
  grant : ∀ g ∈ step.grants, isIndex g.slot d.slots.length = true
  target : ∀ l ∈ step.links, isIndex l.target d.steps.length = true
  slot : ∀ l ∈ step.links, isIndex l.slot d.slots.length = true

theorem stepReferenceDefect?_eq_none_iff {d : Description} {step : StepSpec} {index : Nat} :
    d.stepReferenceDefect? step index = none ↔ d.StepRefers step := by
  have hgrant : ∀ g : GrantSpec, (if isIndex g.slot d.slots.length = true then none
      else some (Defect.grantToNoSlot index step.name g.slot)) = none ↔
        isIndex g.slot d.slots.length = true := by
    intro g
    split <;> simp_all
  have hlink : ∀ l : LinkSpec, (if (!isIndex l.target d.steps.length) = true then
        some (Defect.linkToNoStep index l.name l.target)
      else if (!isIndex l.slot d.slots.length) = true then
        some (Defect.linkOfNoSlot index l.name l.slot)
      else none) = none ↔
        isIndex l.target d.steps.length = true ∧ isIndex l.slot d.slots.length = true := by
    intro l
    split
    · simp_all
    · split <;> simp_all
  unfold stepReferenceDefect?
  dsimp only
  rw [Option.orElse_eq_orElse, Option.orElse_eq_or, Option.or_eq_none_iff,
    List.findSome?_eq_none_iff, List.findSome?_eq_none_iff]
  simp only [hgrant, hlink]
  constructor
  · rintro ⟨hg, hl⟩
    exact ⟨hg, fun l h => (hl l h).1, fun l h => (hl l h).2⟩
  · rintro ⟨hg, ht, hs⟩
    exact ⟨hg, fun l h => ⟨ht l h, hs l h⟩⟩

theorem forall_mem_zipIdx_fst {α : Type} {p : α → Prop} {l : List α} :
    (∀ s ∈ l.zipIdx, p s.1) ↔ ∀ a ∈ l, p a := by
  constructor
  · intro h a ha
    obtain ⟨i, hi⟩ := List.mem_iff_getElem?.1 ha
    exact h (a, i) (List.mk_mem_zipIdx_iff_getElem?.2 hi)
  · intro h s hs
    exact h s.1 (List.fst_mem_of_mem_zipIdx hs)

theorem forall_mem_zipIdx_snd {α : Type} {p : Nat → Prop} {l : List α} :
    (∀ s ∈ l.zipIdx, p s.2) ↔ ∀ i < l.length, p i := by
  constructor
  · intro h i hi
    exact h (l[i], i) (List.mk_mem_zipIdx_iff_getElem?.2 (List.getElem?_eq_getElem hi))
  · intro h s hs
    obtain ⟨hlt, -⟩ := List.getElem?_eq_some_iff.1 (List.mem_zipIdx_iff_getElem?.1 hs)
    exact h s.2 hlt

theorem referenceDefect?_eq_none_iff {d : Description} :
    d.referenceDefect? = none ↔
      isIndex d.start d.steps.length = true ∧ ∀ step ∈ d.steps, d.StepRefers step := by
  unfold referenceDefect?
  split
  · rename_i h
    rw [List.findSome?_eq_none_iff]
    simp only [stepReferenceDefect?_eq_none_iff, h, true_and]
    exact forall_mem_zipIdx_fst
  · rename_i h
    simp [h]

/-! ### Links -/

theorem linkDefectAfter?_eq_none_iff {d : Description} {earlier : List (Nat × LinkSpec)}
    {step : Nat} {link : LinkSpec} :
    d.linkDefectAfter? earlier step link = none ↔
      link.target ≠ step ∧ ∀ e ∈ earlier, e.2.key ≠ link.key := by
  unfold linkDefectAfter?
  split
  · rename_i h
    simp [h]
  · rename_i h
    rw [Option.map_eq_none_iff, List.find?_eq_none]
    simp [h, LinkSpec.key]

theorem linkDefectFrom?_eq_none_iff {d : Description} {earlier links : List (Nat × LinkSpec)} :
    d.linkDefectFrom? earlier links = none ↔
      (∀ e ∈ links, e.2.target ≠ e.1) ∧ (links.map fun e => e.2.key).Nodup ∧
        ∀ e ∈ earlier, ∀ e' ∈ links, e.2.key ≠ e'.2.key := by
  induction links generalizing earlier with
  | nil => simp [linkDefectFrom?]
  | cons e links ih =>
      obtain ⟨step, link⟩ := e
      unfold linkDefectFrom?
      rw [Option.orElse_eq_orElse, Option.orElse_eq_or, Option.or_eq_none_iff,
        linkDefectAfter?_eq_none_iff, ih]
      simp only [List.mem_append, List.mem_cons, List.map_cons, List.nodup_cons, List.mem_map]
      constructor
      · rintro ⟨⟨hloop, hearlier⟩, hloops, hnodup, happart⟩
        refine ⟨?_, ⟨?_, hnodup⟩, ?_⟩
        · rintro e (rfl | he)
          · exact hloop
          · exact hloops e he
        · rintro ⟨e, he, hk⟩
          exact happart (step, link) (Or.inr (Or.inl rfl)) e he hk.symm
        · rintro e he e' (rfl | he')
          · exact hearlier e he
          · exact happart e (Or.inl he) e' he'
      · rintro ⟨hloops, ⟨hnew, hnodup⟩, happart⟩
        refine ⟨⟨hloops _ (Or.inl rfl), fun e he => happart e he _ (Or.inl rfl)⟩,
          fun e he => hloops e (Or.inr he), hnodup, ?_⟩
        rintro e (he | rfl | he) e' he'
        · exact happart e he e' (Or.inr he')
        · exact fun hk => hnew ⟨e', he', hk.symm⟩
        · cases he

theorem map_snd_allLinks (d : Description) :
    d.allLinks.map Prod.snd = d.steps.flatMap StepSpec.links := by
  have h : d.steps.zipIdx.flatMap (fun s => s.1.links) =
      (d.steps.zipIdx.map Prod.fst).flatMap StepSpec.links := by
    rw [List.flatMap_map]
  rw [List.zipIdx_map_fst] at h
  unfold allLinks
  rw [List.map_flatMap, ← h]
  simp only [List.map_map, Function.comp_def, List.map_id']

theorem linkDefect?_eq_none_iff {d : Description} :
    d.linkDefect? = none ↔
      (∀ e ∈ d.allLinks, e.2.target ≠ e.1) ∧
        ((d.steps.flatMap StepSpec.links).map LinkSpec.key).Nodup := by
  unfold linkDefect?
  rw [linkDefectFrom?_eq_none_iff, ← map_snd_allLinks, List.map_map]
  simp [Function.comp_def]

/-! ### Exclusive permissions -/

/-- A step has at most one grant of an exclusive permission. -/
def IsExclusive (step : StepSpec) : Prop :=
  ∀ g ∈ step.grants, ∀ g' ∈ step.grants,
    g.permission.isExclusive = true → g'.permission.isExclusive = true → g = g'

theorem eq_of_length_le_one {α : Type} {l : List α} (h : l.length ≤ 1) {a b : α} (ha : a ∈ l)
    (hb : b ∈ l) : a = b := by
  match l, h with
  | [c], _ => rw [List.mem_singleton.1 ha, List.mem_singleton.1 hb]

theorem mem_exclusiveGranted_iff {step : StepSpec} {p : Permission} :
    p ∈ exclusiveGranted step ↔ (∃ g ∈ step.grants, g.permission = p) ∧ p.isExclusive = true := by
  unfold exclusiveGranted
  rw [List.mem_eraseDups, List.mem_filter, List.mem_map]

theorem isExclusive_of_stepPermissionDefect? {step : StepSpec} {index : Nat}
    (h : stepPermissionDefect? step index = none) : IsExclusive step := by
  unfold stepPermissionDefect? at h
  dsimp only at h
  rw [Option.orElse_eq_orElse, Option.orElse_eq_or, Option.or_eq_none_iff,
    List.findSome?_eq_none_iff] at h
  obtain ⟨hshared, hmixed⟩ := h
  intro g hg g' hg' he he'
  have hgranted := mem_exclusiveGranted_iff.2 ⟨⟨g, hg, rfl⟩, he⟩
  have hp : g.permission = g'.permission := by
    refine eq_of_length_le_one ?_ hgranted (mem_exclusiveGranted_iff.2 ⟨⟨g', hg', rfl⟩, he'⟩)
    by_contra hlong
    rw [if_pos (Nat.lt_of_not_le hlong)] at hmixed
    cases hmixed
  have hholders : (step.grants.filter (·.permission == g.permission)).length ≤ 1 := by
    have := hshared _ hgranted
    by_contra hlong
    rw [if_pos (by simpa [holders] using hlong)] at this
    cases this
  exact eq_of_length_le_one hholders (List.mem_filter.2 ⟨hg, by simp⟩)
    (List.mem_filter.2 ⟨hg', by simp [hp]⟩)

/-! ### Accepted descriptions -/

/-- What is known of a description without defect. -/
structure Sensible (d : Description) : Prop where
  start : isIndex d.start d.steps.length = true
  refers : ∀ step ∈ d.steps, d.StepRefers step
  links : ((d.steps.flatMap StepSpec.links).map LinkSpec.key).Nodup
  exclusive : ∀ step ∈ d.steps, IsExclusive step

theorem sensible_of_defect? {d : Description} (h : d.defect? = none) : d.Sensible := by
  unfold defect? at h
  simp only [Option.orElse_eq_orElse, Option.orElse_eq_or, Option.or_eq_none_iff] at h
  obtain ⟨href, -, hlink, hpermission, -⟩ := h
  rw [referenceDefect?_eq_none_iff] at href
  rw [permissionDefect?, List.findSome?_eq_none_iff] at hpermission
  exact {
    start := href.1
    refers := href.2
    links := (linkDefect?_eq_none_iff.1 hlink).2
    exclusive := forall_mem_zipIdx_fst.1 fun s hs =>
      isExclusive_of_stepPermissionDefect? (hpermission s hs) }

theorem sensible_of_validate {raw : Json} {d : Description} (h : validate raw = .ok d) :
    d.Sensible :=
  sensible_of_defect? (validate_eq_ok_iff.1 h).2

end Description

end Editorial
