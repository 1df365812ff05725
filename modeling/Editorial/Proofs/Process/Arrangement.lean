import Editorial.Proofs.Process.Acceptance
import Mathlib.Data.List.Perm.Basic

/-!
# Descriptions in order

A version keeps the grants of a step by slot and permission and its links by slot and target.
`Description.sorted` is a description with its grants and links in this order. It is as proper as
the description itself (`Description.Proper.sorted`), and sorting it again changes nothing
(`Description.sorted_sorted`).
-/

namespace Editorial

open Ordered

/-- The order of the grants of a step: by slot, and for one slot by the text of the permission. -/
def GrantSpec.le : GrantSpec → GrantSpec → Bool :=
  leFirst GrantSpec.slot fun a b => decide (a.permission.text ≤ b.permission.text)

/-- The order of the links of a step: by slot, and for one slot by target. -/
def LinkSpec.le : LinkSpec → LinkSpec → Bool :=
  leFirst LinkSpec.slot fun a b => decide (a.target ≤ b.target)

/-- A step with its grants and links in order. -/
def StepSpec.sorted (s : StepSpec) : StepSpec :=
  { s with grants := sortBy GrantSpec.le s.grants, links := sortBy LinkSpec.le s.links }

/-- A description with the grants and links of its steps in order. -/
def Description.sorted (d : Description) : Description :=
  { d with steps := d.steps.map StepSpec.sorted }

/-! ### Grants and links in order -/

theorem pairwise_sortBy_grants (grants : List GrantSpec) :
    (sortBy GrantSpec.le grants).Pairwise fun a b => GrantSpec.le a b = true :=
  pairwise_sortBy
    (leFirst_total fun a b => by simpa using String.le_total a.permission.text b.permission.text)
    (leFirst_trans fun a b c hab hbc => by
      simp only [decide_eq_true_eq] at hab hbc ⊢
      exact String.le_trans hab hbc) grants

theorem pairwise_sortBy_links (links : List LinkSpec) :
    (sortBy LinkSpec.le links).Pairwise fun a b => LinkSpec.le a b = true :=
  pairwise_sortBy
    (leFirst_total fun a b => by simpa using Int.le_total a.target b.target)
    (leFirst_trans fun a b c hab hbc => by
      simp only [decide_eq_true_eq] at hab hbc ⊢
      exact Int.le_trans hab hbc) links

namespace StepSpec

theorem sorted_sorted (s : StepSpec) : s.sorted.sorted = s.sorted := by
  unfold sorted
  dsimp only
  rw [sortBy_eq_self (pairwise_sortBy_grants s.grants),
    sortBy_eq_self (pairwise_sortBy_links s.links)]

theorem mem_grants_sorted {s : StepSpec} {g : GrantSpec} : g ∈ s.sorted.grants ↔ g ∈ s.grants :=
  mem_sortBy

theorem mem_links_sorted {s : StepSpec} {l : LinkSpec} : l ∈ s.sorted.links ↔ l ∈ s.links :=
  mem_sortBy

theorem grants_sorted_iff {s : StepSpec} {p : Permission} {slot : Int} :
    s.sorted.Grants p slot ↔ s.Grants p slot :=
  mem_grants_sorted

theorem links_sorted_perm (s : StepSpec) : s.sorted.links.Perm s.links := sortBy_perm _ _

end StepSpec

namespace Description

theorem sorted_sorted (d : Description) : d.sorted.sorted = d.sorted := by
  unfold sorted
  simp only [List.map_map]
  exact congrArg (Description.mk d.name d.start d.slots)
    (List.map_congr_left fun s _ => s.sorted_sorted)

theorem forall_mem_steps_sorted {d : Description} {p : StepSpec → Prop} :
    (∀ s ∈ d.sorted.steps, p s) ↔ ∀ s ∈ d.steps, p s.sorted :=
  List.forall_mem_map

theorem length_steps_sorted (d : Description) : d.sorted.steps.length = d.steps.length :=
  List.length_map _

theorem leads_sorted_iff {d : Description} {i j : Nat} : d.sorted.Leads i j ↔ d.Leads i j := by
  unfold Leads sorted
  simp only [List.getElem?_map, Option.map_eq_some_iff]
  constructor
  · rintro ⟨_, ⟨s, hs, rfl⟩, l, hl, hj⟩
    exact ⟨s, hs, l, StepSpec.mem_links_sorted.1 hl, hj⟩
  · rintro ⟨s, hs, l, hl, hj⟩
    exact ⟨s.sorted, ⟨s, hs, rfl⟩, l, StepSpec.mem_links_sorted.2 hl, hj⟩

theorem links_sorted_perm (d : Description) :
    (d.sorted.steps.flatMap StepSpec.links).Perm (d.steps.flatMap StepSpec.links) := by
  unfold sorted
  dsimp only
  rw [List.flatMap_map]
  exact List.Perm.flatMap_left _ fun s _ => s.links_sorted_perm

/-- Order does not matter to what a description must be like. -/
theorem Proper.sorted {d : Description} (h : d.Proper) : d.sorted.Proper where
  start := by
    rw [length_steps_sorted]
    exact h.start
  grant_slot := forall_mem_steps_sorted.2 fun s hs g hg =>
    h.grant_slot s hs g (StepSpec.mem_grants_sorted.1 hg)
  link_target := forall_mem_steps_sorted.2 fun s hs l hl => by
    rw [length_steps_sorted]
    exact h.link_target s hs l (StepSpec.mem_links_sorted.1 hl)
  link_slot := forall_mem_steps_sorted.2 fun s hs l hl =>
    h.link_slot s hs l (StepSpec.mem_links_sorted.1 hl)
  slot_names := h.slot_names
  step_names := by
    have hnames : d.sorted.steps.map StepSpec.name = d.steps.map StepSpec.name := by
      unfold Description.sorted
      rw [List.map_map]
      rfl
    rw [hnames]
    exact h.step_names
  link_names := forall_mem_steps_sorted.2 fun s hs =>
    (s.links_sorted_perm.map LinkSpec.name).nodup_iff.2 (h.link_names s hs)
  no_loop i hi := h.no_loop i (leads_sorted_iff.1 hi)
  links := (d.links_sorted_perm.map _).nodup_iff.2 h.links
  one_editor := forall_mem_steps_sorted.2 fun s hs a b ha hb =>
    h.one_editor s hs a b (StepSpec.grants_sorted_iff.1 ha) (StepSpec.grants_sorted_iff.1 hb)
  one_proposer := forall_mem_steps_sorted.2 fun s hs a b ha hb =>
    h.one_proposer s hs a b (StepSpec.grants_sorted_iff.1 ha) (StepSpec.grants_sorted_iff.1 hb)
  unmixed := forall_mem_steps_sorted.2 fun s hs a b ha hb =>
    h.unmixed s hs a b (StepSpec.grants_sorted_iff.1 ha) (StepSpec.grants_sorted_iff.1 hb)
  reachable i hi := by
    rw [length_steps_sorted] at hi
    exact Relation.ReflTransGen.mono (fun _ _ => leads_sorted_iff.2) _ _ (h.reachable i hi)
  final := by
    obtain ⟨s, hs, hfinal⟩ := h.final
    refine ⟨s.sorted, List.mem_map_of_mem hs, ?_⟩
    unfold StepSpec.sorted
    rw [hfinal]
    rfl

theorem Clean.sorted {d : Description} (h : d.Clean) : d.sorted.Clean where
  name := h.name
  slot_names := h.slot_names
  roles := h.roles
  some_step := by simpa [Description.sorted] using h.some_step
  step_names := forall_mem_steps_sorted.2 h.step_names
  grants := forall_mem_steps_sorted.2 fun s hs =>
    (sortBy_perm GrantSpec.le s.grants).nodup_iff.2 (h.grants s hs)
  link_names := forall_mem_steps_sorted.2 fun s hs l hl =>
    h.link_names s hs l (StepSpec.mem_links_sorted.1 hl)

/-! ### No two grants or links share a place -/

end Description

/-- The grants of a step ascend by slot and permission, its links by slot and target. -/
structure StepSpec.InOrder (s : StepSpec) : Prop where
  grants : s.grants.Pairwise fun a b =>
    a.slot < b.slot ∨ a.slot = b.slot ∧ a.permission.text < b.permission.text
  links : s.links.Pairwise fun a b => a.slot < b.slot ∨ a.slot = b.slot ∧ a.target < b.target

namespace StepSpec

theorem pairwise_grants_sorted {s : StepSpec} (h : s.grants.Nodup) :
    s.sorted.grants.Pairwise fun a b =>
      a.slot < b.slot ∨ a.slot = b.slot ∧ a.permission.text < b.permission.text := by
  have hnodup : s.sorted.grants.Nodup := (sortBy_perm _ _).nodup_iff.2 h
  refine ((pairwise_sortBy_grants s.grants).and hnodup).imp fun {a b} ⟨hle, hne⟩ => ?_
  refine (leFirst_eq_true_iff.1 hle).imp_right fun ⟨hslot, htext⟩ => ⟨hslot, ?_⟩
  by_contra hlt
  have hsame : a.permission.text = b.permission.text :=
    String.le_antisymm (of_decide_eq_true htext) (String.not_lt.1 hlt)
  cases a
  cases b
  exact hne (GrantSpec.mk.injEq .. ▸ ⟨hslot, Permission.text_injective hsame⟩)

theorem pairwise_links_sorted {s : StepSpec}
    (h : (s.links.map fun l => (l.target, l.slot)).Nodup) :
    s.sorted.links.Pairwise fun a b => a.slot < b.slot ∨ a.slot = b.slot ∧ a.target < b.target := by
  have hnodup : (s.sorted.links.map fun l => (l.target, l.slot)).Nodup :=
    (s.links_sorted_perm.map _).nodup_iff.2 h
  refine ((pairwise_sortBy_links s.links).and (List.pairwise_map.1 hnodup)).imp
    fun {a b} ⟨hle, hne⟩ => ?_
  refine (leFirst_eq_true_iff.1 hle).imp_right fun ⟨hslot, htarget⟩ => ⟨hslot, ?_⟩
  refine Int.lt_iff_le_and_ne.2 ⟨of_decide_eq_true htarget, fun hsame => ?_⟩
  exact hne (Prod.ext hsame hslot)

end StepSpec

namespace Description

/-- There is one way only to bring the grants and links of a proper description in order. -/
theorem inOrder_sorted {d : Description} (hclean : d.Clean) (hproper : d.Proper) :
    ∀ s ∈ d.sorted.steps, s.InOrder := by
  refine forall_mem_steps_sorted.2 fun s hs => ?_
  have hkeys : (s.links.map fun l => (l.target, l.slot)).Nodup :=
    hproper.links.sublist ((List.sublist_flatten_of_mem (List.mem_map_of_mem hs)).map _)
  exact ⟨StepSpec.pairwise_grants_sorted (hclean.grants s hs),
    StepSpec.pairwise_links_sorted hkeys⟩

/-! ### What can be stored -/

theorem hasTornPart_eq_false_iff {d : Description} :
    d.hasTornPart = false ↔
      (∀ s ∈ d.slots, s.name.isTorn = false) ∧ (∀ s ∈ d.steps, s.name.isTorn = false) ∧
        ∀ s ∈ d.steps, ∀ l ∈ s.links, l.name.isTorn = false := by
  unfold hasTornPart
  simp only [Bool.or_eq_false_iff, List.any_eq_false, Bool.not_eq_true]
  exact and_congr_right fun _ =>
    ⟨fun h => ⟨fun s hs => (h s hs).1, fun s hs => (h s hs).2⟩,
      fun ⟨hsteps, hlinks⟩ s hs => ⟨hsteps s hs, hlinks s hs⟩⟩

theorem hasTornPart_sorted {d : Description} (h : d.hasTornPart = false) :
    d.sorted.hasTornPart = false := by
  rw [hasTornPart_eq_false_iff] at h ⊢
  obtain ⟨hslots, hsteps, hlinks⟩ := h
  exact ⟨hslots, forall_mem_steps_sorted.2 hsteps, forall_mem_steps_sorted.2 fun s hs l hl =>
    hlinks s hs l (StepSpec.mem_links_sorted.1 hl)⟩

end Description

end Editorial
