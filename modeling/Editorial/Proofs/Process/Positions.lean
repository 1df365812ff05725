import Editorial.Proofs.Process.Arrangement
import Editorial.Proofs.Process.Numbering
import Editorial.Proofs.Reachable

/-!
# Back to positions

Numbering the parts of a description and going back to positions gives the description with the
grants and links of its steps in order (`Version.description_ofDescription`). Ids are given out in
the order of the parts, so a part that was at a position is found there again
(`idxOf_idsFrom`), and the orders by id are the orders by position.
-/

namespace Editorial

open Ordered Text Description

/-! ### Ids and positions -/

theorem idxOf_idsFrom {first : Int} {count k : Nat} (h : k < count) :
    (idsFrom first count).idxOf (first + k) = k := by
  induction count generalizing first k with
  | zero => omega
  | succ count ih =>
      cases k with
      | zero => simp [idsFrom]
      | succ k =>
          have hne : first ≠ first + (k + 1 : Nat) := by omega
          have hshift : first + (k + 1 : Nat) = first + 1 + k := by omega
          rw [idsFrom, List.idxOf_cons_ne _ hne, hshift, ih (by omega)]

/-- The position of an id that was given to a position. -/
theorem idxOf_idsFrom_of_isIndex {first n : Int} {count : Nat} (h : 0 ≤ n ∧ n < count) :
    ((idsFrom first count).idxOf (first + n) : Int) = n := by
  obtain ⟨k, rfl⟩ := Int.eq_ofNat_of_zero_le h.1
  exact congrArg Int.ofNat (idxOf_idsFrom (by omega))

/-! ### Names -/

theorem whole_shown {w : Wording} (h : w.isTorn = false) : Wording.whole w.shown = w := by
  cases w with
  | whole s => rfl
  | torn ps => cases h

/-! ### Orders -/

theorem Permission.rank_le_iff {p q : Permission} : p.rank ≤ q.rank ↔ p.text ≤ q.text := by
  cases p <;> cases q <;> decide +kernel

/-! ### Parts of a version -/

namespace Version

variable {id process : Int} {created : Instant} {first : FirstIds} {d : Description}

theorem slotIndex_ofDescription {n : Int} (h : 0 ≤ n ∧ n < d.slots.length) :
    (ofDescription id process created first d).slotIndex (first.slot + n) = n := by
  unfold slotIndex
  rw [ofDescription, map_id_numberSlots]
  exact idxOf_idsFrom_of_isIndex h

theorem stepIndex_ofDescription {n : Int} (h : 0 ≤ n ∧ n < d.steps.length) :
    (ofDescription id process created first d).stepIndex (first.step + n) = n := by
  unfold stepIndex
  rw [ofDescription, map_id_numberSteps]
  exact idxOf_idsFrom_of_isIndex h

/-- A grant of a version by position. -/
def grantSpec (v : Version) (g : Grant) : GrantSpec := ⟨v.slotIndex g.slot, g.permission⟩

/-- A link of a version by position. -/
def linkSpec (v : Version) (l : Link) : LinkSpec :=
  ⟨l.name, v.stepIndex l.target, v.slotIndex l.slot⟩

theorem map_grantSpec_sorted {grants : List GrantSpec}
    (h : ∀ g ∈ grants, 0 ≤ g.slot ∧ g.slot < d.slots.length) :
    (sortBy Grant.le (numberGrants first.slot grants)).map
        (ofDescription id process created first d).grantSpec =
      sortBy GrantSpec.le grants := by
  set v := ofDescription id process created first d
  have hback : ∀ g ∈ grants, v.grantSpec ⟨first.slot + g.slot, g.permission⟩ = g := by
    intro g hg
    unfold grantSpec
    rw [slotIndex_ofDescription (h g hg)]
  rw [map_sortBy GrantSpec.le]
  · congr 1
    unfold numberGrants
    rw [List.map_map]
    exact (List.map_congr_left hback).trans (List.map_id _)
  · intro a ha b hb
    obtain ⟨g, hg, rfl⟩ := List.mem_map.1 ha
    obtain ⟨g', hg', rfl⟩ := List.mem_map.1 hb
    rw [hback g hg, hback g' hg', Bool.eq_iff_iff]
    simp only [Grant.le, GrantSpec.le, leFirst, Bool.or_eq_true, Bool.and_eq_true, beq_iff_eq,
      decide_eq_true_eq, Permission.rank_le_iff, Int.add_lt_add_iff_left,
      Int.add_right_inj]

theorem mem_numberLinks {firstSlot firstStep link : Int} {links : List LinkSpec} {l : Link}
    (h : l ∈ numberLinks firstSlot firstStep link links) :
    ∃ spec ∈ links, l.target = firstStep + spec.target ∧ l.slot = firstSlot + spec.slot := by
  induction links generalizing link with
  | nil => cases h
  | cons spec links ih =>
      rcases List.mem_cons.1 h with rfl | h
      · exact ⟨spec, List.mem_cons_self, rfl, rfl⟩
      · obtain ⟨spec', hspec, hrest⟩ := ih h
        exact ⟨spec', List.mem_cons_of_mem _ hspec, hrest⟩

theorem map_linkSpec_numberLinks {link : Int} {links : List LinkSpec}
    (hnames : ∀ l ∈ links, l.name.isTorn = false)
    (htargets : ∀ l ∈ links, 0 ≤ l.target ∧ l.target < d.steps.length)
    (hslots : ∀ l ∈ links, 0 ≤ l.slot ∧ l.slot < d.slots.length) :
    (numberLinks first.slot first.step link links).map
        (ofDescription id process created first d).linkSpec = links := by
  induction links generalizing link with
  | nil => rfl
  | cons l links ih =>
      rw [List.forall_mem_cons] at hnames htargets hslots
      rw [numberLinks, List.map_cons, ih hnames.2 htargets.2 hslots.2]
      unfold linkSpec
      rw [stepIndex_ofDescription htargets.1, slotIndex_ofDescription hslots.1,
        whole_shown hnames.1]

theorem map_linkSpec_sorted {link : Int} {links : List LinkSpec}
    (hnames : ∀ l ∈ links, l.name.isTorn = false)
    (htargets : ∀ l ∈ links, 0 ≤ l.target ∧ l.target < d.steps.length)
    (hslots : ∀ l ∈ links, 0 ≤ l.slot ∧ l.slot < d.slots.length) :
    (sortBy Link.le (numberLinks first.slot first.step link links)).map
        (ofDescription id process created first d).linkSpec =
      sortBy LinkSpec.le links := by
  rw [map_sortBy LinkSpec.le]
  · rw [map_linkSpec_numberLinks hnames htargets hslots]
  · intro a ha b hb
    obtain ⟨l, hl, hatarget, haslot⟩ := mem_numberLinks ha
    obtain ⟨l', hl', hbtarget, hbslot⟩ := mem_numberLinks hb
    unfold linkSpec
    rw [hatarget, hbtarget, haslot, hbslot, stepIndex_ofDescription (htargets l hl),
      stepIndex_ofDescription (htargets l' hl'), slotIndex_ofDescription (hslots l hl),
      slotIndex_ofDescription (hslots l' hl'), Bool.eq_iff_iff]
    simp only [Link.le, LinkSpec.le, leFirst, hatarget, hbtarget, haslot, hbslot, Bool.or_eq_true,
      Bool.and_eq_true, beq_iff_eq, decide_eq_true_eq]
    omega

/-! ### Whole versions -/

theorem map_slotSpec_numberSlots {slot : Int} {slots : List SlotSpec}
    (h : ∀ s ∈ slots, s.name.isTorn = false) :
    (numberSlots slot slots).map (fun s => (⟨s.name, s.roles, s.autofill⟩ : SlotSpec)) = slots := by
  induction slots generalizing slot with
  | nil => rfl
  | cons s slots ih =>
      rw [List.forall_mem_cons] at h
      rw [numberSlots, List.map_cons, ih h.2, whole_shown h.1]

theorem map_stepSpec_numberSteps (hproper : d.Proper) (hwhole : d.hasTornPart = false)
    {step link : Int} {steps : List StepSpec} (hsteps : steps ⊆ d.steps) :
    (numberSteps first.slot first.step step link steps).map
        (ofDescription id process created first d).stepSpec =
      steps.map StepSpec.sorted := by
  obtain ⟨-, hstepnames, hlinknames⟩ := hasTornPart_eq_false_iff.1 hwhole
  induction steps generalizing step link with
  | nil => rfl
  | cons s steps ih =>
      obtain ⟨hs, hsteps⟩ := List.cons_subset.1 hsteps
      rw [numberSteps, List.map_cons, List.map_cons, ih hsteps]
      congr 1
      unfold stepSpec StepSpec.sorted
      dsimp only
      rw [whole_shown (hstepnames s hs)]
      congr 1
      · exact map_grantSpec_sorted (hproper.grant_slot s hs)
      · exact map_linkSpec_sorted (hlinknames s hs) (hproper.link_target s hs)
          (hproper.link_slot s hs)

/-- Numbered and read back by position, a description has its grants and links in order. -/
theorem description_ofDescription (hproper : d.Proper) (hwhole : d.hasTornPart = false)
    {name : String} (hname : d.name = name) :
    (ofDescription id process created first d).description name = d.sorted := by
  unfold description Description.sorted
  rw [hname]
  congr 1
  · exact stepIndex_ofDescription hproper.start
  · exact map_slotSpec_numberSlots (hasTornPart_eq_false_iff.1 hwhole).1
  · exact map_stepSpec_numberSteps hproper hwhole (List.Subset.refl _)

end Version

end Editorial
