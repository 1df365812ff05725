import Editorial.Proofs.Process.Graph

/-!
# What stored grants allow

At a step a user may do what the stored grants of the step say of the slots in which the user sits
(`Store.Allows`); step and seats leave no choice (`Store.Allows.unique`). In a sound store this is
what is found by going through the current step of a draft: no version but that of the draft has
grants for the step (`Store.Sound.allows_permissionsFor`).
-/

namespace Editorial

theorem Permission.pairwise_all : all.Pairwise fun p q => p.text < q.text := by
  decide

theorem Step.grantsTo_eq_true_iff {step : Step} {slot : Int} {p : Permission} :
    step.grantsTo slot p = true ↔ ⟨slot, p⟩ ∈ step.grants := by
  unfold grantsTo
  rw [List.any_eq_true]
  constructor
  · rintro ⟨⟨slot', p'⟩, hg, he⟩
    simp only [Bool.and_eq_true, beq_iff_eq] at he
    rwa [← he.1, ← he.2]
  · exact fun hg => ⟨_, hg, by simp⟩

namespace Store

/-- These are the permissions that stored grants of a step give to slots in which a user sits, each
once and in the order of their texts. -/
structure Allows (s : Store) (step : Int) (seats : List Seat) (user : Int)
    (may : List Permission) : Prop where
  joined : ∀ p, p ∈ may ↔
    ∃ g, (step, g) ∈ s.grantRows ∧ g.permission = p ∧ ⟨g.slot, user⟩ ∈ seats
  ordered : may.Pairwise fun p q => p.text < q.text

variable {s : Store}

theorem Allows.unique {step user : Int} {seats : List Seat} {may may' : List Permission}
    (h : s.Allows step seats user may) (h' : s.Allows step seats user may') : may = may' := by
  have hnodup {ps : List Permission} (hps : ps.Pairwise fun p q => p.text < q.text) : ps.Nodup := by
    refine hps.imp fun {p q} hlt hsame => ?_
    rw [hsame] at hlt
    exact String.lt_irrefl _ hlt
  have hperm : may.Perm may' :=
    (List.perm_ext_iff_of_nodup (hnodup h.ordered) (hnodup h'.ordered)).2
      fun p => (h.joined p).trans (h'.joined p).symm
  exact hperm.eq_of_pairwise (fun p q _ _ hlt hgt => absurd hlt (String.lt_asymm hgt))
    h.ordered h'.ordered

/-- A draft may be at any step of a stored version. -/
theorem Sound.allows_permissionsFor (h : s.Sound) {d : Draft} {v : Version} (hv : v ∈ s.versions)
    (hversion : v.id = d.version) (hstep : d.step ∈ v.steps.map Step.id) (user : Int) :
    s.Allows d.step d.seats user (s.permissionsFor d user) := by
  obtain ⟨step, hmem, hid⟩ := List.mem_map.1 hstep
  have hsteps := (h.described v hv).wellFormed.step_ids
  have hcurrent : s.stepOf? d = some step := by
    unfold stepOf? stepIn?
    rw [h.version?_eq_some_iff.2 ⟨hv, hversion⟩, Option.bind_some]
    exact (find?_key_iff Step.id hsteps).2 ⟨hmem, hid⟩
  refine ⟨fun p => ?_, ?_⟩
  · rw [mem_permissionsFor]
    constructor
    · rintro ⟨other, hother, ⟨slot, _⟩, hseat, rfl, hgrant⟩
      obtain rfl : step = other := Option.some.inj (hcurrent.symm.trans hother)
      exact ⟨⟨slot, p⟩, mem_rows.2 ⟨v, hv, step, hmem, hid, Step.grantsTo_eq_true_iff.1 hgrant⟩, rfl,
        hseat⟩
    · rintro ⟨g, hrow, rfl, hseat⟩
      obtain ⟨w, hw, other, hother, hotherid, hg⟩ := mem_rows.1 hrow
      -- The step of the draft is in its version and in no other one.
      obtain rfl : v = w := owner_unique h.step_ids hv hw hmem hother (hid.trans hotherid.symm)
      obtain rfl : step = other :=
        List.inj_on_of_nodup_map hsteps hmem hother (hid.trans hotherid.symm)
      exact ⟨step, hcurrent, _, hseat, rfl, Step.grantsTo_eq_true_iff.2 hg⟩
  · unfold permissionsFor
    rw [hcurrent]
    exact Permission.pairwise_all.filter _

end Store

end Editorial
