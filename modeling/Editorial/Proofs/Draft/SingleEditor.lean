import Editorial.Proofs.Draft.Grants

/-!
# A single editor

At any time one user at most may edit a draft or propose changes to it (`single_editor`). A step
gives a single grant of that kind, to one slot, and one user sits there (`holder_unique`).
-/

namespace Editorial

/-- A seat is determined by its slot. -/
theorem SeatsOrdered.seat_unique {seats : List Seat} (h : SeatsOrdered seats) {a b : Seat}
    (ha : a ∈ seats) (hb : b ∈ seats) (hslot : a.slot = b.slot) : a = b :=
  List.inj_on_of_nodup_map h.nodup ha hb hslot

/-- Of the exclusive permissions in a draft there is one, and one user has it. -/
theorem Store.Sound.holder_unique {s : Store} (h : s.Sound) {d : Draft} (hd : d ∈ s.drafts)
    {p q : Permission} {user other : Int} (hp : p.isExclusive = true) (hq : q.isExclusive = true)
    (huser : p ∈ s.permissionsFor d user) (hother : q ∈ s.permissionsFor d other) :
    user = other ∧ p = q := by
  obtain ⟨v, step, -, -, -, hwell, hstep, -, hcurrent⟩ := h.exists_version hd
  obtain ⟨step₁, hstep₁, a, ha, rfl, hgrant⟩ := mem_permissionsFor.1 huser
  obtain ⟨step₂, hstep₂, b, hb, rfl, hgrant'⟩ := mem_permissionsFor.1 hother
  obtain rfl : step = step₁ := Option.some.inj (hcurrent.symm.trans hstep₁)
  obtain rfl : step = step₂ := Option.some.inj (hcurrent.symm.trans hstep₂)
  have hsame := hwell.exclusive step hstep _ (Step.grantsTo_eq_true_iff.1 hgrant)
    _ (Step.grantsTo_eq_true_iff.1 hgrant') hp hq
  have hseat := (h.seats_ordered d hd).seat_unique ha hb (congrArg Grant.slot hsame)
  exact ⟨congrArg Seat.user hseat, congrArg Grant.permission hsame⟩

/-- One user at most may edit a draft, one user at most may propose changes to it, and while someone
may edit it nobody may propose changes. -/
theorem single_editor {s : Store} (h : Reachable s) {d : Draft} (hd : d ∈ s.drafts) :
    (∀ user other, .edit ∈ s.permissionsFor d user → .edit ∈ s.permissionsFor d other →
      user = other) ∧
    (∀ user other, .proposeChanges ∈ s.permissionsFor d user →
      .proposeChanges ∈ s.permissionsFor d other → user = other) ∧
    ∀ user other, .edit ∈ s.permissionsFor d user → .proposeChanges ∉ s.permissionsFor d other := by
  have hs := h.sound
  refine ⟨fun user other hu ho => (hs.holder_unique hd rfl rfl hu ho).1,
    fun user other hu ho => (hs.holder_unique hd rfl rfl hu ho).1, fun user other hu ho => ?_⟩
  cases (hs.holder_unique hd rfl rfl hu ho).2

/-- While the author writes, nobody else may edit and nobody may propose changes. -/
theorem editor_of_review :
    ∃ d ∈ Review.store.drafts, .edit ∈ Review.store.permissionsFor d 4 ∧
      (∀ other, .edit ∈ Review.store.permissionsFor d other → other = 4) ∧
      ∀ other, .proposeChanges ∉ Review.store.permissionsFor d other := by
  have hdraft : ∃ d ∈ Review.store.drafts, .edit ∈ Review.store.permissionsFor d 4 := by
    decide +kernel
  obtain ⟨d, hd, hedit⟩ := hdraft
  obtain ⟨heditor, -, hmixed⟩ := single_editor Review.reachable hd
  exact ⟨d, hd, hedit, fun other ho => heditor other 4 ho hedit, fun other => hmixed 4 other hedit⟩

end Editorial
