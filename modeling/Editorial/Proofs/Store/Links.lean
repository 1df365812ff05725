import Editorial.Proofs.Store.Sound

/-!
# Stored links

The links that leave a step are looked for among all stored steps, whatever their version. In a
sound store these are the links of the step itself (`Store.Sound.linksOut_eq`), and at most one of
them leads to a target for a slot (`Store.Sound.linksFor_eq`).
-/

namespace Editorial

namespace Store

/-- The stored links that leave a step. -/
def linksOut (s : Store) (step : Int) : List Link :=
  (s.allSteps.filter fun e => e.id == step).flatMap Step.links

/-- The stored links from a step to a target for a slot. -/
def linksFor (s : Store) (step target slot : Int) : List Link :=
  (s.linksOut step).filter fun l => l.target == target && l.slot == slot

namespace Sound

variable {s : Store}

theorem linksOut_eq (h : s.Sound) {v : Version} {step : Step} (hv : v ∈ s.versions)
    (hstep : step ∈ v.steps) : s.linksOut step.id = step.links := by
  have hmem : step ∈ s.allSteps := List.mem_flatMap.2 ⟨v, hv, hstep⟩
  unfold linksOut
  rw [filter_key_eq_toList Step.id h.step_ids, (find?_key_iff Step.id h.step_ids).2 ⟨hmem, rfl⟩,
    Option.toList_some, List.flatMap_singleton]

theorem linksFor_eq (h : s.Sound) {v : Version} {step : Step} (hv : v ∈ s.versions)
    (hstep : step ∈ v.steps) (target slot : Int) :
    s.linksFor step.id target slot = (step.link? target slot).toList := by
  have hkeys : (step.links.map Link.key).Nodup :=
    (h.described v hv).wellFormed.link_keys.sublist
      ((List.sublist_flatten_of_mem (List.mem_map_of_mem hstep)).map Link.key)
  unfold linksFor Step.link?
  rw [h.linksOut_eq hv hstep]
  exact filter_key_eq_toList Link.key hkeys (target, slot)

/-- A step of a version of a draft is final when no link leaves it. -/
theorem isFinalFor_eq_true_iff (h : s.Sound) {v : Version} {step : Step} {d : Draft}
    (hv : s.version? d.version = some v) (hstep : step ∈ v.steps) :
    s.isFinalFor d step.id = true ↔ s.linksOut step.id = [] := by
  obtain ⟨hmem, -⟩ := h.version?_eq_some_iff.1 hv
  have hfound : v.step? step.id = some step :=
    (find?_key_iff Step.id (h.described v hmem).wellFormed.step_ids).2 ⟨hstep, rfl⟩
  unfold isFinalFor stepIn?
  rw [hv, Option.bind_some, hfound, h.linksOut_eq hmem hstep]
  exact List.isEmpty_iff

/-- What the links of the current step of a draft are. -/
theorem exists_current (h : s.Sound) {d : Draft} (hd : d ∈ s.drafts) :
    ∃ v step, s.version? d.version = some v ∧ v.WellFormed ∧ step ∈ v.steps ∧
      s.stepOf? d = some step ∧
      ∀ target slot, s.linksFor d.step target slot = (step.link? target slot).toList := by
  obtain ⟨v, step, hv, hfound, -, hwell, hstep, hid, hcurrent⟩ := h.exists_version hd
  exact ⟨v, step, hfound, hwell, hstep, hcurrent, fun target slot =>
    hid ▸ h.linksFor_eq hv hstep target slot⟩

end Sound

end Store

end Editorial
