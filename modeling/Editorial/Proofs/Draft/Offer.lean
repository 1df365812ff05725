import Editorial.Draft.View
import Editorial.Proofs.Draft.Advance
import Editorial.Proofs.Refusal
import Editorial.Proofs.Run

/-!
# The links that users are offered

A draft is shown with the links that the user may follow, found by going through the links of the
current step and the seats of the user (`Store.openLinks`). An advance finds its link the other way
round: it looks up who sits in the slot, and then a link by target and slot (`Store.linkFor`). In a
sound store the two agree (`Store.Sound.filter_openLinks`), since a slot has one seat at most and no
two links of a step share target and slot. So a link is offered at most once, and to those users
whose advance is not turned away for the slot or the link (`offered_iff_not_turned_away`).
-/

namespace Editorial

open Json

/-! ### Reading what is shown -/

namespace Json

/-- The links that a draft is shown with. -/
def offered (shown : Json) : List Json := ((shown.member "step").member "links").items

/-- Whether a link that is shown leads to a target and is for a slot. -/
def leadsTo (target slot : Int) (link : Json) : Bool :=
  (link.member "to").asIndex? == some target && (link.member "slot").asIndex? == some slot

end Json

/-- An advance is turned away because the user is not in the slot or no such link is there. -/
def Failure.isMisstep : Failure → Bool
  | .badUser .. => true
  | .badLink .. => true
  | _ => false

namespace Store

variable {s : Store}

theorem offered_projection {d : Draft} {user : Int} {step : Step} (hstep : s.stepOf? d = some step)
    {shown : Json} (h : s.projection d user = .ok shown) :
    shown.offered = (s.openLinks d user).map Link.toJson := by
  obtain ⟨-, -, hshown⟩ := bind_eq_ok_iff.1 h
  obtain rfl := pure_eq_ok_iff.1 hshown
  change ((s.stepView d user).member "links").items = _
  unfold stepView
  rw [hstep]
  rfl

namespace Sound

/-- Of the links that a user can follow one at most leads to a target for a slot: the one that an
advance finds there, if the user sits in the slot. -/
theorem filter_openLinks (h : s.Sound) {d : Draft} (hd : d ∈ s.drafts) {step : Step}
    (hstep : s.stepOf? d = some step) (user slot target : Int) :
    (s.openLinks d user).filter (fun l => l.target == target && l.slot == slot) =
      if d.occupant? slot = some user then (step.link? target slot).toList else [] := by
  obtain ⟨v, current, hv, -, -, -, hmem, -, hcurrent⟩ := h.exists_version hd
  obtain rfl : current = step := Option.some.inj (hcurrent.symm.trans hstep)
  have hlink := h.linksFor_eq hv hmem target slot
  unfold linksFor at hlink
  rw [h.linksOut_eq hv hmem] at hlink
  have hheld : (d.seats.any fun seat => seat.user == user && seat.slot == slot) = true ↔
      d.occupant? slot = some user := by
    rw [Draft.occupant?_eq_some_iff (h.seats_ordered d hd), List.any_eq_true]
    constructor
    · rintro ⟨⟨_, _⟩, hseat, he⟩
      simp only [Bool.and_eq_true, beq_iff_eq] at he
      obtain ⟨rfl, rfl⟩ := he
      exact hseat
    · intro hseat
      exact ⟨_, hseat, by simp⟩
  unfold openLinks
  rw [hstep]
  dsimp only
  rw [List.filter_filter, ← hlink]
  split
  · rename_i hu
    refine List.filter_congr fun l _ => ?_
    by_cases hl : l.slot = slot
    · rw [hl, hheld.2 hu, Bool.and_true]
    · simp [hl]
  · rename_i hu
    refine List.filter_eq_nil_iff.2 fun l _ hl => hu (hheld.1 ?_)
    simp only [Bool.and_eq_true, beq_iff_eq] at hl
    obtain ⟨⟨-, rfl⟩, hany⟩ := hl
    exact hany

/-- A link is offered as often as an advance finds one. -/
theorem countP_offered (h : s.Sound) {d : Draft} (hd : d ∈ s.drafts) {user : Int} {shown : Json}
    (hshown : s.projection d user = .ok shown) (slot : Int) {target : Int}
    (htarget : isStorable target = true) :
    shown.offered.countP (leadsTo target slot) =
      (s.linkFor d user slot target).toOption.toList.length := by
  obtain ⟨v, step, -, -, -, hstep, -⟩ := h.exists_current hd
  rw [offered_projection hstep hshown, List.countP_map, List.countP_eq_length_filter]
  change ((s.openLinks d user).filter fun l => l.target == target && l.slot == slot).length = _
  rw [h.filter_openLinks hd hstep]
  split
  · rename_i hu
    cases hl : step.link? target slot with
    | none =>
        rw [linkFor_of_no_link htarget hu hstep hl]
        rfl
    | some l =>
        rw [linkFor_eq_ok_iff.2 ⟨hu, htarget, step, hstep, hl⟩]
        rfl
  · rename_i hu
    rw [linkFor_of_elsewhere hu]
    rfl

/-- An advance that finds no link is turned away. -/
theorem isMisstep_of_linkFor (h : s.Sound) {d : Draft} (hd : d ∈ s.drafts) {user slot target : Int}
    (htarget : isStorable target = true) {f : Failure}
    (hlink : s.linkFor d user slot target = .error f) : f.isMisstep = true := by
  obtain ⟨v, step, -, -, -, hstep, -⟩ := h.exists_current hd
  by_cases hu : d.occupant? slot = some user
  · cases hl : step.link? target slot with
    | none =>
        rw [linkFor_of_no_link htarget hu hstep hl] at hlink
        cases hlink
        rfl
    | some l =>
        rw [linkFor_eq_ok_iff.2 ⟨hu, htarget, step, hstep, hl⟩] at hlink
        cases hlink
  · rw [linkFor_of_elsewhere hu] at hlink
    cases hlink
    rfl

end Sound

end Store

/-! ### Advances that are not turned away -/

section Misstep

variable {α : Type} {P : Failure → Prop} {c : Conditions} {s : Store}

/-- An operation fails as its work does, as its commit does, or because of what the work writes. -/
theorem Ends.complete {report : DatabaseError → Failure} {work : Except Failure (Work α)}
    (hwork : OnlyFails P work) (hreport : ∀ e, P (report e))
    (hflaw : ∀ w f, work = .ok w → w.flaw = some f → P f) :
    OnlyFails P (complete c s report work).result := by
  cases work with
  | error f => exact hwork
  | ok w =>
      cases hcommit : c.commitError 0 with
      | some e =>
          simp only [Editorial.complete, hcommit]
          exact hreport e
      | none =>
          cases hf : w.flaw with
          | some f =>
              simp only [Editorial.complete, hcommit, hf]
              exact hflaw w f rfl hf
          | none =>
              simp only [Editorial.complete, hcommit, hf]
              trivial

theorem isMisstep_lockFailure (module : String) (e : DatabaseError) :
    (lockFailure module e).isMisstep = false := by
  cases e with
  | operational text code =>
      unfold lockFailure
      dsimp only
      split <;> rfl
  | _ => rfl

theorem isMisstep_whileLocked {f : Failure} (h : f.isMisstep = false) :
    f.whileLocked.isMisstep = false := by
  cases f with
  | database e => rfl
  | _ => exact h

theorem isMisstep_of_oversizedIf {b : Bool} {f : Failure} (h : oversizedIf b = some f) :
    f.isMisstep = false := by
  cases b with
  | false => cases h
  | true =>
      cases h
      rfl

theorem isMisstep_requireStamp (c : Conditions) :
    OnlyFails (fun f => f.isMisstep = false) c.requireStamp := by
  unfold Conditions.requireStamp
  cases c.now.requireDate with
  | error e => rfl
  | ok _ => trivial

/-- A draft of a sound store can be moved to any step. -/
theorem exists_move (hs : s.Sound) (c : Conditions) {d : Draft} (hd : d ∈ s.drafts) (target : Int) :
    ∃ w, Drafting.move c s d target = .ok w ∧ ∃ large, w.flaw = oversizedIf large := by
  obtain ⟨change, filled, hok, -⟩ := hs.exists_autofill hd c.autofill target
    (s.activeSlots { d with step := target })
    fun slot hslot => Store.mem_activeSlots (d := { d with step := target }) hslot
  exact ⟨_, Drafting.move_eq_ok_iff.2 ⟨change, filled,
    (Store.autofill_putDraft (c := .start { d with step := target }) rfl _ _).trans hok, rfl⟩,
    _, rfl⟩

/-- Whatever else goes wrong, an advance that has found its link is not turned away. -/
theorem isMisstep_advance (hs : s.Sound) (c : Conditions) {d : Draft} (hd : d ∈ s.drafts)
    {user slot target : Int} {l : Link} (hlink : s.linkFor d user slot target = .ok l) :
    OnlyFails (fun f => f.isMisstep = false)
      (Drafting.advance c s d.module user slot target).result := by
  have hfound : s.draft? d.module = some d := hs.draft?_eq_some_iff.2 ⟨hd, rfl⟩
  obtain ⟨moved, hmove, large, hlarge⟩ := exists_move hs c hd l.target
  unfold Drafting.advance onLockedDraft
  split
  · exact isMisstep_lockFailure _ _
  refine .complete (.bind ?_ fun e he => ?_) (fun _ => rfl) fun w f hw hf => ?_
  · rw [Store.draft_eq_ok_iff.2 hfound]
    trivial
  · obtain rfl : d = e := Option.some.inj (hfound.symm.trans (Store.draft_eq_ok_iff.1 he))
    refine Ends.mapError (.bind (by rw [hlink]; trivial) fun l' hl' => ?_) fun _ =>
      isMisstep_whileLocked
    obtain rfl : l = l' := Except.ok.inj (hlink.symm.trans hl')
    exact .bind (isMisstep_requireStamp c) fun _ _ =>
      .ite (fun _ => .guard (fun _ => rfl) fun _ => trivial) fun _ => by rw [hmove]; trivial
  · obtain ⟨e, he, hw⟩ := bind_eq_ok_iff.1 hw
    obtain rfl : d = e := Option.some.inj (hfound.symm.trans (Store.draft_eq_ok_iff.1 he))
    obtain ⟨l', hl', hw⟩ := bind_eq_ok_iff.1 (mapError_eq_ok_iff.1 hw)
    obtain rfl : l = l' := Except.ok.inj (hlink.symm.trans hl')
    obtain ⟨_, -, hw⟩ := bind_eq_ok_iff.1 hw
    split at hw
    · obtain ⟨-, -, rfl⟩ := Drafting.finish_eq_ok_iff.1 hw
      cases hf
    · obtain rfl : moved = w := Except.ok.inj (hmove.symm.trans hw)
      exact isMisstep_of_oversizedIf (hlarge.symm.trans hf)

/-- An advance under the lock of a draft is turned away if it does not find its link. -/
theorem advance_turned_away (hs : s.Sound) (hlock : c.lockError = none) {d : Draft}
    (hd : d ∈ s.drafts) {user slot target : Int} {f : Failure} (hf : f.isMisstep = true)
    (hlink : s.linkFor d user slot target = .error f) :
    (Drafting.advance c s d.module user slot target).result = .error f := by
  have hfound : s.draft? d.module = some d := hs.draft?_eq_some_iff.2 ⟨hd, rfl⟩
  have hsame : f.whileLocked = f := by
    cases f with
    | database e => cases hf
    | _ => rfl
  unfold Drafting.advance
  rw [onLockedDraft_of_error hlock hfound (f := f) (by rw [hlink]; rfl), hsame]
  rfl

end Misstep

/-! ### What is shown and what can be done -/

/-- Of the links that a draft is shown to a user with, one at most leads to a target for a slot, and
there is one exactly when an advance of the user to that target in that slot, made under the lock of
the draft, is turned away neither for the slot nor for the link. -/
theorem offered_iff_not_turned_away {s : Store} (h : Reachable s) {d : Draft} (hd : d ∈ s.drafts)
    (user slot target : Int) (huser : isStorable user = true) (htarget : isStorable target = true) :
    ∃ shown, s.projection d user = .ok shown ∧
      shown.offered.countP (leadsTo target slot) ≤ 1 ∧
      ∀ c : Conditions, c.lockError = none →
        ((∃ link ∈ shown.offered, leadsTo target slot link = true) ↔
          ∀ f, (Drafting.advance c s d.module user slot target).result = .error f →
            f.isMisstep = false) := by
  have hs := h.sound
  obtain ⟨shown, hshown⟩ : ∃ shown, s.projection d user = .ok shown := by
    unfold Store.projection
    rw [Store.requireStorable_of huser]
    exact ⟨_, rfl⟩
  have hcount := hs.countP_offered hd hshown slot htarget
  refine ⟨shown, hshown, ?_, fun c hlock => ?_⟩
  · rw [hcount]
    cases s.linkFor d user slot target <;> simp [Except.toOption]
  rw [← List.countP_pos_iff, hcount]
  cases hlink : s.linkFor d user slot target with
  | ok l =>
      have hgoes := isMisstep_advance hs c hd hlink
      refine iff_of_true Nat.zero_lt_one fun f hf => ?_
      rw [hf] at hgoes
      exact hgoes
  | error f =>
      have hf := hs.isMisstep_of_linkFor hd htarget hlink
      refine iff_of_false (Nat.lt_irrefl 0) fun hnone => ?_
      cases hf.symm.trans (hnone f (advance_turned_away hs hlock hd hf hlink))

/-- In the review the author is offered to submit, once, and is not turned away. -/
theorem offered_submit :
    ∃ shown, Review.store.projection Review.begun 4 = .ok shown ∧
      shown.offered.countP (leadsTo 2 1) ≤ 1 ∧
      ∃ link ∈ shown.offered, leadsTo 2 1 link = true := by
  obtain ⟨shown, hshown, hone, hoffered⟩ := offered_iff_not_turned_away Review.reachable
    (List.mem_of_find?_eq_some Review.draft?_store) 4 1 2 (by decide) (by decide)
  have hgoes :
      (Drafting.advance Review.conditions Review.store "m" 4 1 2).result.toBool = true := by
    decide +kernel
  refine ⟨shown, hshown, hone, (hoffered Review.conditions rfl).2 fun f hf => ?_⟩
  have hf' : (Drafting.advance Review.conditions Review.store "m" 4 1 2).result = .error f := hf
  rw [hf'] at hgoes
  cases hgoes

end Editorial
