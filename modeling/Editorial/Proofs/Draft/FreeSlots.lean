import Editorial.Proofs.Draft.Choice
import Editorial.Proofs.Draft.Refusal
import Editorial.Proofs.Draft.Visibility
import Editorial.Proofs.Process.Graph
import Editorial.Proofs.Run

/-!
# Free slots

Which slots take part in a step, who may take them and which of them are taken is found out several
times over: when free slots are listed, when a draft is opened for reading and when a slot is
claimed. All agree on the drafts of a sound store. A slot takes part in the current step of a draft
if a stored grant says so (`Store.Sound.mem_activeSlots_iff`): no grant leads from the step of one
version to the slot of another one, so that the slot is one of the draft's version, which a claim
asks for. A claim is decided by eligibility and occupancy (`Drafting.claim_succeeds_iff`), and a
slot that has been claimed is listed no more (`Drafting.not_lists_of_claim`). Together these say
that the free slots that are listed are those that can be claimed (`free_slots_are_claimable`).
-/

namespace Editorial

namespace Store

/-- A stored grant gives a slot something to do in the current step of a draft. -/
def TakesPart (s : Store) (d : Draft) (slot : Slot) : Prop :=
  slot ∈ s.allSlots ∧ ∃ g, (d.step, g) ∈ s.grantRows ∧ g.slot = slot.id

/-- A slot of a draft is on the list of the free slots that a user could take. -/
def Lists (s : Store) (user : Int) (d : Draft) (slot : Slot) : Prop :=
  ∃ free, Drafting.freeSlots s user = .ok free ∧ (d, slot) ∈ free

variable {s : Store}

/-! ### Slots of the current step -/

theorem Sound.mem_activeSlots_iff (h : s.Sound) {d : Draft} (hd : d ∈ s.drafts) {slot : Slot} :
    slot ∈ s.activeSlots d ↔ s.TakesPart d slot := by
  obtain ⟨v, step, hv, hfound, -, hwell, hstep, hid, hcurrent⟩ := h.exists_version hd
  have hactive : slot ∈ s.activeSlots d ↔
      slot ∈ v.slots ∧ ∃ g ∈ step.grants, g.slot = slot.id := by
    simp [activeSlots, hfound, hcurrent, Version.activeSlots, Step.isActive]
  rw [hactive]
  constructor
  · rintro ⟨hslot, g, hg, hgslot⟩
    exact ⟨List.mem_flatMap.2 ⟨v, hv, hslot⟩, g, mem_rows.2 ⟨v, hv, step, hstep, hid, hg⟩, hgslot⟩
  · rintro ⟨hslot, g, hrow, hgslot⟩
    obtain ⟨w, hw, other, hother, hotherid, hg⟩ := mem_rows.1 hrow
    -- The grant belongs to the version of the draft, since the step does.
    obtain rfl : v = w := owner_unique h.step_ids hv hw hstep hother (hid.trans hotherid.symm)
    obtain rfl : step = other :=
      List.inj_on_of_nodup_map hwell.step_ids hstep hother (hid.trans hotherid.symm)
    -- And so does the slot, since the grant does.
    obtain ⟨u, hu, hslot⟩ := List.mem_flatMap.1 hslot
    obtain ⟨own, hown, hownid⟩ := List.mem_map.1 (hwell.grant_slot step hstep g hg)
    obtain rfl : v = u := owner_unique h.slot_ids hv hu hown hslot (hownid.trans hgslot)
    exact ⟨hslot, g, hg, hgslot⟩

/-! ### The list -/

theorem isEligible_iff {slot : Slot} {team user : Int} :
    s.isEligible slot team user = true ↔
      user ∈ s.membersOf team ∧ slot.admits (s.roleOf? team user) = true := by
  rw [← mem_candidates_iff_isEligible, mem_candidates]

theorem mem_teamsOf {team user : Int} : team ∈ s.teamsOf user ↔ user ∈ s.membersOf team := by
  rw [mem_membersOf]
  simp [teamsOf, and_comm, and_assoc]

theorem Sound.storable_member (h : s.Sound) {team user : Int} (hmember : user ∈ s.membersOf team) :
    isStorable user = true := by
  obtain ⟨m, hm, -, rfl⟩ := mem_membersOf.1 hmember
  exact h.member_user m hm

theorem mem_of_lists {user : Int} {d : Draft} {slot : Slot} (h : s.Lists user d slot) :
    d ∈ s.drafts ∧ slot ∈ s.freeSlots d user := by
  obtain ⟨free, hfree, hmem⟩ := h
  obtain ⟨-, -, hfree⟩ := bind_eq_ok_iff.1 hfree
  obtain rfl := pure_eq_ok_iff.1 hfree
  obtain ⟨e, he, hslot⟩ := List.mem_flatMap.1 hmem
  obtain ⟨_, hslot, hpair⟩ := List.mem_map.1 hslot
  cases hpair
  exact ⟨(mem_draftsOfTeams.1 he).1, hslot⟩

/-- Nothing is lost by looking at the drafts of the user's teams only, since others are not
eligible, nor by refusing users whom the database cannot hold. -/
theorem Sound.lists_iff (h : s.Sound) {user : Int} {d : Draft} {slot : Slot} :
    s.Lists user d slot ↔ d ∈ s.drafts ∧ slot ∈ s.freeSlots d user := by
  refine ⟨mem_of_lists, fun ⟨hd, hslot⟩ => ?_⟩
  obtain ⟨hmember, -⟩ := isEligible_iff.1 (mem_freeSlots.1 hslot).2.2
  exact ⟨_, bind_eq_ok_iff.2 ⟨(), requireStorable_eq_ok_iff.2 (h.storable_member hmember), rfl⟩,
    List.mem_flatMap.2 ⟨d, mem_draftsOfTeams.2 ⟨hd, mem_teamsOf.2 hmember⟩,
      List.mem_map_of_mem hslot⟩⟩

end Store

namespace Drafting

variable {c : Conditions} {s : Store}

/-! ### Claims -/

/-- A claim succeeds for a slot of the draft's version if the user may take it and nobody else is
there. -/
theorem claim_succeeds_iff (hs : s.Sound) (hlock : c.lockError = none)
    (hcommit : c.commitError 0 = none) {d : Draft} (hd : d ∈ s.drafts) {slot user : Int} :
    (∃ d', (claim c s d.module slot user).result = .ok d') ↔
      isStorable slot = true ∧ ∃ row, s.slotIn? d.version slot = some row ∧
        s.isEligible row d.team user = true ∧
        ∀ other, d.occupant? slot = some other → other = user := by
  have hfound : s.draft? d.module = some d := hs.draft?_eq_some_iff.2 ⟨hd, rfl⟩
  constructor
  · rintro ⟨d', hd'⟩
    rcases claim_cases c s d.module slot user with ⟨f, hf⟩ | ⟨e, row, w, -, he, hslot, hrow,
      hmember, hfree, hrole, -⟩
    · rw [hf] at hd'
      cases hd'
    · obtain rfl : d = e := Option.some.inj (hfound.symm.trans he)
      obtain ⟨rfl, -⟩ := Store.slotIn?_eq_some hrow
      have hadmits := Store.admits_of_requireRole hrole
      exact ⟨hslot, row, hrow, Store.isEligible_iff.2 ⟨hmember, hadmits⟩, hfree⟩
  · rintro ⟨hslot, row, hrow, heligible, hfree⟩
    obtain ⟨hmember, hadmits⟩ := Store.isEligible_iff.1 heligible
    obtain ⟨rfl, -⟩ := Store.slotIn?_eq_some hrow
    have huser := hs.storable_member hmember
    have hrole : s.requireRole row d.team user = .ok () :=
      Store.requireRole_eq_ok_iff.2 (Or.inr ⟨huser, team_storable hs hfound, hadmits⟩)
    have hsmall : (d.seat row.id user).isOversized = false :=
      Draft.isOversized_seat_of_storable (hs.seats_storable d hd) row.id huser
    have hclaim : claim c s d.module row.id user =
        (((Change.start d).seat row.id user).work s (d.seat row.id user)).outcome c := by
      refine onLockedDraft_of_commits hlock hfound ?_ ⟨hcommit, oversizedIf_eq_none_iff.2 hsmall⟩
      dsimp only
      simp only [bind_eq_ok_iff, pure_eq_ok_iff, guard_eq_ok_iff, unless_eq_ok_iff,
        Store.slotIn_eq_ok_iff, Store.seatUser_eq_ok_iff]
      refine ⟨row, ⟨hslot, hrow⟩, by simpa using hmember, ?_, _,
        ⟨Option.isSome_iff_exists.2 ⟨row, hrow⟩, hrole, rfl⟩, rfl⟩
      cases ho : d.occupant? row.id with
      | none => simp
      | some other => simp [hfree other ho]
    exact ⟨_, congrArg Outcome.result hclaim⟩

/-- A slot that has been claimed is on nobody's list any more. -/
theorem not_lists_of_claim {d d' : Draft} (hd : s.draft? d.module = some d) {slot user : Int}
    (hd' : (claim c s d.module slot user).result = .ok d') {other : Int} {e : Draft} {row : Slot}
    (hmodule : e.module = d.module) (hrow : row.id = slot) :
    ¬(claim c s d.module slot user).store.Lists other e row := by
  intro hlists
  rcases claim_cases c s d.module slot user with ⟨f, hf⟩ | ⟨d₁, seated, w, -, hd₁, -, hseated, -, -,
    -, rfl, -, ho⟩
  · rw [hf] at hd'
    cases hd'
  obtain rfl : d = d₁ := Option.some.inj (hd.symm.trans hd₁)
  obtain ⟨rfl, -⟩ := Store.slotIn?_eq_some hseated
  obtain ⟨he, hfree⟩ := Store.mem_of_lists hlists
  have hput : e ∈ (s.putDraft (d.seat seated.id user)).drafts := by
    obtain ⟨events, hstore⟩ := (((Change.start d).seat seated.id user).work s
      (d.seat seated.id user)).extends_outcome c
    rw [ho, hstore] at he
    exact he
  obtain ⟨old, -, hold⟩ := List.mem_map.1 hput
  split at hold
  · -- The draft on the list is the one in which the claim has seated the user.
    subst hold
    have hempty := (Store.mem_freeSlots.1 hfree).2.1
    rw [hrow, Draft.occupant?_seat, if_pos rfl] at hempty
    cases hempty
  · rename_i hne
    subst hold
    exact hne hmodule

end Drafting

/-! ### What is listed and what can be claimed -/

/-- The free slots that are listed for a user are those that take part in the current step of a
draft, that nobody holds and that the user can claim, as long as nothing else fails; a claim that
succeeds takes the slot off everybody's list; and a user who is no manager may read the drafts in
which the user is seated and those of which the list holds a slot. -/
theorem free_slots_are_claimable {s : Store} (h : Reachable s) {c : Conditions}
    (hlock : c.lockError = none) (hcommit : c.commitError 0 = none) {d : Draft} (hd : d ∈ s.drafts)
    (user : Int) :
    (∀ slot : Slot, isStorable slot.id = true →
      (s.Lists user d slot ↔ s.TakesPart d slot ∧ d.occupant? slot.id = none ∧
        ∃ d', (Drafting.claim c s d.module slot.id user).result = .ok d')) ∧
    (∀ slot : Slot, (∃ d', (Drafting.claim c s d.module slot.id user).result = .ok d') →
      ∀ other e row, e.module = d.module → row.id = slot.id →
        ¬(Drafting.claim c s d.module slot.id user).store.Lists other e row) ∧
    (s.canAccess d user false = true ↔ d.isSeated user = true ∨ ∃ slot, s.Lists user d slot) := by
  have hs := h.sound
  refine ⟨fun slot hslot => ?_, fun slot ⟨d', hd'⟩ other e row hmodule hrow => ?_, ?_⟩
  · rw [hs.lists_iff, Store.mem_freeSlots, ← hs.mem_activeSlots_iff hd,
      Drafting.claim_succeeds_iff hs hlock hcommit hd]
    constructor
    · rintro ⟨-, hactive, hfree, heligible⟩
      refine ⟨hactive, hfree, hslot, slot, hs.slotIn?_of_mem_activeSlots hactive, heligible, ?_⟩
      intro other hother
      cases hfree.symm.trans hother
    · rintro ⟨hactive, hfree, -, row, hrow, heligible, -⟩
      obtain rfl : slot = row :=
        Option.some.inj ((hs.slotIn?_of_mem_activeSlots hactive).symm.trans hrow)
      exact ⟨hd, hactive, hfree, heligible⟩
  · exact Drafting.not_lists_of_claim (hs.draft?_eq_some_iff.2 ⟨hd, rfl⟩) hd' hmodule hrow
  · have hsome : (!(s.freeSlots d user).isEmpty) = true ↔ ∃ slot, s.Lists user d slot := by
      rw [Bool.not_eq_true', List.isEmpty_eq_false_iff_exists_mem]
      exact exists_congr fun slot => by rw [hs.lists_iff, and_iff_right hd]
    rw [← hsome]
    simp [Store.canAccess]

/-- The store once the editor has been taken out of the draft under review. -/
def Review.vacated : Store := reviewing.after ⟨conditions, .draft (.unassign "m" 2)⟩

/-- In the review, an editor who has been taken out is listed the slot and may come back, after
which the slot is listed for nobody. -/
theorem editor_comes_back :
    let d : Draft := { Review.begun with step := 2 }
    let slot : Slot := ⟨2, "Editor", [7], true⟩
    let o := Drafting.claim Review.conditions Review.vacated "m" 2 6
    Review.vacated.Lists 6 d slot ∧ Review.vacated.canAccess d 6 false = true ∧
      ∀ other, ¬o.store.Lists other d slot := by
  intro d slot o
  obtain ⟨hlists, htaken, haccess⟩ := free_slots_are_claimable
    ((Review.reachable_reviewing.after _ : Reachable Review.vacated)) (c := Review.conditions) rfl
    rfl (d := d) (by decide +kernel) 6
  have hclaim : ∃ d', o.result = .ok d' := exists_ok_of_toBool (by decide +kernel)
  have hfree : Review.vacated.Lists 6 d slot := (hlists slot (by decide)).2
    ⟨⟨by decide +kernel, ⟨2, .proposeChanges⟩, by decide +kernel, rfl⟩, by decide +kernel, hclaim⟩
  exact ⟨hfree, haccess.2 (Or.inr ⟨slot, hfree⟩),
    fun other => htaken slot hclaim other d slot rfl rfl⟩

end Editorial
