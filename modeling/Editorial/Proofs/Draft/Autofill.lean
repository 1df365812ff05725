import Editorial.Proofs.Draft.Work
import Editorial.Proofs.Store.Sound

/-!
# What autofill does

Autofill never fails on the drafts of a sound store (`Store.Sound.exists_autofill`): it adds a seat
in some slots that were free, keeps all others, and announces each seat that it adds
(`Change.FilledBy`).
-/

namespace Editorial

/-- What becomes of a change when autofill seats users in some of the given slots. -/
structure Change.FilledBy (s : Store) (c : Change) (slots : List Slot) (c' : Change)
    (filled : List Seat) : Prop where
  draft : c'.draft = { c.draft with seats := c'.draft.seats }
  ordered : SeatsOrdered c'.draft.seats
  seats : ∀ seat, seat ∈ c'.draft.seats ↔ seat ∈ c.draft.seats ∨ seat ∈ filled
  free : ∀ seat ∈ filled, c.draft.occupant? seat.slot = none
  slots : ∀ seat ∈ filled, ∃ slot ∈ slots, slot.id = seat.slot ∧ slot.autofill = true ∧
    seat.user ∈ s.candidates slot c.draft.team
  events : c'.events = c.events ++ filled.flatMap fun seat => c.draft.filled seat.slot seat.user

theorem Change.filledBy_nil (s : Store) {c : Change} (slots : List Slot)
    (hordered : SeatsOrdered c.draft.seats) : c.FilledBy s slots c [] where
  draft := rfl
  ordered := hordered
  seats := by simp
  free := nofun
  slots := nofun
  events := by simp

/-- One user is seated in a free slot first, the others after that. -/
theorem Change.FilledBy.cons {s : Store} {c c' : Change} {slot : Slot} {rest : List Slot}
    {filled : List Seat} {user : Int} (hordered : SeatsOrdered c.draft.seats)
    (hfree : c.draft.occupant? slot.id = none) (hauto : slot.autofill = true)
    (huser : user ∈ s.candidates slot c.draft.team)
    (h : (c.seat slot.id user).FilledBy s rest c' filled) :
    c.FilledBy s (slot :: rest) c' (⟨slot.id, user⟩ :: filled) where
  draft := h.draft
  ordered := h.ordered
  seats seat := by
    have hkept : seat ∈ c.draft.seats → seat.slot ≠ slot.id := fun hseat hs => by
      have hsome : c.draft.occupant? seat.slot = some seat.user :=
        (Draft.occupant?_eq_some_iff hordered).2 hseat
      rw [hs, hfree] at hsome
      cases hsome
    rw [h.seats, List.mem_cons, ← or_assoc]
    refine or_congr_left ((Draft.mem_putSeat hordered).trans ?_)
    rw [or_comm]
    exact or_congr_left ⟨And.left, fun hseat => ⟨hseat, hkept hseat⟩⟩
  free seat hseat := by
    rcases List.mem_cons.1 hseat with rfl | hseat
    · exact hfree
    · have hnone := h.free seat hseat
      have hmoved := Draft.occupant?_seat c.draft slot.id user seat.slot
      by_cases hs : seat.slot = slot.id
      · rw [hs]
        exact hfree
      · rw [if_neg hs] at hmoved
        exact hmoved.symm.trans hnone
  slots seat hseat := by
    rcases List.mem_cons.1 hseat with rfl | hseat
    · exact ⟨slot, List.mem_cons_self, rfl, hauto, huser⟩
    · obtain ⟨other, hother, hrest⟩ := h.slots seat hseat
      exact ⟨other, List.mem_cons_of_mem _ hother, hrest⟩
  events := by
    have hseat : (c.seat slot.id user).events = c.events ++ c.draft.filled slot.id user := by
      unfold seat Draft.seatEvents
      rw [hfree]
    rw [h.events, hseat, List.flatMap_cons, List.append_assoc]
    rfl

/-- More slots may be given than users are seated in. -/
theorem Change.FilledBy.skip {s : Store} {c c' : Change} {slot : Slot} {rest : List Slot}
    {filled : List Seat} (h : c.FilledBy s rest c' filled) : c.FilledBy s (slot :: rest) c' filled :=
  { h with
    slots := fun seat hseat => by
      obtain ⟨other, hother, hrest⟩ := h.slots seat hseat
      exact ⟨other, List.mem_cons_of_mem _ hother, hrest⟩ }

namespace Store

variable {s : Store}

theorem mem_activeSlots {d : Draft} {slot : Slot} (h : slot ∈ s.activeSlots d) :
    (s.slotIn? d.version slot.id).isSome = true := by
  unfold activeSlots at h
  split at h
  · rename_i hv _
    exact (slotIn?_isSome_iff hv).2 (List.mem_map_of_mem (List.mem_filter.1 h).1)
  · cases h

theorem autofillUser?_eq_some {d : Draft} {slot : Slot} {user : Int}
    (h : s.autofillUser? d slot = some user) :
    slot.autofill = true ∧ d.occupant? slot.id = none ∧ user ∈ s.candidates slot d.team := by
  unfold autofillUser? at h
  split at h
  · rename_i hcond
    simp only [Bool.and_eq_true, Option.isNone_iff_eq_none] at hcond
    exact ⟨hcond.1, hcond.2, candidate?_mem (s := s.putDraft d) h⟩
  · cases h

theorem mem_membersOf {team user : Int} :
    user ∈ s.membersOf team ↔ ∃ m ∈ s.members, m.team = team ∧ m.user = user := by
  simp [membersOf, and_assoc]

theorem mem_candidates {slot : Slot} {team user : Int} :
    user ∈ s.candidates slot team ↔
      user ∈ s.membersOf team ∧ slot.admits (s.roleOf? team user) = true :=
  List.mem_filter

/-- Candidates are members, whom the database can hold. -/
theorem storable_of_candidate (hmembers : ∀ m ∈ s.members, isStorable m.user = true) {slot : Slot}
    {team user : Int} (h : user ∈ s.candidates slot team) : isStorable user = true := by
  obtain ⟨m, hm, -, rfl⟩ := mem_membersOf.1 (mem_candidates.1 h).1
  exact hmembers m hm

theorem exists_autofillSlots (hmembers : ∀ m ∈ s.members, isStorable m.user = true) {c : Change}
    (hteam : isStorable c.draft.team = true) (hordered : SeatsOrdered c.draft.seats)
    {slots : List Slot}
    (hslots : ∀ slot ∈ slots, (s.slotIn? c.draft.version slot.id).isSome = true) :
    ∃ c' filled, s.autofillSlots c slots = .ok (c', filled) ∧ c.FilledBy s slots c' filled := by
  induction slots generalizing c with
  | nil => exact ⟨c, [], rfl, Change.filledBy_nil s [] hordered⟩
  | cons slot rest ih =>
      have hrest : ∀ slot ∈ rest, (s.slotIn? c.draft.version slot.id).isSome = true :=
        fun slot hslot => hslots slot (List.mem_cons_of_mem _ hslot)
      unfold autofillSlots
      cases huser : s.autofillUser? c.draft slot with
      | none =>
          obtain ⟨c', filled, hok, hfilled⟩ := ih hteam hordered hrest
          exact ⟨c', filled, hok, hfilled.skip⟩
      | some user =>
          obtain ⟨hauto, hfree, hcandidate⟩ := autofillUser?_eq_some huser
          have hadmits := (mem_candidates.1 hcandidate).2
          have hstorable := storable_of_candidate hmembers hcandidate
          have hseat : s.seatUser c slot user = .ok (c.seat slot.id user) :=
            seatUser_eq_ok_iff.2 ⟨hslots slot List.mem_cons_self,
              requireRole_eq_ok_iff.2 (Or.inr ⟨hstorable, hteam, hadmits⟩), rfl⟩
          obtain ⟨c', filled, hok, hfilled⟩ := ih (c := c.seat slot.id user) hteam
            (Draft.ordered_putSeat _ _ hordered) hrest
          refine ⟨c', ⟨slot.id, user⟩ :: filled, ?_, hfilled.cons hordered hfree hauto hcandidate⟩
          simp only [hseat, hok, bind, Except.bind, pure, Except.pure]

theorem autofillSlots_putDraft {e : Draft} {c : Change} (h : e.module = c.draft.module)
    (slots : List Slot) : (s.putDraft e).autofillSlots c slots = s.autofillSlots c slots := by
  induction slots generalizing c with
  | nil => rfl
  | cons slot rest ih =>
      have huser : (s.putDraft e).autofillUser? c.draft slot = s.autofillUser? c.draft slot := by
        unfold autofillUser?
        rw [putDraft_putDraft h]
      have hseat (user : Int) : (s.putDraft e).seatUser c slot user = s.seatUser c slot user := rfl
      unfold autofillSlots
      rw [huser]
      cases s.autofillUser? c.draft slot with
      | none => exact ih h
      | some user =>
          dsimp only
          rw [hseat]
          cases hok : s.seatUser c slot user with
          | error f => rfl
          | ok c₁ =>
              have hmodule : e.module = c₁.draft.module := by
                rw [(seatUser_eq_ok_iff.1 hok).2.2]
                exact h
              simp only [bind, Except.bind, ih hmodule]

/-- Autofill looks at the drafts of other modules only. -/
theorem autofill_putDraft {e : Draft} {c : Change} (h : e.module = c.draft.module) (enabled : Bool)
    (slots : List Slot) :
    (s.putDraft e).autofill enabled c slots = s.autofill enabled c slots := by
  unfold autofill
  rw [autofillSlots_putDraft h]

/-- Autofill succeeds in slots of the version of a draft, switched off or not. -/
theorem exists_autofill (hmembers : ∀ m ∈ s.members, isStorable m.user = true) (enabled : Bool)
    {c : Change} (hteam : isStorable c.draft.team = true) (hordered : SeatsOrdered c.draft.seats)
    {slots : List Slot}
    (hslots : ∀ slot ∈ slots, (s.slotIn? c.draft.version slot.id).isSome = true) :
    ∃ c' filled, s.autofill enabled c slots = .ok (c', filled) ∧ c.FilledBy s slots c' filled := by
  unfold autofill
  cases enabled with
  | false => exact ⟨c, [], rfl, Change.filledBy_nil s slots hordered⟩
  | true => exact exists_autofillSlots hmembers hteam hordered hslots

/-- Autofill succeeds in slots of the version of a draft of the store. -/
theorem Sound.exists_autofill (h : s.Sound) {d : Draft} (hd : d ∈ s.drafts) (enabled : Bool)
    (step : Int) (slots : List Slot)
    (hslots : ∀ slot ∈ slots, (s.slotIn? d.version slot.id).isSome = true) :
    ∃ c' filled, s.autofill enabled (.start { d with step := step }) slots = .ok (c', filled) ∧
      (Change.start { d with step := step }).FilledBy s slots c' filled := by
  obtain ⟨v, hv, -, -, p, hp, -, hteam⟩ := h.grounds d hd
  exact Store.exists_autofill h.member_user enabled (c := .start { d with step := step })
    (by rw [← h.process_team p hp, hteam]; rfl) (h.seats_ordered d hd) hslots

end Store

theorem Change.FilledBy.storable {s : Store} (h : s.Sound) {c c' : Change} {slots : List Slot}
    {filled : List Seat} (hfilled : c.FilledBy s slots c' filled) :
    ∀ seat ∈ filled, isStorable seat.user = true := by
  intro seat hseat
  obtain ⟨slot, -, -, -, hcandidate⟩ := hfilled.slots seat hseat
  exact Store.storable_of_candidate h.member_user hcandidate

theorem Change.FilledBy.isOversized {s : Store} (h : s.Sound) {c c' : Change} {slots : List Slot}
    {filled : List Seat} (hfilled : c.FilledBy s slots c' filled)
    (hc : c.draft.isOversized = false) : c'.draft.isOversized = false := by
  rw [Draft.isOversized_eq_false_iff] at hc ⊢
  intro seat hseat
  rcases (hfilled.seats seat).1 hseat with hseat | hseat
  · exact hc seat hseat
  · exact hfilled.storable h seat hseat

end Editorial
