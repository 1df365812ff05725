import Editorial.Proofs.Draft.Autofill
import Editorial.Proofs.Ordered
import Editorial.Proofs.Reachable

/-!
# Whom autofill seats

`Store.Picks` says who is the right one for a slot: of those who may take it by their membership in
the team (`Store.MayTake`), one who has seats in the fewest drafts (`Store.seatedIn`), and of several
of those the one with the least id. There is one at most (`Store.Picks.unique`), and as long as
nobody has two memberships in one team, `Store.candidate?` finds that one
(`Store.candidate?_eq_some_iff`). `Store.Fills` says what it means to fill slots in turn, each with
regard to the seats taken before it; a draft and a list of slots leave no choice
(`Store.Fills.unique`). Autofill does just that in every draft of a reachable store, whatever an
operation has done to the draft before (`autofill_seats_least_busy`).
-/

namespace Editorial

namespace Store

variable {s : Store}

/-! ### Who may take a slot, and who is busy -/

/-- There is a membership of a user in a team, and unless a slot is for all members, it is in a role
that the slot admits. -/
def MayTake (s : Store) (slot : Slot) (team user : Int) : Prop :=
  ∃ m ∈ s.members, m.team = team ∧ m.user = user ∧
    (slot.roles = [] ∨ ∃ role ∈ slot.roles, m.role = some role)

/-- The drafts in which a user has a seat. -/
def seatedIn (s : Store) (user : Int) : List Draft :=
  s.drafts.filter fun d => ∃ seat ∈ d.seats, seat.user = user

/-- The membership that is looked up is the only one. -/
theorem isEligible_iff_mayTake (hkeys : (s.members.map Member.key).Nodup) {slot : Slot}
    {team user : Int} : s.isEligible slot team user = true ↔ s.MayTake slot team user := by
  have hfound {m : Member} :
      s.member? team user = some m ↔ m ∈ s.members ∧ m.key = (team, user) :=
    find?_key_iff Member.key hkeys (k := (team, user))
  rw [isEligible, Bool.and_eq_true, Option.isSome_iff_exists, Slot.admits_eq_true_iff]
  constructor
  · rintro ⟨⟨m, hm⟩, hadmits⟩
    obtain ⟨hmem, hkey⟩ := hfound.1 hm
    obtain ⟨hteam, huser⟩ := Prod.mk.inj hkey
    rw [roleOf?, hm] at hadmits
    exact ⟨m, hmem, hteam, huser, hadmits⟩
  · rintro ⟨m, hmem, hteam, huser, hadmits⟩
    have hm := hfound.2 ⟨hmem, Prod.ext hteam huser⟩
    rw [roleOf?, hm]
    exact ⟨⟨m, rfl⟩, hadmits⟩

theorem load_eq_length_seatedIn (s : Store) (user : Int) :
    s.load user = (s.seatedIn user).length := by
  unfold load seatedIn
  rw [List.countP_eq_length_filter]
  refine congrArg List.length (List.filter_congr fun d _ => ?_)
  rw [Bool.eq_iff_iff, decide_eq_true_iff]
  simp [Draft.isSeated]

/-! ### The least busy member -/

/-- A user may take a slot and is before all others who may: seated in fewer drafts, or in as many
and with a lesser id. -/
structure Picks (s : Store) (slot : Slot) (team user : Int) : Prop where
  eligible : s.MayTake slot team user
  least : ∀ other, s.MayTake slot team other →
    (s.seatedIn user).length < (s.seatedIn other).length ∨
      (s.seatedIn user).length = (s.seatedIn other).length ∧ user ≤ other

theorem Picks.unique {slot : Slot} {team user user' : Int} (h : s.Picks slot team user)
    (h' : s.Picks slot team user') : user = user' := by
  have := h.least user' h'.eligible
  have := h'.least user h.eligible
  omega

theorem mem_candidates_iff_isEligible {slot : Slot} {team user : Int} :
    user ∈ s.candidates slot team ↔ s.isEligible slot team user = true := by
  have hmember : user ∈ s.membersOf team ↔ (s.member? team user).isSome = true := by
    rw [mem_membersOf, member?, List.find?_isSome]
    simp
  rw [mem_candidates, hmember, isEligible, Bool.and_eq_true]

section Candidates

variable (hkeys : (s.members.map Member.key).Nodup)

include hkeys

theorem mem_candidates_iff_mayTake {slot : Slot} {team user : Int} :
    user ∈ s.candidates slot team ↔ s.MayTake slot team user :=
  mem_candidates_iff_isEligible.trans (isEligible_iff_mayTake hkeys)

theorem candidate?_eq_some_iff {slot : Slot} {team user : Int} :
    s.candidate? slot team = some user ↔ s.Picks slot team user := by
  have hleast : s.candidate? slot team = some user ↔ user ∈ s.candidates slot team ∧
      ∀ other ∈ s.candidates slot team, other ≠ user →
        (s.load user < s.load other || (s.load user == s.load other && user < other)) = true :=
    Ordered.least?_eq_some_iff (by simp)
      (by
        intro a b c
        simp only [Bool.or_eq_true, Bool.and_eq_true, decide_eq_true_eq, beq_iff_eq]
        omega)
      (by
        intro a b
        simp only [Bool.or_eq_true, Bool.and_eq_true, decide_eq_true_eq, beq_iff_eq]
        omega)
  simp only [hleast, mem_candidates_iff_mayTake hkeys, load_eq_length_seatedIn, Bool.or_eq_true,
    Bool.and_eq_true, decide_eq_true_eq, beq_iff_eq]
  constructor
  · rintro ⟨heligible, hbefore⟩
    refine ⟨heligible, fun other hother => ?_⟩
    by_cases hne : other = user
    · exact Or.inr ⟨by rw [hne], Int.le_of_eq hne.symm⟩
    · have := hbefore other hother hne
      omega
  · rintro ⟨heligible, hbefore⟩
    refine ⟨heligible, fun other hother hne => ?_⟩
    have := hbefore other hother
    omega

theorem candidate?_eq_none_iff {slot : Slot} {team : Int} :
    s.candidate? slot team = none ↔ ∀ user, ¬s.MayTake slot team user := by
  unfold candidate?
  rw [Ordered.least?_eq_none_iff, List.eq_nil_iff_forall_not_mem]
  simp only [mem_candidates_iff_mayTake hkeys]

end Candidates

/-! ### Slots in turn -/

/-- How slots of a draft are filled in turn. A slot for autofill that is free when its turn comes
gets the member picked for it, who counts as seated from then on; every other slot, and one that
nobody may take, is passed over. -/
inductive Fills (s : Store) : Draft → List Slot → List Seat → Prop where
  | done (d : Draft) : s.Fills d [] []
  | seated {d : Draft} {slot : Slot} {rest : List Slot} {user : Int} {filled : List Seat}
      (auto : slot.autofill = true)
      (free : d.occupant? slot.id = none)
      (picked : (s.putDraft d).Picks slot d.team user)
      (others : s.Fills (d.seat slot.id user) rest filled) :
      s.Fills d (slot :: rest) (⟨slot.id, user⟩ :: filled)
  | passed {d : Draft} {slot : Slot} {rest : List Slot} {filled : List Seat}
      (left : slot.autofill = false ∨ (d.occupant? slot.id).isSome = true ∨
        ∀ user, ¬s.MayTake slot d.team user)
      (others : s.Fills d rest filled) : s.Fills d (slot :: rest) filled

/-- A slot that is passed over is not one for which a member is picked. -/
theorem not_picks_of_left {d : Draft} {slot : Slot} {user : Int} (auto : slot.autofill = true)
    (free : d.occupant? slot.id = none)
    (left : slot.autofill = false ∨ (d.occupant? slot.id).isSome = true ∨
      ∀ user, ¬s.MayTake slot d.team user) :
    ¬(s.putDraft d).Picks slot d.team user := by
  rintro ⟨heligible, -⟩
  rcases left with hauto | hsome | hnone
  · cases auto.symm.trans hauto
  · rw [free] at hsome
    cases hsome
  · exact hnone user heligible

theorem Fills.unique {d : Draft} {slots : List Slot} {filled filled' : List Seat}
    (h : s.Fills d slots filled) (h' : s.Fills d slots filled') : filled = filled' := by
  induction h generalizing filled' with
  | done =>
      cases h'
      rfl
  | seated auto free picked _ ih =>
      cases h' with
      | seated _ _ picked' others' =>
          obtain rfl := picked.unique picked'
          rw [ih others']
      | passed left _ => exact absurd picked (not_picks_of_left auto free left)
  | passed left _ ih =>
      cases h' with
      | seated auto free picked' _ => exact absurd picked' (not_picks_of_left auto free left)
      | passed _ others' => exact ih others'

/-- Seats are added in slots that were free, one in each. -/
theorem Fills.slots {d : Draft} {slots : List Slot} {filled : List Seat}
    (h : s.Fills d slots filled) :
    (∀ seat ∈ filled, d.occupant? seat.slot = none) ∧ (filled.map Seat.slot).Nodup := by
  induction h with
  | done => exact ⟨nofun, List.nodup_nil⟩
  | @seated d slot rest user filled auto free _ _ ih =>
      obtain ⟨hfree, hnodup⟩ := ih
      have hother : ∀ seat ∈ filled, seat.slot ≠ slot.id ∧ d.occupant? seat.slot = none := by
        intro seat hseat
        have hnone := (Draft.occupant?_seat d slot.id user seat.slot).symm.trans (hfree seat hseat)
        split at hnone
        · cases hnone
        · rename_i hne
          exact ⟨hne, hnone⟩
      refine ⟨List.forall_mem_cons.2 ⟨free, fun seat hseat => (hother seat hseat).2⟩, ?_⟩
      refine List.nodup_cons.2 ⟨fun hmem => ?_, hnodup⟩
      obtain ⟨seat, hseat, hslot⟩ := List.mem_map.1 hmem
      exact (hother seat hseat).1 hslot
  | passed _ _ ih => exact ih

/-! ### Autofill -/

section Autofill

variable (hkeys : (s.members.map Member.key).Nodup)

include hkeys

theorem autofillUser?_eq_none {d : Draft} {slot : Slot} (h : s.autofillUser? d slot = none) :
    slot.autofill = false ∨ (d.occupant? slot.id).isSome = true ∨
      ∀ user, ¬s.MayTake slot d.team user := by
  unfold autofillUser? at h
  split at h
  · exact Or.inr (Or.inr ((candidate?_eq_none_iff (s := s.putDraft d) hkeys).1 h))
  · rename_i hcond
    rw [Bool.and_eq_true, not_and_or, Bool.not_eq_true, Option.isNone_iff_eq_none] at hcond
    exact hcond.imp_right fun hsome => Or.inl (Option.isSome_iff_ne_none.2 hsome)

theorem picks_of_autofillUser? {d : Draft} {slot : Slot} {user : Int}
    (h : s.autofillUser? d slot = some user) : (s.putDraft d).Picks slot d.team user := by
  unfold autofillUser? at h
  split at h
  · exact (candidate?_eq_some_iff (s := s.putDraft d) hkeys).1 h
  · cases h

theorem fills_autofillSlots {c c' : Change} {slots : List Slot} {filled : List Seat}
    (h : s.autofillSlots c slots = .ok (c', filled)) : s.Fills c.draft slots filled := by
  induction slots generalizing c filled with
  | nil =>
      cases h
      exact .done _
  | cons slot rest ih =>
      unfold autofillSlots at h
      split at h
      · rename_i hnone
        exact .passed (autofillUser?_eq_none hkeys hnone) (ih h)
      · rename_i user huser
        obtain ⟨c₁, h₁, h⟩ := bind_eq_ok_iff.1 h
        obtain ⟨⟨c₂, filled₂⟩, h₂, h⟩ := bind_eq_ok_iff.1 h
        cases h
        obtain ⟨-, -, rfl⟩ := seatUser_eq_ok_iff.1 h₁
        obtain ⟨auto, free, -⟩ := autofillUser?_eq_some huser
        exact .seated auto free (picks_of_autofillUser? hkeys huser) (ih h₂)

/-- Autofill fills slots in turn unless it is switched off. -/
theorem fills_autofill {enabled : Bool} {c c' : Change} {slots : List Slot} {filled : List Seat}
    (h : s.autofill enabled c slots = .ok (c', filled)) :
    if enabled = true then s.Fills c.draft slots filled else filled = [] := by
  unfold autofill at h
  cases enabled with
  | false =>
      cases h
      rfl
  | true => exact fills_autofillSlots hkeys h

end Autofill

end Store

/-- The announcement that a draft has got a seat. -/
def Draft.fillEvent (d : Draft) (seat : Seat) : Announcement :=
  .ofUsers (.text EventKind.slotFilled.text) (.object (d.slotPayload seat.slot)) [seat.user]

/-- A draft of a store as an operation has left it so far: the draft may have moved, and users may
have come into slots of its version or left them. -/
structure Change.Amends (c : Change) (s : Store) (d : Draft) : Prop where
  draft : c.draft = { d with step := c.draft.step, seats := c.draft.seats }
  fit : s.SeatsFit c.draft
  storable : c.draft.isOversized = false

theorem Change.amends_start {s : Store} (h : s.Sound) {d : Draft} (hd : d ∈ s.drafts) :
    (Change.start d).Amends s d where
  draft := rfl
  fit := h.seatsFit hd
  storable := h.seats_storable d hd

theorem Change.Amends.seats {s : Store} {d : Draft} {c c' : Change} (h : c.Amends s d)
    (hseats : s.Seats c c') (hsize : c'.draft.isOversized = false) : c'.Amends s d where
  draft := by rw [hseats.draft_eq, h.draft]
  fit := hseats.fit h.fit
  storable := hsize

/-- Autofill never fails on a draft of a reachable store, whatever has been done to the draft before
in the same operation. It fills the slots in turn, each with the least busy member who may take it
(`Store.Fills`), and no other way of filling them would do. No seat goes or changes hands; the seats
that are new, the ones it tells of and the ones it announces are the same. -/
theorem autofill_seats_least_busy {s : Store} (h : Reachable s) {d : Draft} (hd : d ∈ s.drafts)
    {c : Change} (hc : c.Amends s d) {slots : List Slot}
    (hslots : ∀ slot ∈ slots, slot ∈ s.slotsOf d) :
    ∃ change filled, s.autofill true c slots = .ok (change, filled) ∧
      (∀ seats, s.Fills c.draft slots seats ↔ seats = filled) ∧
      change.draft = { c.draft with seats := change.draft.seats } ∧
      (∀ seat, seat ∈ change.draft.seats ↔ seat ∈ c.draft.seats ∨ seat ∈ filled) ∧
      (∀ seat ∈ filled, c.draft.occupant? seat.slot = none) ∧ (filled.map Seat.slot).Nodup ∧
      change.events = c.events ++ filled.map c.draft.fillEvent ∧ change.Amends s d := by
  have hs := h.sound
  have hteam : isStorable c.draft.team = true := by
    obtain ⟨v, -, -, -, p, hp, -, hteam⟩ := hs.grounds d hd
    rw [hc.draft, ← hteam]
    exact hs.process_team p hp
  have hpresent : ∀ slot ∈ slots, (s.slotIn? c.draft.version slot.id).isSome = true := by
    obtain ⟨v, -, -, hfound, -⟩ := hs.exists_version hd
    intro slot hslot
    have hmem := hslots slot hslot
    rw [Store.slotsOf, hfound] at hmem
    rw [hc.draft]
    exact (Store.slotIn?_isSome_iff hfound).2 (List.mem_map_of_mem hmem)
  obtain ⟨change, filled, hok, hfilled⟩ :=
    Store.exists_autofillSlots hs.member_user hteam hc.fit.ordered hpresent
  have hfills := Store.fills_autofillSlots hs.member_keys hok
  obtain ⟨hfree, hnodup⟩ := hfills.slots
  refine ⟨change, filled, hok, fun seats => ⟨fun hseats => hseats.unique hfills, ?_⟩,
    hfilled.draft, hfilled.seats, hfree, hnodup, ?_,
    hc.seats (Store.seats_autofillSlots hok) (hfilled.isOversized hs hc.storable)⟩
  · rintro rfl
    exact hfills
  · rw [hfilled.events, List.map_eq_flatMap]
    rfl

/-- While the author of the review writes, autofill in all slots of the version passes over the seat
of the author and seats the editor, the only member there is. -/
theorem editor_chosen_in_review :
    (Reachable Review.store ∧ Review.begun ∈ Review.store.drafts ∧
      (Change.start Review.begun).Amends Review.store Review.begun) ∧
    ∃ change, Review.store.autofill true (.start Review.begun)
        (Review.store.slotsOf Review.begun) = .ok (change, [⟨2, 6⟩]) ∧
      Review.store.Fills Review.begun (Review.store.slotsOf Review.begun) [⟨2, 6⟩] ∧
      change.events = [Review.begun.fillEvent ⟨2, 6⟩] ∧ ⟨1, 4⟩ ∈ change.draft.seats := by
  have hmem : Review.begun ∈ Review.store.drafts :=
    List.mem_of_find?_eq_some Review.draft?_store
  have hstart := Change.amends_start Review.reachable.sound hmem
  obtain ⟨change, filled, hok, hfills, -, hseats, -, -, hevents, -⟩ :=
    autofill_seats_least_busy Review.reachable hmem hstart fun _ hslot => hslot
  have hfilled : filled = [⟨2, 6⟩] := by
    have hseated : ((Review.store.autofill true (.start Review.begun)
        (Review.store.slotsOf Review.begun)).toOption.map Prod.snd) = some [⟨2, 6⟩] := by
      decide +kernel
    rw [hok] at hseated
    exact Option.some.inj hseated
  subst hfilled
  exact ⟨⟨Review.reachable, hmem, hstart⟩, change, hok, (hfills _).2 rfl, hevents,
    (hseats _).2 (Or.inl List.mem_cons_self)⟩

end Editorial
