import Editorial.Draft.Lifecycle
import Editorial.Proofs.Operation
import Editorial.Proofs.Store.Table

/-!
# What seating does to a draft

The seats of a draft are kept in ascending order of their slots, one for each slot. `mem_putSeat`
says which seats there are once a user has come into a slot. `Store.Seats` relates a change to what
it becomes when users are seated one after the other in slots of the version, each admitted by the
role limit; initial assignments and autofill are of that kind (`seats_placeAll`,
`seats_autofill`).
-/

namespace Editorial

/-! ### Seats in order -/

/-- Seats in ascending order of their slots. -/
def SeatsOrdered (seats : List Seat) : Prop := seats.Pairwise fun a b => a.slot < b.slot

theorem SeatsOrdered.nodup {seats : List Seat} (h : SeatsOrdered seats) :
    (seats.map Seat.slot).Nodup :=
  List.pairwise_map.2 (h.imp fun hlt => Int.ne_of_lt hlt)

/-- Seats in order are known by which ones there are. -/
theorem SeatsOrdered.eq_of_mem_iff {seats seats' : List Seat} (h : SeatsOrdered seats)
    (h' : SeatsOrdered seats') (hmem : ∀ seat, seat ∈ seats ↔ seat ∈ seats') : seats = seats' := by
  have hperm : seats.Perm seats' :=
    (List.perm_ext_iff_of_nodup h.nodup.of_map h'.nodup.of_map).2 hmem
  exact hperm.eq_of_pairwise (fun a b _ _ hab hba => absurd hab (Int.lt_asymm hba)) h h'

theorem SeatsOrdered.filter {seats : List Seat} (h : SeatsOrdered seats) (p : Seat → Bool) :
    SeatsOrdered (seats.filter p) :=
  List.Pairwise.filter p h

namespace Draft

theorem mem_putSeat_imp {slot user : Int} {seats : List Seat} {a : Seat}
    (h : a ∈ putSeat slot user seats) : a = ⟨slot, user⟩ ∨ a ∈ seats := by
  induction seats with
  | nil => exact Or.inl (List.mem_singleton.1 h)
  | cons b rest ih =>
      unfold putSeat at h
      split at h
      · rcases List.mem_cons.1 h with h | h
        · exact Or.inl h
        · exact Or.inr (List.mem_cons_of_mem _ h)
      split at h
      · rcases List.mem_cons.1 h with h | h
        · exact Or.inl h
        · exact Or.inr h
      · rcases List.mem_cons.1 h with h | h
        · exact Or.inr (h ▸ List.mem_cons_self)
        · exact (ih h).imp_right (List.mem_cons_of_mem _)

theorem ordered_putSeat (slot user : Int) {seats : List Seat} (h : SeatsOrdered seats) :
    SeatsOrdered (putSeat slot user seats) := by
  induction seats with
  | nil => exact List.pairwise_singleton _ _
  | cons b rest ih =>
      obtain ⟨hb, hrest⟩ := List.pairwise_cons.1 h
      unfold putSeat
      split
      · rename_i he
        exact List.pairwise_cons.2 ⟨fun a ha => he ▸ hb a ha, hrest⟩
      split
      · rename_i hlt
        refine List.pairwise_cons.2 ⟨fun a ha => ?_, h⟩
        rcases List.mem_cons.1 ha with rfl | ha
        · exact hlt
        · exact Int.lt_trans hlt (hb a ha)
      · rename_i hne hle
        refine List.pairwise_cons.2 ⟨fun a ha => ?_, ih hrest⟩
        rcases mem_putSeat_imp ha with rfl | ha
        · simp only
          omega
        · exact hb a ha

theorem mem_putSeat {slot user : Int} {seats : List Seat} (h : SeatsOrdered seats) {a : Seat} :
    a ∈ putSeat slot user seats ↔ a = ⟨slot, user⟩ ∨ (a ∈ seats ∧ a.slot ≠ slot) := by
  induction seats with
  | nil => simp [putSeat]
  | cons b rest ih =>
      obtain ⟨hb, hrest⟩ := List.pairwise_cons.1 h
      unfold putSeat
      split
      · rename_i he
        have hne : a ∈ rest → a.slot ≠ slot := fun ha => by
          have := hb a ha
          omega
        rw [List.mem_cons, List.mem_cons]
        constructor
        · rintro (ha | ha)
          · exact Or.inl ha
          · exact Or.inr ⟨Or.inr ha, hne ha⟩
        · rintro (ha | ⟨rfl | ha, hs⟩)
          · exact Or.inl ha
          · exact absurd he hs
          · exact Or.inr ha
      split
      · rename_i hne hlt
        have hne' : a ∈ b :: rest → a.slot ≠ slot := fun ha => by
          rcases List.mem_cons.1 ha with rfl | ha
          · omega
          · have := hb a ha
            omega
        rw [List.mem_cons]
        exact or_congr_right ⟨fun ha => ⟨ha, hne' ha⟩, fun ha => ha.1⟩
      · rename_i hne _
        rw [List.mem_cons, ih hrest, List.mem_cons]
        constructor
        · rintro (rfl | ha | ha)
          · exact Or.inr ⟨Or.inl rfl, hne⟩
          · exact Or.inl ha
          · exact Or.inr ⟨Or.inr ha.1, ha.2⟩
        · rintro (ha | ⟨ha | ha, hs⟩)
          · exact Or.inr (Or.inl ha)
          · exact Or.inl ha
          · exact Or.inr (Or.inr ⟨ha, hs⟩)

theorem isOversized_eq_false_iff {d : Draft} :
    d.isOversized = false ↔ ∀ seat ∈ d.seats, isStorable seat.user = true := by
  unfold isOversized
  rw [List.any_eq_false]
  simp

theorem isOversized_seat_of_storable {d : Draft} (h : d.isOversized = false) (slot : Int)
    {user : Int} (huser : isStorable user = true) : (d.seat slot user).isOversized = false := by
  refine isOversized_eq_false_iff.2 fun seat hseat => ?_
  rcases mem_putSeat_imp hseat with rfl | hseat
  · exact huser
  · exact isOversized_eq_false_iff.1 h seat hseat

theorem putSeat_ne_nil (slot user : Int) (seats : List Seat) : putSeat slot user seats ≠ [] :=
  List.ne_nil_of_mem
    (List.mem_of_find?_eq_some ((find?_putSeat slot user slot seats).trans (if_pos rfl)))

theorem occupant?_eq_some_iff {d : Draft} (h : SeatsOrdered d.seats) {slot user : Int} :
    d.occupant? slot = some user ↔ ⟨slot, user⟩ ∈ d.seats := by
  unfold occupant?
  rw [Option.map_eq_some_iff]
  constructor
  · rintro ⟨a, ha, rfl⟩
    have hs : a.slot = slot := by simpa using List.find?_some ha
    exact hs ▸ List.mem_of_find?_eq_some ha
  · intro ha
    exact ⟨_, (find?_key_iff Seat.slot h.nodup).2 ⟨ha, rfl⟩, rfl⟩

section SameSeats

variable {d : Draft} {slot user : Int}

/-- A draft is the same when the same users sit in the same slots. -/
theorem eq_of_occupants (hd : SeatsOrdered d.seats) {seats : List Seat}
    (hseats : SeatsOrdered seats)
    (h : ∀ slot, { d with seats }.occupant? slot = d.occupant? slot) : { d with seats } = d := by
  have hmem : ∀ seat, seat ∈ seats ↔ seat ∈ d.seats := fun ⟨slot, user⟩ => by
    rw [← occupant?_eq_some_iff hd, ← h, occupant?_eq_some_iff (d := { d with seats }) hseats]
  rw [hseats.eq_of_mem_iff hd hmem]

theorem seat_of_occupant (hd : SeatsOrdered d.seats) (h : d.occupant? slot = some user) :
    d.seat slot user = d := by
  refine eq_of_occupants hd (ordered_putSeat slot user hd) fun other => ?_
  refine (occupant?_seat d slot user other).trans ?_
  split
  · rename_i hother
    rw [hother, h]
  · rfl

theorem vacate_of_empty (hd : SeatsOrdered d.seats) (h : d.occupant? slot = none) :
    d.vacate slot = d := by
  refine eq_of_occupants hd (hd.filter _) fun other => ?_
  refine (occupant?_vacate d slot other).trans ?_
  split
  · rename_i hother
    rw [hother, h]
  · rfl

theorem seat_vacate (hd : SeatsOrdered d.seats) (slot user : Int) :
    (d.vacate slot).seat slot user = d.seat slot user := by
  refine eq_of_occupants (d := d.seat slot user) (ordered_putSeat slot user hd)
    (ordered_putSeat slot user (hd.filter _)) fun other => ?_
  refine (occupant?_seat (d.vacate slot) slot user other).trans ?_
  rw [occupant?_seat, occupant?_vacate]
  split <;> rfl

end SameSeats

end Draft

/-! ### Looking up slots and roles -/

namespace Store

theorem slotIn_eq_ok_iff {s : Store} {version id : Int} {slot : Slot} :
    s.slotIn version id = .ok slot ↔ isStorable id = true ∧ s.slotIn? version id = some slot := by
  unfold slotIn
  simp only [bind_eq_ok_iff, requireStorable_eq_ok_iff, exists_const]
  refine and_congr_right fun _ => ?_
  cases s.slotIn? version id with
  | none => simp [throw_ne_ok]
  | some slot' => simp [pure_eq_ok_iff]

theorem slotIn?_eq_some {s : Store} {version id : Int} {slot : Slot}
    (h : s.slotIn? version id = some slot) :
    slot.id = id ∧ ∃ v, s.version? version = some v ∧ slot ∈ v.slots := by
  unfold slotIn? at h
  obtain ⟨v, hv, hslot⟩ := Option.bind_eq_some_iff.1 h
  refine ⟨by simpa using List.find?_some hslot, v, hv, List.mem_of_find?_eq_some hslot⟩

theorem slotIn?_isSome_iff {s : Store} {version id : Int} {v : Version}
    (hv : s.version? version = some v) :
    (s.slotIn? version id).isSome = true ↔ id ∈ v.slots.map Slot.id := by
  unfold slotIn? Version.slot?
  rw [hv, Option.bind_some, List.find?_isSome, List.mem_map]
  simp

theorem requireRole_eq_ok_iff {s : Store} {slot : Slot} {team user : Int} {u : Unit} :
    s.requireRole slot team user = .ok u ↔
      slot.roles = [] ∨
        (isStorable user = true ∧ isStorable team = true ∧
          slot.admits (s.roleOf? team user) = true) := by
  unfold requireRole
  cases hr : slot.roles with
  | nil => simp [pure_eq_ok_iff]
  | cons r roles =>
      cases ha : slot.admits (s.roleOf? team user) with
      | true => simp [bind_eq_ok_iff, requireStorable_eq_ok_iff]
      | false => simp [bind_eq_ok_iff, throw_ne_ok]

theorem admits_of_requireRole {s : Store} {slot : Slot} {team user : Int}
    (h : s.requireRole slot team user = .ok ()) : slot.admits (s.roleOf? team user) = true := by
  rcases requireRole_eq_ok_iff.1 h with hopen | ⟨-, -, hadmits⟩
  · exact Slot.admits_eq_true_iff.2 (Or.inl hopen)
  · exact hadmits

/-! ### Seating users one after the other -/

/-- What a change becomes when users are seated in slots of the version that admit them. -/
inductive Seats (s : Store) : Change → Change → Prop where
  | done (c : Change) : s.Seats c c
  | next {c c' : Change} {slot : Slot} {user : Int}
      (present : (s.slotIn? c.draft.version slot.id).isSome = true)
      (admitted : s.requireRole slot c.draft.team user = .ok ())
      (rest : s.Seats (c.seat slot.id user) c') : s.Seats c c'

theorem Seats.trans {s : Store} {c c' c'' : Change} (h₁ : s.Seats c c') (h₂ : s.Seats c' c'') :
    s.Seats c c'' := by
  induction h₁ with
  | done => exact h₂
  | next present admitted _ ih => exact .next present admitted (ih h₂)

/-- Seating does not look at other drafts. -/
theorem Seats.of_putDraft {s : Store} {d : Draft} {c c' : Change} (h : (s.putDraft d).Seats c c') :
    s.Seats c c' := by
  induction h with
  | done => exact .done _
  | next present admitted _ ih => exact .next present admitted ih

/-- The seats of a draft are in order and in slots of its version. -/
structure SeatsFit (s : Store) (d : Draft) : Prop where
  ordered : SeatsOrdered d.seats
  slots : ∀ seat ∈ d.seats, (s.slotIn? d.version seat.slot).isSome = true

theorem SeatsFit.seat {s : Store} {d : Draft} (h : s.SeatsFit d) {slot : Int} (user : Int)
    (present : (s.slotIn? d.version slot).isSome = true) : s.SeatsFit (d.seat slot user) where
  ordered := Draft.ordered_putSeat slot user h.ordered
  slots a ha := by
    rcases Draft.mem_putSeat_imp ha with rfl | ha
    · exact present
    · exact h.slots a ha

theorem SeatsFit.vacate {s : Store} {d : Draft} (h : s.SeatsFit d) (slot : Int) :
    s.SeatsFit (d.vacate slot) where
  ordered := h.ordered.filter _
  slots a ha := h.slots a (List.mem_filter.1 ha).1

/-- Seating changes nothing of a draft but its seats. -/
theorem Seats.draft_eq {s : Store} {c c' : Change} (h : s.Seats c c') :
    c'.draft = { c.draft with seats := c'.draft.seats } := by
  induction h with
  | done => rfl
  | next _ _ _ ih => exact ih

/-- Seating leaves a draft with seats. -/
theorem Seats.ne_nil {s : Store} {c c' : Change} (h : s.Seats c c') (hc : c.draft.seats ≠ []) :
    c'.draft.seats ≠ [] := by
  induction h with
  | done => exact hc
  | next _ _ _ ih => exact ih (Draft.putSeat_ne_nil _ _ _)

theorem Seats.fit {s : Store} {c c' : Change} (h : s.Seats c c') (hc : s.SeatsFit c.draft) :
    s.SeatsFit c'.draft := by
  induction h with
  | done => exact hc
  | next present _ _ ih => exact ih (hc.seat _ present)

theorem seatUser_eq_ok_iff {s : Store} {c c' : Change} {slot : Slot} {user : Int} :
    s.seatUser c slot user = .ok c' ↔
      (s.slotIn? c.draft.version slot.id).isSome = true ∧
        s.requireRole slot c.draft.team user = .ok () ∧ c' = c.seat slot.id user := by
  unfold seatUser
  dsimp only
  simp only [guard_eq_ok_iff, bind_eq_ok_iff, pure_eq_ok_iff, Option.isNone_iff_eq_none,
    ← Option.isSome_iff_ne_none]
  constructor
  · rintro ⟨h₁, ⟨⟩, h₂, rfl⟩
    exact ⟨h₁, h₂, rfl⟩
  · rintro ⟨h₁, h₂, rfl⟩
    exact ⟨h₁, ⟨⟩, h₂, rfl⟩

theorem seats_seatUser {s : Store} {c c' : Change} {slot : Slot} {user : Int}
    (h : s.seatUser c slot user = .ok c') : s.Seats c c' := by
  obtain ⟨present, admitted, rfl⟩ := seatUser_eq_ok_iff.1 h
  exact .next present admitted (.done _)

theorem seats_autofillSlots {s : Store} {c c' : Change} {slots : List Slot} {filled : List Seat}
    (h : s.autofillSlots c slots = .ok (c', filled)) : s.Seats c c' := by
  induction slots generalizing c filled with
  | nil =>
      cases h
      exact .done _
  | cons slot rest ih =>
      unfold autofillSlots at h
      split at h
      · exact ih h
      · obtain ⟨c₁, h₁, h⟩ := bind_eq_ok_iff.1 h
        obtain ⟨⟨c₂, filled₂⟩, h₂, h⟩ := bind_eq_ok_iff.1 h
        cases h
        exact (seats_seatUser h₁).trans (ih h₂)

theorem seats_autofill {s : Store} {enabled : Bool} {c c' : Change} {slots : List Slot}
    {filled : List Seat} (h : s.autofill enabled c slots = .ok (c', filled)) : s.Seats c c' := by
  unfold autofill at h
  split at h
  · exact seats_autofillSlots h
  · cases h
    exact .done _

theorem place_eq_ok_iff {s : Store} {atHand : Option Int} {c c' : Change} {p : Placement}
    {n : Int} :
    s.place atHand c p = .ok (n, c') ↔
      ∃ slot user row, p.slot.whole = .ok slot ∧ p.user.whole = .ok user ∧
        ¬(c.draft.isOversized = true ∧ atHand ≠ some slot) ∧ isStorable slot = true ∧
        s.slotIn? c.draft.version slot = some row ∧
        s.requireRole row c.draft.team user = .ok () ∧ n = slot ∧ c' = c.seat slot user := by
  unfold place
  dsimp only
  simp only [guard_eq_ok_iff, bind_eq_ok_iff, pure_eq_ok_iff, mapError_eq_ok_iff,
    slotIn_eq_ok_iff, seatUser_eq_ok_iff, Bool.and_eq_true, bne_iff_ne, Prod.mk.injEq]
  constructor
  · rintro ⟨slot, hslot, hfit, row, ⟨hstorable, hrow⟩, user, huser, _, ⟨-, hrole, rfl⟩, rfl, rfl⟩
    obtain ⟨rfl, -⟩ := slotIn?_eq_some hrow
    exact ⟨_, user, row, hslot, huser, hfit, hstorable, hrow, hrole, rfl, rfl⟩
  · rintro ⟨slot, user, row, hslot, huser, hfit, hstorable, hrow, hrole, rfl, rfl⟩
    obtain ⟨rfl, -⟩ := slotIn?_eq_some hrow
    exact ⟨_, hslot, hfit, row, ⟨hstorable, hrow⟩, user, huser, _,
      ⟨Option.isSome_iff_exists.2 ⟨row, hrow⟩, hrole, rfl⟩, rfl, rfl⟩

theorem seats_place {s : Store} {atHand : Option Int} {c c' : Change} {p : Placement} {slot : Int}
    (h : s.place atHand c p = .ok (slot, c')) : s.Seats c c' := by
  obtain ⟨_, user, row, -, -, -, -, hrow, hrole, -, rfl⟩ := place_eq_ok_iff.1 h
  obtain ⟨rfl, -⟩ := slotIn?_eq_some hrow
  exact .next (Option.isSome_iff_exists.2 ⟨row, hrow⟩) hrole (.done _)

theorem placeAll_nil_eq_ok_iff {s : Store} {atHand : Option Int} {c c' : Change} :
    s.placeAll atHand c [] = .ok c' ↔ c.draft.isOversized = false ∧ c' = c := by
  unfold placeAll
  cases c.draft.isOversized with
  | true => simp
  | false => simpa using eq_comm

theorem placeAll_cons_eq_ok_iff {s : Store} {atHand : Option Int} {c c' : Change} {p : Placement}
    {rest : List Placement} :
    s.placeAll atHand c (p :: rest) = .ok c' ↔
      ∃ slot c₁, s.place atHand c p = .ok (slot, c₁) ∧ s.placeAll (some slot) c₁ rest = .ok c' := by
  rw [placeAll, bind_eq_ok_iff, Prod.exists]

theorem seats_placeAll {s : Store} {atHand : Option Int} {c c' : Change}
    {placements : List Placement} (h : s.placeAll atHand c placements = .ok c') :
    s.Seats c c' ∧ c'.draft.isOversized = false := by
  induction placements generalizing atHand c with
  | nil =>
      obtain ⟨hsize, rfl⟩ := placeAll_nil_eq_ok_iff.1 h
      exact ⟨.done _, hsize⟩
  | cons p rest ih =>
      obtain ⟨slot, c₁, hp, hrest⟩ := placeAll_cons_eq_ok_iff.1 h
      obtain ⟨hseats, hsize⟩ := ih hrest
      exact ⟨(seats_place hp).trans hseats, hsize⟩

/-- Every placement that has been followed was in order. -/
theorem exists_of_placeAll {s : Store} {atHand : Option Int} {c c' : Change}
    {placements : List Placement} (h : s.placeAll atHand c placements = .ok c') {p : Placement}
    (hp : p ∈ placements) :
    ∃ slot user row, p.slot.whole = .ok slot ∧ p.user.whole = .ok user ∧
      isStorable slot = true ∧ s.slotIn? c.draft.version slot = some row ∧
      s.requireRole row c.draft.team user = .ok () := by
  induction placements generalizing atHand c with
  | nil => cases hp
  | cons q rest ih =>
      obtain ⟨n, c₁, hq, hrest⟩ := placeAll_cons_eq_ok_iff.1 h
      obtain ⟨slot, user, row, hslot, huser, -, hstorable, hrow, hrole, -, rfl⟩ :=
        place_eq_ok_iff.1 hq
      rcases List.mem_cons.1 hp with rfl | hp
      · exact ⟨slot, user, row, hslot, huser, hstorable, hrow, hrole⟩
      · exact ih (c := c.seat slot user) hrest hp

/-- Where all placements for a slot ask for the same user, this user comes to sit. -/
theorem occupant?_placeAll {s : Store} {atHand : Option Int} {c c' : Change}
    {placements : List Placement} (h : s.placeAll atHand c placements = .ok c') {slot user : Int}
    (hsame : ∀ p ∈ placements, p.slot.whole = .ok slot → p.user.whole = .ok user)
    (hplaced : c.draft.occupant? slot = some user ∨ ∃ p ∈ placements, p.slot.whole = .ok slot) :
    c'.draft.occupant? slot = some user := by
  induction placements generalizing atHand c with
  | nil =>
      obtain ⟨-, rfl⟩ := placeAll_nil_eq_ok_iff.1 h
      simpa using hplaced
  | cons q rest ih =>
      obtain ⟨n, c₁, hq, hrest⟩ := placeAll_cons_eq_ok_iff.1 h
      obtain ⟨slot₁, user₁, row, hslot, huser, -, -, -, -, -, rfl⟩ := place_eq_ok_iff.1 hq
      refine ih hrest (fun p hp => hsame p (List.mem_cons_of_mem _ hp)) ?_
      have hseat : (c.seat slot₁ user₁).draft.occupant? slot = _ :=
        Draft.occupant?_seat c.draft slot₁ user₁ slot
      by_cases he : slot = slot₁
      · subst he
        rw [if_pos rfl] at hseat
        have huser' := huser.symm.trans (hsame q List.mem_cons_self hslot)
        exact Or.inl (hseat.trans (congrArg some (Except.ok.inj huser')))
      · rw [if_neg he] at hseat
        refine hplaced.imp hseat.trans fun ⟨p, hp, hps⟩ => ?_
        rcases List.mem_cons.1 hp with rfl | hp
        · exact absurd (Except.ok.inj (hps.symm.trans hslot)) he
        · exact ⟨p, hp, hps⟩

end Store

end Editorial
