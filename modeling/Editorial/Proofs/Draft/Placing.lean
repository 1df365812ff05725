import Editorial.Proofs.Event.Indifference
import Editorial.Proofs.Ordered.Arrange
import Mathlib.Data.List.Perm.Basic
import Mathlib.Data.Set.List

/-!
# Placing users in a new draft

Placements that ask for seats in different slots are examined in ascending order of the slots,
whatever order they are given in (`Placement.exists_inOrder`). A placement can be followed if the
version has the slot and its role limit admits the user (`Store.Seatable`); otherwise there is one
reason why it cannot (`Store.Misplaced`). Placements that can all be followed give just the seats
that they ask for (`Store.placeAll_of_seatable`), and the first one that cannot be followed is what
the whole fails with (`Store.placeAll_of_misplaced`).
-/

namespace Editorial

open Number

/-- The database can hold the slot and the user of a seat. -/
def Seat.Storable (seat : Seat) : Prop :=
  isStorable seat.slot = true ∧ isStorable seat.user = true

/-! ### The order of placements -/

namespace Placement

/-- The whole number that a placement names its slot by. -/
def number (p : Placement) : Int := p.slot.whole.toOption.getD 0

theorem ofSeat_injective : Function.Injective ofSeat := by
  rintro ⟨slot, user⟩ ⟨slot', user'⟩ h
  cases h
  rfl

theorem before_ofSeat (a b : Seat) :
    before (ofSeat a).slot (ofSeat b).slot = .ok (decide (a.slot < b.slot)) := by
  simp [ofSeat, before, Json.size?, Json.Size.below]

/-- Distinct slots leave one order. -/
theorem exists_inOrder {seats : List Seat} (h : (seats.map Seat.slot).Nodup) :
    ∃ ordered, ordered.Perm seats ∧ SeatsOrdered ordered ∧
      inOrder (seats.map ofSeat) = .ok (ordered.map ofSeat) := by
  have hcompares : Ordered.Compares (fun a b : Placement => before a.slot b.slot)
      (fun p => ∃ seat, ofSeat seat = p) number := by
    rintro _ _ ⟨a, rfl⟩ ⟨b, rfl⟩
    exact before_ofSeat a b
  obtain ⟨placements, hok, hperm, hsorted⟩ := Ordered.arrange_of_compares hcompares
    (l := seats.map ofSeat) fun p hp => (List.mem_map.1 hp).imp fun _ hseat => hseat.2
  obtain ⟨ordered, rfl⟩ : placements ∈ Set.range (List.map ofSeat) := by
    rw [Set.range_list_map]
    exact fun p hp => (List.mem_map.1 (hperm.mem_iff.1 hp)).imp fun _ hseat => hseat.2
  have hperm : ordered.Perm seats := (List.map_perm_map_iff ofSeat_injective).1 hperm
  refine ⟨ordered, hperm, ?_, hok⟩
  have hdistinct : ordered.Pairwise fun a b => a.slot ≠ b.slot :=
    List.pairwise_map.1 ((hperm.map Seat.slot).nodup_iff.2 h)
  rw [List.pairwise_map] at hsorted
  refine (hsorted.and hdistinct).imp fun {a b} ⟨hle, hne⟩ => ?_
  have hle : a.slot ≤ b.slot := hle
  omega

end Placement

namespace Draft

/-- A user who comes into a slot behind all others that are taken. -/
theorem putSeat_behind {slot user : Int} {seats : List Seat}
    (h : ∀ seat ∈ seats, seat.slot < slot) : putSeat slot user seats = seats ++ [⟨slot, user⟩] := by
  induction seats with
  | nil => rfl
  | cons a rest ih =>
      obtain ⟨ha, hrest⟩ := List.forall_mem_cons.1 h
      unfold putSeat
      rw [if_neg (by omega), if_neg (by omega), ih hrest]
      rfl

end Draft

namespace Change

/-- Users come into slots one after the other. -/
def seatAll (change : Change) (seats : List Seat) : Change :=
  seats.foldl (fun change seat => change.seat seat.slot seat.user) change

theorem draft_seatAll {change : Change} {seats : List Seat}
    (h : SeatsOrdered (change.draft.seats ++ seats)) :
    (change.seatAll seats).draft = { change.draft with seats := change.draft.seats ++ seats } := by
  induction seats generalizing change with
  | nil => rw [List.append_nil]; rfl
  | cons seat rest ih =>
      have hbehind : ∀ a ∈ change.draft.seats, a.slot < seat.slot := fun a ha =>
        (List.pairwise_append.1 h).2.2 a ha seat List.mem_cons_self
      have hseats : (change.seat seat.slot seat.user).draft.seats = change.draft.seats ++ [seat] :=
        Draft.putSeat_behind hbehind
      have hall : (change.seat seat.slot seat.user).draft.seats ++ rest =
          change.draft.seats ++ seat :: rest := by
        rw [hseats, List.append_assoc]
        rfl
      refine (ih (hall ▸ h)).trans ?_
      rw [hall]
      rfl

theorem Storable.seatAll {change : Change} (h : change.Storable) {seats : List Seat}
    (hseats : ∀ seat ∈ seats, seat.Storable) : (change.seatAll seats).Storable := by
  induction seats generalizing change with
  | nil => exact h
  | cons seat rest ih =>
      obtain ⟨hseat, hrest⟩ := List.forall_mem_cons.1 hseats
      exact ih (h.seat seat.slot hseat.2) hrest

end Change

namespace Store

/-! ### What can be followed -/

/-- A user may be placed in a slot of a version: the version has the slot, and unless the slot has
no role limit the user holds one of its roles in the team. -/
def Seatable (s : Store) (team : Int) (v : Version) (seat : Seat) : Prop :=
  ∃ row ∈ v.slots, row.id = seat.slot ∧
    (row.roles = [] ∨ ∃ role ∈ row.roles, s.roleOf? team seat.user = some role)

/-- Why a user may not be placed in a slot of a version, with the failure that says so. -/
inductive Misplaced (s : Store) (team : Int) (v : Version) (seat : Seat) : Failure → Prop where
  | noSlot (missing : ∀ row ∈ v.slots, row.id ≠ seat.slot) :
      Misplaced s team v seat (.notFound .slot (integerText seat.slot))
  | badRole {row : Slot} (present : row ∈ v.slots) (asked : row.id = seat.slot)
      (limited : row.roles ≠ [])
      (refused : ∀ role ∈ row.roles, s.roleOf? team seat.user ≠ some role) :
      Misplaced s team v seat (.badRole seat.user row.name)

variable {s : Store} {team : Int} {v : Version} {seat : Seat}

theorem exists_misplaced (h : ¬s.Seatable team v seat) : ∃ f, s.Misplaced team v seat f := by
  by_cases hslot : ∃ row ∈ v.slots, row.id = seat.slot
  · obtain ⟨row, hrow, hid⟩ := hslot
    refine ⟨_, .badRole hrow hid (fun hroles => ?_) fun role hrole hheld => ?_⟩
    · exact h ⟨row, hrow, hid, Or.inl hroles⟩
    · exact h ⟨row, hrow, hid, Or.inr ⟨role, hrole, hheld⟩⟩
  · push Not at hslot
    exact ⟨_, .noSlot hslot⟩

theorem requireRole_of_refused {row : Slot} {user : Int} (hteam : isStorable team = true)
    (huser : isStorable user = true) (limited : row.roles ≠ [])
    (refused : ∀ role ∈ row.roles, s.roleOf? team user ≠ some role) :
    s.requireRole row team user = .error (.badRole user row.name) := by
  have hlimited : row.roles.isEmpty = false := by simpa using limited
  have hadmits : row.admits (s.roleOf? team user) = false := by
    unfold Slot.admits
    rw [hlimited]
    cases hrole : s.roleOf? team user with
    | none => rfl
    | some role => simpa using fun hmem => refused role hmem hrole
  unfold requireRole
  simp only [hlimited, hadmits, requireStorable_of huser, requireStorable_of hteam]
  rfl

/-! ### Following placements -/

/-- What a change has to be for users to be placed in slots of a version. -/
structure Hosts (s : Store) (team : Int) (v : Version) (change : Change) : Prop where
  version : s.version? change.draft.version = some v
  team : change.draft.team = team
  small : change.draft.isOversized = false

variable {change : Change} {atHand : Option Int}

section Place

variable (hchange : s.Hosts team v change)

include hchange

theorem Hosts.seated (hseat : seat.Storable) :
    s.Hosts team v (change.seat seat.slot seat.user) where
  version := hchange.version
  team := hchange.team
  small := Draft.isOversized_seat_of_storable hchange.small seat.slot hseat.2

theorem slotIn_of_missing (hslot : isStorable seat.slot = true)
    (missing : ∀ row ∈ v.slots, row.id ≠ seat.slot) :
    s.slotIn change.draft.version seat.slot = .error (.notFound .slot (integerText seat.slot)) := by
  have hnone : s.slotIn? change.draft.version seat.slot = none := by
    unfold slotIn?
    rw [hchange.version, Option.bind_some]
    exact List.find?_eq_none.2 fun row hrow => by simpa using missing row hrow
  unfold slotIn
  rw [requireStorable_of hslot, hnone]
  rfl

variable (hids : (v.slots.map Slot.id).Nodup)

include hids

theorem slotIn?_of_mem {row : Slot} (hrow : row ∈ v.slots) :
    s.slotIn? change.draft.version row.id = some row := by
  unfold slotIn?
  rw [hchange.version, Option.bind_some]
  exact (find?_key_iff Slot.id hids).2 ⟨hrow, rfl⟩

variable (hteam : isStorable team = true)

include hteam

theorem place_of_seatable (hseat : seat.Storable) (h : s.Seatable team v seat) :
    s.place atHand change (.ofSeat seat) = .ok (seat.slot, change.seat seat.slot seat.user) := by
  obtain ⟨row, hrow, hid, hroles⟩ := h
  refine place_eq_ok_iff.2 ⟨seat.slot, seat.user, row, rfl, rfl, ?_, hseat.1,
    hid ▸ slotIn?_of_mem hchange hids hrow, ?_, rfl, rfl⟩
  · rw [hchange.small]
    exact fun h => Bool.false_ne_true h.1
  · rw [hchange.team]
    exact requireRole_eq_ok_iff.2
      (Or.inr ⟨hseat.2, hteam, Slot.admits_eq_true_iff.2 hroles⟩)

theorem place_of_misplaced (hseat : seat.Storable) {f : Failure} (h : s.Misplaced team v seat f) :
    s.place atHand change (.ofSeat seat) = .error f := by
  unfold place
  simp only [Placement.ofSeat, Json.whole, Except.mapError, bind, Except.bind, hchange.small,
    Bool.false_and]
  cases h with
  | noSlot missing =>
      rw [slotIn_of_missing hchange hseat.1 missing]
      rfl
  | @badRole row present asked limited refused =>
      have hfound := slotIn?_of_mem hchange hids present
      have hslot : s.slotIn change.draft.version seat.slot = .ok row :=
        slotIn_eq_ok_iff.2 ⟨hseat.1, asked ▸ hfound⟩
      have hrole := requireRole_of_refused hteam hseat.2 limited refused
      rw [← hchange.team] at hrole
      unfold seatUser
      simp only [hslot, hfound, hrole, bind, Except.bind]
      rfl

theorem placeAll_cons_of_seatable {rest : List Placement} (hseat : seat.Storable)
    (h : s.Seatable team v seat) :
    s.placeAll atHand change (.ofSeat seat :: rest) =
      s.placeAll (some seat.slot) (change.seat seat.slot seat.user) rest := by
  rw [placeAll, place_of_seatable hchange hids hteam hseat h]
  rfl

/-- Placements that can be followed are followed before anything else. -/
theorem placeAll_append_of_seatable (atHand : Option Int) {seats : List Seat}
    (hseats : ∀ seat ∈ seats, seat.Storable) (h : ∀ seat ∈ seats, s.Seatable team v seat)
    (rest : List Placement) :
    ∃ slot, s.placeAll atHand change (seats.map .ofSeat ++ rest) =
        s.placeAll slot (change.seatAll seats) rest ∧
      s.Hosts team v (change.seatAll seats) := by
  induction seats generalizing atHand change with
  | nil => exact ⟨atHand, rfl, hchange⟩
  | cons seat seats ih =>
      obtain ⟨hseat, hseats⟩ := List.forall_mem_cons.1 hseats
      obtain ⟨hfirst, hothers⟩ := List.forall_mem_cons.1 h
      obtain ⟨slot, hplaced, hhosts⟩ :=
        ih (hchange.seated hseat) (some seat.slot) hseats hothers
      refine ⟨slot, ?_, hhosts⟩
      exact (placeAll_cons_of_seatable hchange hids hteam hseat hfirst).trans hplaced

/-- Placements that can all be followed give the seats that they ask for. -/
theorem placeAll_of_seatable {seats : List Seat} (hseats : ∀ seat ∈ seats, seat.Storable)
    (h : ∀ seat ∈ seats, s.Seatable team v seat) :
    s.placeAll atHand change (seats.map .ofSeat) = .ok (change.seatAll seats) := by
  obtain ⟨slot, hplaced, hhosts⟩ :=
    placeAll_append_of_seatable hchange hids hteam atHand hseats h []
  rw [List.append_nil] at hplaced
  exact hplaced.trans (placeAll_nil_eq_ok_iff.2 ⟨hhosts.small, rfl⟩)

/-- The first placement that cannot be followed is what all fail with. -/
theorem placeAll_of_misplaced {ahead behind : List Seat}
    (hseats : ∀ other ∈ ahead ++ seat :: behind, other.Storable)
    (hahead : ∀ other ∈ ahead, s.Seatable team v other) {f : Failure}
    (h : s.Misplaced team v seat f) :
    s.placeAll atHand change ((ahead ++ seat :: behind).map .ofSeat) = .error f := by
  obtain ⟨hstorable, hrest⟩ := List.forall_mem_append.1 hseats
  obtain ⟨slot, hplaced, hhosts⟩ := placeAll_append_of_seatable hchange hids hteam atHand hstorable
    hahead ((seat :: behind).map .ofSeat)
  have hseat : seat.Storable := hrest seat List.mem_cons_self
  rw [List.map_append, hplaced, List.map_cons, placeAll,
    place_of_misplaced hhosts hids hteam hseat h]
  rfl

end Place

end Store

end Editorial
