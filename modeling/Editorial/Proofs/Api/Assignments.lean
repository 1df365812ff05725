import Editorial.Api.Input
import Editorial.Proofs.Draft.Seating
import Editorial.Proofs.Number.Numeral
import Mathlib.Algebra.Group.Int.Defs
import Mathlib.Algebra.Group.Nat.Defs

/-!
# The notations of initial assignments

Who is to sit where is given as an object with a field for each slot or as a list of pairs, with ids
as numbers or as their decimal texts. A later pair for a slot replaces an earlier one, so that what
is left are the last ones (`mem_seatAll`); in either notation the same seats are read
(`notations_agree`). An item of a list that is no pair of ids spoils the whole list
(`assignAll_eq_none_iff`), and a numeral that is too long is no id (`long_numerals_spoil`).
-/

namespace Editorial.Api

open Json Number Text

/-! ### What is written -/

/-- A whole number is written as such or as its decimal text, which is not too long to be read. -/
inductive Writes : Json → Int → Prop where
  | number (n : Int) : Writes (int n) n
  | numeral {n : Int} (short : n.natAbs < 10 ^ digitLimit) : Writes (text (integerText n)) n

/-- A field says who is to sit in a slot: its name is the decimal text of the slot. -/
structure WritesField (field : Wording × Json) (seat : Seat) : Prop where
  slot : Writes (text field.1) seat.slot
  user : Writes field.2 seat.user

/-- An item says who is to sit in a slot. -/
def WritesItem (item : Json) (seat : Seat) : Prop :=
  ∃ slot user, item = array [slot, user] ∧ Writes slot seat.slot ∧ Writes user seat.user

/-- A seat is the last one of its slot in a list. -/
def IsLast (seats : List Seat) (seat : Seat) : Prop :=
  ∃ before after, seats = before ++ seat :: after ∧ ∀ other ∈ after, other.slot ≠ seat.slot

/-- A value has two parts: two items, two characters or the names of two fields. -/
inductive HasParts : Json → Json → Json → Prop where
  | items (a b : Json) : HasParts (array [a, b]) a b
  | characters {w : Wording} {p q : Piece} (pieces : w.pieces = [p, q]) :
      HasParts (text w) (text (.ofPieces [p])) (text (.ofPieces [q]))
  | names (a b : Wording × Json) : HasParts (object [a, b]) (text a.1) (text b.1)

/-- A value denotes a whole number. -/
def IsId (v : Json) : Prop := ∃ n, v.whole = .ok n

/-- A value has two parts, both of which denote whole numbers. -/
def IsPairOfIds (v : Json) : Prop := ∃ a b, HasParts v a b ∧ IsId a ∧ IsId b

/-- A value is an infinite number. -/
def IsInfinite (v : Json) : Prop := ∃ negative, v = float (.infinite negative)

/-! ### Ids -/

theorem Writes.whole_eq {v : Json} {n : Int} (h : Writes v n) : v.whole = .ok n := by
  cases h with
  | number => rfl
  | numeral short =>
      unfold whole
      dsimp only
      rw [readInteger_integerText, if_pos short]
      rfl

theorem idOf?_of_whole {v : Json} {n : Int} (h : v.whole = .ok n) : idOf? v = .ok (some n) := by
  unfold idOf?
  rw [h]

/-- A decimal text that is too long denotes nothing. -/
theorem idOf?_of_long {n : Int} (h : 10 ^ digitLimit ≤ n.natAbs) :
    idOf? (text (integerText n)) = .ok none := by
  unfold idOf? whole
  dsimp only
  rw [readInteger_integerText, if_neg (Nat.not_lt.2 h)]
  rfl

theorem whole_eq_infinite_iff {v : Json} : v.whole = .error .infinite ↔ IsInfinite v := by
  constructor
  · intro h
    cases v with
    | float x =>
        cases x with
        | infinite negative => exact ⟨negative, rfl⟩
        | _ => cases h
    | text w =>
        cases w with
        | whole s =>
            unfold whole at h
            dsimp only at h
            cases hs : readInteger s <;> rw [hs] at h <;> cases h
        | torn ps => cases h
    | _ => cases h
  · rintro ⟨negative, rfl⟩
    rfl

/-- A value that is not infinite denotes a whole number, or none. -/
theorem idOf?_of_not_isId {v : Json} (hid : ¬IsId v) (hfinite : ¬IsInfinite v) :
    idOf? v = .ok none := by
  unfold idOf?
  split
  · exact absurd ⟨_, ‹_›⟩ hid
  · exact absurd (whole_eq_infinite_iff.1 ‹_›) hfinite
  · rfl

/-! ### Pairs -/

theorem pair?_eq_some_iff {v a b : Json} : pair? v = some (a, b) ↔ HasParts v a b := by
  constructor
  · intro h
    unfold pair? at h
    split at h
    · cases h
      exact .items _ _
    · split at h
      · cases h
        exact .characters ‹_›
      · cases h
    · cases h
      exact .names _ _
    · cases h
  · rintro (_ | hpieces | _)
    · rfl
    · unfold pair?
      dsimp only
      rw [hpieces]
    · rfl

/-! ### Seats one after the other -/

/-- Users come into slots one after the other, each in place of whoever was there. -/
def seatAll (seats entries : List Seat) : List Seat :=
  entries.foldl (fun seats entry => Draft.putSeat entry.slot entry.user seats) seats

theorem isLast_cons_iff {entry seat : Seat} {rest : List Seat} :
    IsLast (entry :: rest) seat ↔
      (seat = entry ∧ ∀ other ∈ rest, other.slot ≠ seat.slot) ∨ IsLast rest seat := by
  constructor
  · rintro ⟨before, after, hsplit, hafter⟩
    cases before with
    | nil =>
        obtain ⟨rfl, rfl⟩ := List.cons_eq_cons.1 hsplit
        exact Or.inl ⟨rfl, hafter⟩
    | cons first before =>
        obtain ⟨-, rfl⟩ := List.cons_eq_cons.1 hsplit
        exact Or.inr ⟨before, after, rfl, hafter⟩
  · rintro (⟨rfl, hrest⟩ | ⟨before, after, rfl, hafter⟩)
    · exact ⟨[], rest, rfl, hrest⟩
    · exact ⟨entry :: before, after, rfl, hafter⟩

theorem ordered_seatAll {seats : List Seat} (h : SeatsOrdered seats) (entries : List Seat) :
    SeatsOrdered (seatAll seats entries) := by
  unfold seatAll
  induction entries generalizing seats with
  | nil => exact h
  | cons entry rest ih => exact ih (Draft.ordered_putSeat entry.slot entry.user h)

/-- The last entry for a slot decides; a slot without entry is as it was. -/
theorem mem_seatAll {seats entries : List Seat} (h : SeatsOrdered seats) {seat : Seat} :
    seat ∈ seatAll seats entries ↔
      IsLast entries seat ∨ seat ∈ seats ∧ ∀ other ∈ entries, other.slot ≠ seat.slot := by
  unfold seatAll
  induction entries generalizing seats with
  | nil => simp [IsLast]
  | cons entry rest ih =>
      rw [List.foldl_cons, ih (Draft.ordered_putSeat entry.slot entry.user h), Draft.mem_putSeat h,
        isLast_cons_iff, List.forall_mem_cons]
      constructor
      · rintro (hlast | ⟨rfl | ⟨hseat, hne⟩, hrest⟩)
        · exact Or.inl (Or.inr hlast)
        · exact Or.inl (Or.inl ⟨rfl, hrest⟩)
        · exact Or.inr ⟨hseat, hne.symm, hrest⟩
      · rintro ((⟨rfl, hrest⟩ | hlast) | ⟨hseat, hne, hrest⟩)
        · exact Or.inr ⟨Or.inl rfl, hrest⟩
        · exact Or.inl hlast
        · exact Or.inr ⟨Or.inr ⟨hseat, hne.symm⟩, hrest⟩

/-- Entries whose last ones are the seats of a list in order leave just that list. -/
theorem seatAll_eq_of_isLast {m entries : List Seat} (hm : SeatsOrdered m)
    (hlast : ∀ seat, seat ∈ m ↔ IsLast entries seat) : seatAll [] entries = m := by
  have hnil : SeatsOrdered [] := List.Pairwise.nil
  refine (ordered_seatAll hnil entries).eq_of_mem_iff hm fun seat => ?_
  rw [mem_seatAll hnil, hlast]
  simp

/-- Where no slot has two entries, all of them are last ones. -/
theorem mem_iff_isLast {entries : List Seat} (h : (entries.map Seat.slot).Nodup) {seat : Seat} :
    seat ∈ entries ↔ IsLast entries seat := by
  constructor
  · intro hseat
    obtain ⟨before, after, rfl⟩ := List.append_of_mem hseat
    refine ⟨before, after, rfl, fun other hother hslot => ?_⟩
    rw [List.map_append, List.map_cons] at h
    have hnew := (List.nodup_cons.1 h.of_append_right).1
    exact hnew (hslot ▸ List.mem_map_of_mem hother)
  · rintro ⟨before, after, rfl, -⟩
    simp

/-! ### Reading -/

section Reading

variable {seats : List Seat} {pair : Option (Json × Json)} {pairs : List (Option (Json × Json))}

/-- Two values that denote whole numbers, if they are there. -/
def AreIds (pair : Option (Json × Json)) : Prop := ∃ a b, pair = some (a, b) ∧ IsId a ∧ IsId b

theorem assignAll_cons_of_ids {a b : Json} {slot user : Int} (ha : a.whole = .ok slot)
    (hb : b.whole = .ok user) :
    assignAll seats (some (a, b) :: pairs) = assignAll (Draft.putSeat slot user seats) pairs := by
  rw [assignAll, idOf?_of_whole hb, idOf?_of_whole ha]
  rfl

theorem assignAll_cons_of_not (hids : ¬AreIds pair)
    (hfinite : ∀ a b, pair = some (a, b) → ¬IsInfinite a ∧ ¬IsInfinite b) :
    assignAll seats (pair :: pairs) = .ok none := by
  cases pair with
  | none => rfl
  | some pair =>
      obtain ⟨a, b⟩ := pair
      obtain ⟨ha, hb⟩ := hfinite a b rfl
      rw [assignAll]
      by_cases huser : IsId b
      · have hslot : ¬IsId a := fun hslot => hids ⟨a, b, rfl, hslot, huser⟩
        rw [idOf?_of_whole huser.choose_spec, idOf?_of_not_isId hslot ha]
        rfl
      · rw [idOf?_of_not_isId huser hb]
        rfl

/-- Pairs of ids are followed one after the other. -/
theorem assignAll_of_ids {entries : List Seat}
    (h : List.Forall₂ (fun pair entry => ∃ a b, pair = some (a, b) ∧
      a.whole = .ok entry.slot ∧ b.whole = .ok entry.user) pairs entries) :
    assignAll seats pairs = .ok (some (seatAll seats entries)) := by
  induction h generalizing seats with
  | nil => rfl
  | cons hfirst _ ih =>
      obtain ⟨a, b, rfl, ha, hb⟩ := hfirst
      rw [assignAll_cons_of_ids ha hb, ih]
      rfl

/-- What is no pair of ids spoils the whole, wherever it stands. -/
theorem assignAll_eq_none_iff
    (hfinite : ∀ a b, some (a, b) ∈ pairs → ¬IsInfinite a ∧ ¬IsInfinite b) :
    assignAll seats pairs = .ok none ↔ ∃ pair ∈ pairs, ¬AreIds pair := by
  induction pairs generalizing seats with
  | nil => exact iff_of_false nofun (by simp)
  | cons pair rest ih =>
      have hrest : ∀ a b, some (a, b) ∈ rest → ¬IsInfinite a ∧ ¬IsInfinite b := fun a b hmem =>
        hfinite a b (List.mem_cons_of_mem _ hmem)
      by_cases hids : AreIds pair
      · obtain ⟨a, b, hpair, ⟨slot, ha⟩, ⟨user, hb⟩⟩ := id hids
        rw [hpair, assignAll_cons_of_ids ha hb, ih hrest, ← hpair]
        simp [hids]
      · have hfirst : ∀ a b, pair = some (a, b) → ¬IsInfinite a ∧ ¬IsInfinite b := fun a b he =>
          hfinite a b (he ▸ List.mem_cons_self)
        exact iff_of_true (assignAll_cons_of_not hids hfirst) ⟨pair, List.mem_cons_self, hids⟩

theorem areIds_pair_iff {v : Json} : AreIds (pair? v) ↔ IsPairOfIds v := by
  simp only [AreIds, IsPairOfIds, pair?_eq_some_iff]

theorem not_isInfinite_of_hasParts {v a b : Json} (h : HasParts v a b)
    (hitems : v = array [a, b] → ¬IsInfinite a ∧ ¬IsInfinite b) :
    ¬IsInfinite a ∧ ¬IsInfinite b := by
  cases h with
  | items => exact hitems rfl
  | characters => exact ⟨nofun, nofun⟩
  | names => exact ⟨nofun, nofun⟩

end Reading

/-! ### The notations -/

/-- Seats in order can be given as the fields of an object, in any order, or as the last ones for
their slots in a list of pairs, with numbers or decimal texts that are not too long. A list without
infinite numbers is refused exactly when some item of it is no pair of ids. -/
theorem notations_agree {m : List Seat} (hm : SeatsOrdered m) :
    (∀ fields entries, entries.Perm m → List.Forall₂ WritesField fields entries →
      assignments (object fields) = .ok (some m)) ∧
    (∀ items entries, List.Forall₂ WritesItem items entries →
      (∀ seat, seat ∈ m ↔ IsLast entries seat) → assignments (array items) = .ok (some m)) ∧
    ∀ items, (∀ a b, array [a, b] ∈ items → ¬IsInfinite a ∧ ¬IsInfinite b) →
      (assignments (array items) = .ok none ↔ ∃ item ∈ items, ¬IsPairOfIds item) := by
  refine ⟨fun fields entries hperm hfields => ?_, fun items entries hitems hlast => ?_,
    fun items hfinite => ?_⟩
  · -- No slot has two fields, so each field is the last one for its slot.
    have hdistinct : (entries.map Seat.slot).Nodup := (hperm.map Seat.slot).nodup_iff.2 hm.nodup
    have hlast : ∀ seat, seat ∈ m ↔ IsLast entries seat := fun seat => by
      rw [← hperm.mem_iff, mem_iff_isLast hdistinct]
    rw [← seatAll_eq_of_isLast hm hlast]
    refine assignAll_of_ids (List.forall₂_map_left_iff.2 (hfields.imp fun field seat h => ?_))
    exact ⟨_, _, rfl, h.slot.whole_eq, h.user.whole_eq⟩
  · rw [← seatAll_eq_of_isLast hm hlast]
    refine assignAll_of_ids (List.forall₂_map_left_iff.2 (hitems.imp fun item seat h => ?_))
    obtain ⟨slot, user, rfl, hslot, huser⟩ := h
    exact ⟨slot, user, rfl, hslot.whole_eq, huser.whole_eq⟩
  · refine (assignAll_eq_none_iff fun a b hmem => ?_).trans ?_
    · obtain ⟨item, hitem, hpair⟩ := List.mem_map.1 hmem
      exact not_isInfinite_of_hasParts (pair?_eq_some_iff.1 hpair) fun he =>
        hfinite a b (he ▸ hitem)
    · simp [areIds_pair_iff]

namespace Cast

/-- Who sits in three slots. -/
def seats : List Seat := [⟨-5, 7⟩, ⟨1, 4⟩, ⟨3, 2 ^ 64⟩]

/-- The same as an object. -/
def fields : Fields := [("1", ofText "4"), ("3", int (2 ^ 64)), ("-5", int 7)]

/-- The same as a list, where the first user of slot 1 is replaced. -/
def items : List Json :=
  [array [int 1, int 9], array [ofText "-5", ofText "7"], array [int 3, int (2 ^ 64)],
    array [ofText "1", int 4]]

theorem writes_ofText {n : Int} {s : String} (h : integerText n = s) (hn : n.natAbs < 10 ^ 20) :
    Writes (ofText s) n := by
  subst h
  exact .numeral (hn.trans_le (Nat.pow_le_pow_right (by decide) (by decide)))

theorem writes_fields : List.Forall₂ WritesField fields [⟨1, 4⟩, ⟨3, 2 ^ 64⟩, ⟨-5, 7⟩] :=
  .cons ⟨writes_ofText rfl (by decide), writes_ofText rfl (by decide)⟩ <|
  .cons ⟨writes_ofText rfl (by decide), .number _⟩ <|
  .cons ⟨writes_ofText rfl (by decide), .number _⟩ .nil

theorem writes_items :
    List.Forall₂ WritesItem items [⟨1, 9⟩, ⟨-5, 7⟩, ⟨3, 2 ^ 64⟩, ⟨1, 4⟩] :=
  .cons ⟨_, _, rfl, .number _, .number _⟩ <|
  .cons ⟨_, _, rfl, writes_ofText rfl (by decide), writes_ofText rfl (by decide)⟩ <|
  .cons ⟨_, _, rfl, .number _, .number _⟩ <|
  .cons ⟨_, _, rfl, writes_ofText rfl (by decide), .number _⟩ .nil

end Cast

/-- Three seats, one of a slot with a negative number and one of a user beyond 64 bits, are read from
an object and from a list that names one slot twice. An item that names nobody spoils the list. -/
theorem cast_agrees :
    SeatsOrdered Cast.seats ∧ assignments (object Cast.fields) = .ok (some Cast.seats) ∧
      assignments (array Cast.items) = .ok (some Cast.seats) ∧
      assignments (array (Cast.items ++ [array [ofText "2", null]])) = .ok none := by
  have hordered : SeatsOrdered Cast.seats := by
    unfold SeatsOrdered
    decide
  have hlast : ∀ seat, seat ∈ Cast.seats ↔
      IsLast [⟨1, 9⟩, ⟨-5, 7⟩, ⟨3, 2 ^ 64⟩, ⟨1, 4⟩] seat := fun seat => by
    have hmem : seat ∈ seatAll [] [⟨1, 9⟩, ⟨-5, 7⟩, ⟨3, 2 ^ 64⟩, ⟨1, 4⟩] ↔ _ :=
      mem_seatAll List.Pairwise.nil
    exact hmem.trans (by simp)
  have hspoiling : ¬IsPairOfIds (array [ofText "2", null]) := by
    rintro ⟨a, b, hparts, -, n, hn⟩
    cases hparts
    cases hn
  obtain ⟨hfields, hitems, hspoiled⟩ := notations_agree hordered
  refine ⟨hordered, hfields _ _ (by decide) Cast.writes_fields,
    hitems _ _ Cast.writes_items hlast, (hspoiled _ ?_).2 ⟨_, by simp, hspoiling⟩⟩
  intro a b hmem
  have hcases : (a = int 1 ∧ b = int 9) ∨ (a = ofText "-5" ∧ b = ofText "7") ∨
      (a = int 3 ∧ b = int (2 ^ 64)) ∨ (a = ofText "1" ∧ b = int 4) ∨
      (a = ofText "2" ∧ b = null) := by
    simpa [Cast.items] using hmem
  rcases hcases with ⟨rfl, rfl⟩ | ⟨rfl, rfl⟩ | ⟨rfl, rfl⟩ | ⟨rfl, rfl⟩ | ⟨rfl, rfl⟩ <;>
    exact ⟨nofun, nofun⟩

/-- A decimal text of more digits than are read is no id. So a user with such a number cannot be
named by it, and to name such a user first spoils a list, although another one replaces that user. -/
theorem long_numerals_spoil :
    let long := text (integerText (10 ^ digitLimit))
    SeatsOrdered [⟨1, 10 ^ digitLimit⟩] ∧ assignments (object [("1", long)]) = .ok none ∧
      assignments (array [array [ofText "1", long], array [ofText "1", int 4]]) = .ok none := by
  intro long
  have hlarge (k : Nat) : 10 ^ k ≤ (10 ^ k : Int).natAbs := (Int.natAbs_pow 10 k).ge
  have hnone : idOf? long = .ok none := idOf?_of_long (hlarge digitLimit)
  refine ⟨List.pairwise_singleton _ _, ?_, ?_⟩
  · show assignAll [] [some (ofText "1", long)] = _
    rw [assignAll, hnone]
    rfl
  · show assignAll [] [some (ofText "1", long), some (ofText "1", int 4)] = _
    rw [assignAll, hnone]
    rfl

end Editorial.Api
