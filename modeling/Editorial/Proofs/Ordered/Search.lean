import Editorial.Ordered.Search
import Mathlib.Data.List.Basic

/-!
# What a search finds

A list is divided by a question (`Splits`) if it holds of all elements up to some place and of none
from there on. As long as the question can be asked of every element, the search finds that place,
wherever it begins to look (`search_of_splits`): halving a stretch narrows it down to the place
(`placeFor_of_splits`), and leaps end with the place in what they have leapt over
(`leaps_of_threshold`).
-/

namespace Editorial.Ordered

variable {α ε : Type} {ahead : α → Except ε Bool} {p : α → Bool} {l : List α} {n : Nat}

/-- A question holds of the first elements of a list and of none behind them. -/
structure Splits (p : α → Bool) (l : List α) (n : Nat) : Prop where
  le : n ≤ l.length
  ahead : ∀ a ∈ l.take n, p a = true
  behind : ∀ a ∈ l.drop n, p a = false

theorem Splits.eq_decide (h : Splits p l n) {i : Nat} {a : α} (ha : l[i]? = some a) :
    p a = decide (i < n) := by
  by_cases hi : i < n
  · rw [decide_eq_true hi]
    exact h.ahead a (List.mem_of_getElem? (List.getElem?_take_of_lt hi ▸ ha))
  · rw [decide_eq_false hi]
    refine h.behind a (List.mem_of_getElem? (i := i - n) ?_)
    rw [List.getElem?_drop, Nat.add_sub_cancel' (Nat.le_of_not_lt hi)]
    exact ha

/-- A question that holds of everything in front of an element of which it holds divides the list.
-/
theorem exists_splits (h : l.Pairwise fun a b => p b = true → p a = true) : ∃ n, Splits p l n := by
  induction l with
  | nil => exact ⟨0, Nat.le_refl 0, nofun, nofun⟩
  | cons a l ih =>
      obtain ⟨ha, hl⟩ := List.pairwise_cons.1 h
      cases hp : p a with
      | true =>
          obtain ⟨n, hle, hahead, hbehind⟩ := ih hl
          refine ⟨n + 1, Nat.succ_le_succ hle, fun b hb => ?_, hbehind⟩
          rcases List.mem_cons.1 hb with rfl | hb
          · exact hp
          · exact hahead b hb
      | false =>
          refine ⟨0, Nat.zero_le _, nofun, fun b hb => ?_⟩
          rcases List.mem_cons.1 hb with rfl | hb
          · exact hp
          · exact Bool.eq_false_iff.2 fun hpb => Bool.false_ne_true (hp.symm.trans (ha b hb hpb))

/-! ### Halving -/

theorem placeFor_of_splits (hahead : ∀ a ∈ l, ahead a = .ok (p a)) (h : Splits p l n)
    {low width : Nat} (hlow : low ≤ n) (hhigh : n ≤ low + width)
    (hlength : low + width ≤ l.length) :
    placeFor ahead l low width = .ok n := by
  induction width using Nat.strongRecOn generalizing low with
  | ind width ih =>
      cases width with
      | zero =>
          rw [placeFor]
          exact congrArg Except.ok (by omega)
      | succ width =>
          have hmid : low + (width + 1) / 2 < l.length := by omega
          have hask := hahead _ (List.getElem_mem hmid)
          have hp := h.eq_decide (List.getElem?_eq_getElem hmid)
          rw [placeFor, List.getElem?_eq_getElem hmid]
          simp only [hask, hp, bind, Except.bind]
          by_cases hbelow : low + (width + 1) / 2 < n
          · rw [decide_eq_true hbelow, if_pos rfl]
            exact ih _ (by omega) (by omega) (by omega) (by omega)
          · rw [decide_eq_false hbelow, if_neg Bool.false_ne_true]
            exact ih _ (by omega) (by omega) (by omega) (by omega)

/-! ### Leaping -/

/-- Leaps end with the distance at which the test begins to fail between the last two. -/
theorem leaps_of_threshold {test : Nat → Except ε Bool} {limit k : Nat}
    (htest : ∀ i < limit, test i = .ok (decide (i < k))) (hk : k ≤ limit) {last next : Nat}
    (hlast : last < k) (hnext : last < next) :
    ∃ a b, leaps test limit last next = .ok (a, b) ∧ a < k ∧ k ≤ b ∧ b ≤ limit := by
  induction hgap : limit - next using Nat.strongRecOn generalizing last next with
  | ind gap ih =>
      rw [leaps]
      by_cases hin : next < limit
      · rw [if_pos hin, htest next hin]
        by_cases hbelow : next < k
        · obtain ⟨a, b, hok, hab⟩ := ih (limit - (2 * next + 1)) (by omega) hbelow
            (by omega : next < 2 * next + 1) rfl
          exact ⟨a, b, by simpa [bind, Except.bind, hbelow] using hok, hab⟩
        · exact ⟨last, next, by simp [bind, Except.bind, hbelow, pure, Except.pure], hlast,
            Nat.le_of_not_lt hbelow, Nat.le_of_lt hin⟩
      · rw [if_neg hin]
        exact ⟨last, limit, rfl, hlast, hk, Nat.le_refl limit⟩

theorem isAheadAt_of_splits (hahead : ∀ a ∈ l, ahead a = .ok (p a)) (h : Splits p l n) (i : Nat) :
    isAheadAt ahead l i = .ok (decide (i < n)) := by
  unfold isAheadAt
  cases ha : l[i]? with
  | some a =>
      dsimp only
      rw [hahead a (List.mem_of_getElem? ha), h.eq_decide ha]
  | none =>
      have hlength := List.getElem?_eq_none_iff.1 ha
      rw [decide_eq_false (Nat.not_lt.2 (Nat.le_trans h.le hlength))]

/-! ### Searching -/

theorem search_of_splits (hahead : ∀ a ∈ l, ahead a = .ok (p a)) (h : Splits p l n) {index : Nat}
    (hindex : index ≤ l.length) : search ahead l index = .ok n := by
  have hle := h.le
  have hasked := isAheadAt_of_splits hahead h
  unfold search
  rw [hasked index]
  by_cases hbelow : index < n
  · have htest : ∀ i < l.length - index,
        isAheadAt ahead l (index + i) = .ok (decide (i < n - index)) := fun i _ => by
      rw [hasked, decide_eq_decide.2 (by omega : index + i < n ↔ i < n - index)]
    obtain ⟨last, next, hok, hlast, hnext, hlimit⟩ :=
      leaps_of_threshold htest (by omega) (by omega : 0 < n - index) Nat.zero_lt_one
    simp only [bind, Except.bind, decide_eq_true hbelow, if_true, hok]
    exact placeFor_of_splits hahead h (by omega) (by omega) (by omega)
  · have htest : ∀ i < index + 1,
        (isAheadAt ahead l (index - i)).map not = .ok (decide (i < index + 1 - n)) := fun i hi => by
      rw [hasked]
      refine congrArg Except.ok ?_
      rw [← decide_not, decide_eq_decide]
      omega
    obtain ⟨last, next, hok, hlast, hnext, hlimit⟩ :=
      leaps_of_threshold htest (by omega) (by omega : 0 < index + 1 - n) Nat.zero_lt_one
    simp only [bind, Except.bind, decide_eq_false hbelow, Bool.false_eq_true, if_false, hok]
    exact placeFor_of_splits hahead h (by omega) (by omega) (by omega)

end Editorial.Ordered
