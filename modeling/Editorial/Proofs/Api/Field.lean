import Editorial.Api.Input
import Editorial.Proofs.Number.Numeral
import Mathlib.Algebra.Group.Nat.Defs

/-!
# Whole numbers in fields

A field of a request holds a whole number as such or as a text of digits. Which texts are taken for
texts of digits and which numerals are read is decided by different rules: the guard knows digits
without a place value and cuts off the information separators, the reader does neither and refuses
numerals that are too long. `wholeField_decided` says of every value what comes of it; where the two
rules differ, nothing but a failure does.
-/

namespace Editorial.Api

open Json Number Text

/-- The parts of a text of digits: a row of characters that count as digits, between blanks. -/
structure Parted (s : String) (before digits after : List Char) : Prop where
  text : s.toList = before ++ digits ++ after
  ahead : ∀ c ∈ before, isBlank c = true
  behind : ∀ c ∈ after, isBlank c = true
  some_digit : digits ≠ []
  digits_only : ∀ c ∈ digits, isDigit c = true

section Texts

variable {s : String} {before digits after : List Char}

theorem Parted.trimBoth_eq (h : Parted s before digits after) :
    trimBoth isBlank s.toList = digits := by
  have hkeep : ∀ c ∈ digits, isBlank c = false := fun c hc =>
    (plain_iff.1 (plain_of_isDigit (h.digits_only c hc))).1
  exact trimBoth_of_kept h.text h.ahead h.behind h.some_digit hkeep

theorem isDigits_iff : isDigits s = true ↔ ∃ before digits after, Parted s before digits after := by
  have hdigits : isDigits s = (!(trimBoth isBlank s.toList).isEmpty &&
      (trimBoth isBlank s.toList).all isDigit) := by
    unfold isDigits strip
    rw [String.toList_ofList]
  rw [hdigits]
  constructor
  · intro h
    simp only [Bool.and_eq_true, Bool.not_eq_true', List.isEmpty_eq_false_iff,
      List.all_eq_true] at h
    have hall : s.toList.all isBlank = false := by
      rw [Bool.eq_false_iff]
      intro hblank
      have hnil : s.toList.dropWhile isBlank = [] :=
        List.dropWhile_eq_nil_iff.2 (List.all_eq_true.1 hblank)
      exact h.1 (by unfold trimBoth; rw [hnil]; rfl)
    obtain ⟨before, after, htext, hbefore, hafter⟩ := (trimsTo_trimBoth hall).parts
    exact ⟨before, _, after, htext, hbefore, hafter, h.1, h.2⟩
  · rintro ⟨before, digits, after, h⟩
    rw [h.trimBoth_eq]
    simpa using ⟨h.some_digit, h.digits_only⟩

/-- A text of digits is read when all of them have place values, there are not too many, and no
information separator stands around them. -/
theorem Parted.readInteger_eq_ok_iff (h : Parted s before digits after) {n : Int} :
    readInteger s = .ok n ↔ ∃ values, HaveValues digits values ∧ n = ofDigits values ∧
      values.length ≤ digitLimit ∧ ∀ c ∈ before ++ after, isNumeralBlank c = true := by
  constructor
  · intro hread
    have haround : ∀ c ∈ before ++ after, isNumeralBlank c = true := by
      intro c hc
      have hblank : isBlank c = true := (List.mem_append.1 hc).elim (h.ahead c) (h.behind c)
      have hmem : c ∈ s.toList := by
        rw [h.text]
        exact (List.mem_append.1 hc).elim (fun hc => by simp [hc]) fun hc => by simp [hc]
      rcases mem_of_readInteger hread hmem with hkept | rfl | rfl | hchar
      · exact hkept
      · exact absurd hblank (by decide)
      · exact absurd hblank (by decide)
      · rw [not_isNumeralChar_of_isBlank hblank] at hchar
        cases hchar
    have hdecimal : ∀ c ∈ digits, isDecimal c = true := by
      intro c hc
      have hmem : c ∈ s.toList := by
        rw [h.text]
        simp [hc]
      obtain ⟨hblank, hminus, hplus, hscore⟩ :=
        plain_iff.1 (plain_of_isDigit (h.digits_only c hc))
      rcases mem_of_readInteger hread hmem with hcut | hc | hc | hchar
      · exact Bool.noConfusion (hblank.symm.trans (isBlank_of_isNumeralBlank hcut))
      · exact absurd hc hminus
      · exact absurd hc hplus
      · exact (Bool.or_eq_true_iff.1 hchar).resolve_right (by simpa using hscore)
    obtain ⟨values, hvalues⟩ := exists_values hdecimal
    rw [readInteger_of_spelled h.text (fun c hc => haround c (List.mem_append_left _ hc))
      (fun c hc => haround c (List.mem_append_right _ hc)) hvalues h.some_digit] at hread
    split at hread
    · cases hread
    · exact ⟨values, hvalues, (Except.ok.inj hread).symm, Nat.le_of_not_lt ‹_›, haround⟩
  · rintro ⟨values, hvalues, rfl, hlength, haround⟩
    rw [readInteger_of_spelled h.text (fun c hc => haround c (List.mem_append_left _ hc))
      (fun c hc => haround c (List.mem_append_right _ hc)) hvalues h.some_digit,
      if_neg (Nat.not_lt.2 hlength)]

theorem Parted.exists_error_iff (h : Parted s before digits after) :
    (∃ e, readInteger s = .error e) ↔
      (∃ c ∈ digits, isDecimal c = false) ∨ digitLimit < digits.length ∨
        ∃ c ∈ before ++ after, isNumeralBlank c = false := by
  have hread : (∃ e, readInteger s = .error e) ↔ ¬∃ n, readInteger s = .ok n := by
    cases readInteger s <;> simp
  rw [hread]
  constructor
  · intro hnot
    by_contra hfine
    simp only [not_or, not_exists, not_and, Bool.not_eq_false, Nat.not_lt] at hfine
    obtain ⟨hdecimal, hlength, haround⟩ := hfine
    obtain ⟨values, hvalues⟩ := exists_values hdecimal
    exact hnot ⟨_, h.readInteger_eq_ok_iff.2
      ⟨values, hvalues, rfl, hvalues.length_eq.trans_le hlength, haround⟩⟩
  · rintro hflaw ⟨n, hn⟩
    obtain ⟨values, hvalues, -, hlength, haround⟩ := h.readInteger_eq_ok_iff.1 hn
    rcases hflaw with ⟨c, hc, hflaw⟩ | hflaw | ⟨c, hc, hflaw⟩
    · exact Bool.noConfusion (hflaw.symm.trans (hvalues.isDecimal c hc))
    · rw [← hvalues.length_eq] at hflaw
      exact absurd hlength (Nat.not_le.2 hflaw)
    · exact Bool.noConfusion (hflaw.symm.trans (haround c hc))

end Texts

/-! ### Values -/

theorem wholeNumber?_of_parted {s : String} {before digits after : List Char}
    (h : Parted s before digits after) :
    wholeNumber? (.text (.whole s)) =
      ((readInteger s).mapError fun e => .notWhole (.numeral e)).map some := by
  unfold wholeNumber?
  dsimp only
  rw [if_pos (isDigits_iff.2 ⟨before, digits, after, h⟩)]
  cases readInteger s <;> rfl

/-- What a value of a field comes to. -/
theorem wholeNumber?_cases (v : Json) :
    (∃ n, v = .int n ∧ wholeNumber? v = .ok (some n)) ∨
      (∃ s before digits after, v = .text (.whole s) ∧ Parted s before digits after) ∨
      (∀ n, v ≠ .int n) ∧
        (∀ s before digits after, v = .text (.whole s) → ¬Parted s before digits after) ∧
        wholeNumber? v = .ok none := by
  cases v with
  | int n => exact Or.inl ⟨n, rfl, rfl⟩
  | text w =>
      cases w with
      | whole s =>
          cases hdigits : isDigits s with
          | true =>
              obtain ⟨before, digits, after, h⟩ := isDigits_iff.1 hdigits
              exact Or.inr (Or.inl ⟨s, before, digits, after, rfl, h⟩)
          | false =>
              refine Or.inr (Or.inr ⟨nofun, ?_, ?_⟩)
              · rintro _ before digits after ⟨⟩ h
                rw [isDigits_iff.2 ⟨before, digits, after, h⟩] at hdigits
                cases hdigits
              · unfold wholeNumber?
                dsimp only
                rw [hdigits, if_neg Bool.false_ne_true]
      | torn ps => exact Or.inr (Or.inr ⟨nofun, nofun, rfl⟩)
  | null => exact Or.inr (Or.inr ⟨nofun, nofun, rfl⟩)
  | bool b => exact Or.inr (Or.inr ⟨nofun, nofun, rfl⟩)
  | float x => exact Or.inr (Or.inr ⟨nofun, nofun, rfl⟩)
  | array items => exact Or.inr (Or.inr ⟨nofun, nofun, rfl⟩)
  | object fields => exact Or.inr (Or.inr ⟨nofun, nofun, rfl⟩)

theorem wholeNumber?_eq_some_iff {v : Json} {n : Int} :
    wholeNumber? v = .ok (some n) ↔
      v = .int n ∨ ∃ s before digits after values, v = .text (.whole s) ∧
        Parted s before digits after ∧ HaveValues digits values ∧ n = ofDigits values ∧
        values.length ≤ digitLimit ∧ ∀ c ∈ before ++ after, isNumeralBlank c = true := by
  constructor
  · intro hn
    rcases wholeNumber?_cases v with ⟨m, hv, hm⟩ | ⟨s, before, digits, after, hv, h⟩ | ⟨-, -, hnone⟩
    · obtain rfl : m = n := by simpa using hm.symm.trans hn
      exact Or.inl hv
    · rw [hv, wholeNumber?_of_parted h] at hn
      cases hread : readInteger s with
      | error e =>
          rw [hread] at hn
          cases hn
      | ok m =>
          rw [hread] at hn
          obtain rfl : m = n := Option.some.inj (Except.ok.inj hn)
          obtain ⟨values, hvalues⟩ := h.readInteger_eq_ok_iff.1 hread
          exact Or.inr ⟨s, before, digits, after, values, hv, h, hvalues⟩
    · cases hnone.symm.trans hn
  · rintro (rfl | ⟨s, before, digits, after, values, rfl, h, hvalues⟩)
    · rfl
    · rw [wholeNumber?_of_parted h, h.readInteger_eq_ok_iff.2 ⟨values, hvalues⟩]
      rfl

theorem wholeNumber?_error_iff {v : Json} :
    (∃ f, wholeNumber? v = .error f) ↔
      ∃ s before digits after, v = .text (.whole s) ∧ Parted s before digits after ∧
        ((∃ c ∈ digits, isDecimal c = false) ∨ digitLimit < digits.length ∨
          ∃ c ∈ before ++ after, isNumeralBlank c = false) := by
  constructor
  · rintro ⟨f, hf⟩
    rcases wholeNumber?_cases v with ⟨m, -, hm⟩ | ⟨s, before, digits, after, hv, h⟩ | ⟨-, -, hnone⟩
    · cases hm.symm.trans hf
    · refine ⟨s, before, digits, after, hv, h, h.exists_error_iff.1 ?_⟩
      rw [hv, wholeNumber?_of_parted h] at hf
      cases hread : readInteger s with
      | error e => exact ⟨e, rfl⟩
      | ok m =>
          rw [hread] at hf
          cases hf
    · cases hnone.symm.trans hf
  · rintro ⟨s, before, digits, after, rfl, h, hflaw⟩
    obtain ⟨e, he⟩ := h.exists_error_iff.2 hflaw
    rw [wholeNumber?_of_parted h, he]
    exact ⟨_, rfl⟩

theorem wholeNumber?_eq_none_iff {v : Json} :
    wholeNumber? v = .ok none ↔ (∀ n, v ≠ .int n) ∧
      ∀ s before digits after, v = .text (.whole s) → ¬Parted s before digits after := by
  constructor
  · intro hnone
    constructor
    · rintro n rfl
      cases hnone
    · rintro s before digits after rfl h
      rw [wholeNumber?_of_parted h] at hnone
      cases hread : readInteger s with
      | error e =>
          rw [hread] at hnone
          cases hnone
      | ok n =>
          rw [hread] at hnone
          cases hnone
  · rintro ⟨hint, htext⟩
    rcases wholeNumber?_cases v with ⟨n, hv, -⟩ | ⟨s, before, digits, after, hv, h⟩ | ⟨-, -, hnone⟩
    · exact absurd hv (hint n)
    · exact absurd h (htext s before digits after hv)
    · exact hnone

/-- The plain decimal form of a natural number is one of the texts that are read. -/
theorem wholeNumber?_naturalText {n : Nat} {s : String} {before after : List Char}
    (hn : n < 10 ^ digitLimit) (htext : s.toList = before ++ (naturalText n).toList ++ after)
    (haround : ∀ c ∈ before ++ after, isNumeralBlank c = true) :
    wholeNumber? (.text (.whole s)) = .ok (some n) := by
  unfold naturalText at htext
  rw [String.toList_ofList] at htext
  obtain ⟨values, hvalues, rfl⟩ := exists_values_toDigits n
  have hlength : values.length ≤ digitLimit := by
    rw [hvalues.length_eq]
    exact (Nat.length_toDigits_le_iff (by decide) (by decide)).2 hn
  have hparted : Parted s before (Nat.toDigits 10 (ofDigits values)) after := {
    text := htext
    ahead := fun c hc => isBlank_of_isNumeralBlank (haround c (List.mem_append_left _ hc))
    behind := fun c hc => isBlank_of_isNumeralBlank (haround c (List.mem_append_right _ hc))
    some_digit := Nat.toDigits_ne_nil
    digits_only := fun c hc => isDigit_of_isDecimal (hvalues.isDecimal c hc) }
  exact wholeNumber?_eq_some_iff.2
    (Or.inr ⟨s, _, _, _, values, rfl, hparted, hvalues, rfl, hlength, haround⟩)

/-- What comes of a field, whatever it holds. It has a number if it holds the number, or a text of
decimal digits of any script that spells it, with blanks around them that are no information
separators, and with no more digits than are read. Every other text that counts as one of digits is
a failure, and every other value is no number. A natural number that is not too long can be given as
such or as its decimal text with blanks around it. -/
theorem wholeField_decided (fields : Fields) (name : String) :
    let v := field fields name
    (∀ n, wholeField fields name = .ok (some n) ↔
      v = .int n ∨ ∃ s before digits after values, v = .text (.whole s) ∧
        Parted s before digits after ∧ HaveValues digits values ∧ n = ofDigits values ∧
        values.length ≤ digitLimit ∧ ∀ c ∈ before ++ after, isNumeralBlank c = true) ∧
    ((∃ f, wholeField fields name = .error f) ↔
      ∃ s before digits after, v = .text (.whole s) ∧ Parted s before digits after ∧
        ((∃ c ∈ digits, isDecimal c = false) ∨ digitLimit < digits.length ∨
          ∃ c ∈ before ++ after, isNumeralBlank c = false)) ∧
    (wholeField fields name = .ok none ↔ (∀ n, v ≠ .int n) ∧
      ∀ s before digits after, v = .text (.whole s) → ¬Parted s before digits after) ∧
    ∀ (k : Nat) s before after, k < 10 ^ digitLimit →
      s.toList = before ++ (naturalText k).toList ++ after →
      (∀ c ∈ before ++ after, isNumeralBlank c = true) →
      v = .int k ∨ v = .text (.whole s) → wholeField fields name = .ok (some k) := by
  refine ⟨fun _ => wholeNumber?_eq_some_iff, wholeNumber?_error_iff, wholeNumber?_eq_none_iff,
    fun k s before after hk htext haround hv => ?_⟩
  unfold wholeField
  rcases hv with hv | hv
  · rw [hv, wholeNumber?_int]
  · rw [hv, wholeNumber?_naturalText hk htext haround]

/-- A superscript counts as a digit and an information separator as blank, but neither stands in a
numeral. -/
theorem digits_that_fail :
    let asked (s : String) := wholeField [("n", ofText s)] "n"
    isDecimal '\u00b2' = false ∧ (asked "\u00b2").toBool = false ∧
      strip "\x1c5" = "5" ∧ (asked "\x1c5").toBool = false := by
  decide +kernel

end Editorial.Api
