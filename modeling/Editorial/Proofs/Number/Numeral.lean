import Editorial.Number.Numeral
import Editorial.Proofs.Text.Strip
import Mathlib.Algebra.Group.Nat.Defs
import Mathlib.Data.List.TakeWhile

/-!
# Numerals of digits

`readInteger` takes more than rows of digits, and not every row of characters that count as digits:
a character that counts as a digit is neither blank nor a sign nor an underscore
(`plain_of_isDigit`), so that a row of decimal digits with blanks around it is read as the number
that it spells (`readInteger_of_spelled`), and whatever is read is made of blanks, signs and
numeral characters (`mem_of_readInteger`). The plain decimal form of a natural number spells it
(`exists_values_toDigits`), and the decimal text of a whole number is read as that number unless it
is too long (`readInteger_integerText`).
-/

namespace Editorial.Number

open Editorial.Text

/-! ### Characters -/

section Characters

variable {c : Char}

/-- A character that is neither blank nor a sign nor an underscore. -/
def isPlain (c : Char) : Bool := !isBlank c && c != '-' && c != '+' && c != '_'

theorem plain_of_isDecimal (h : isDecimal c = true) : isPlain c = true := by
  have hzeros : ∀ first ∈ zeros, ∀ k < 10, isPlain (Char.ofNat (first + k)) = true := by
    decide +kernel
  obtain ⟨d, hd⟩ := Option.isSome_iff_exists.1 h
  obtain ⟨first, hfirst, -⟩ := Option.map_eq_some_iff.1 hd
  have hrange := List.find?_some hfirst
  simp only [Bool.and_eq_true, decide_eq_true_eq] at hrange
  have hplain := hzeros first (List.mem_of_find?_eq_some hfirst) (c.toNat - first) (by omega)
  rwa [Nat.add_sub_of_le hrange.1, Char.ofNat_toNat] at hplain

theorem plain_of_isDigit (h : isDigit c = true) : isPlain c = true := by
  have hothers : ∀ range ∈ otherDigits, ∀ k < range.2 - range.1 + 1,
      isPlain (Char.ofNat (range.1 + k)) = true := by
    decide +kernel
  rcases Bool.or_eq_true_iff.1 h with hdecimal | hother
  · exact plain_of_isDecimal hdecimal
  · obtain ⟨range, hrange, hc⟩ := List.any_eq_true.1 hother
    simp only [Bool.and_eq_true, decide_eq_true_eq] at hc
    have hplain := hothers range hrange (c.toNat - range.1) (by omega)
    rwa [Nat.add_sub_of_le hc.1, Char.ofNat_toNat] at hplain

theorem plain_iff : isPlain c = true ↔ isBlank c = false ∧ c ≠ '-' ∧ c ≠ '+' ∧ c ≠ '_' := by
  simp [isPlain, and_assoc]

theorem not_isNumeralBlank_of_isPlain (h : isPlain c = true) : isNumeralBlank c = false := by
  rw [Bool.eq_false_iff]
  intro hblank
  exact Bool.noConfusion ((plain_iff.1 h).1.symm.trans (isBlank_of_isNumeralBlank hblank))

theorem not_isNumeralChar_of_isBlank (h : isBlank c = true) : isNumeralChar c = false := by
  unfold isNumeralChar
  rw [Bool.or_eq_false_iff]
  constructor
  · rw [Bool.eq_false_iff]
    intro hdecimal
    rw [(plain_iff.1 (plain_of_isDecimal hdecimal)).1] at h
    cases h
  · rw [beq_eq_false_iff_ne]
    rintro rfl
    exact absurd h (by decide)

end Characters

/-! ### Rows of digits -/

/-- Characters are decimal digits of the given values. -/
def HaveValues (digits : List Char) (values : List Nat) : Prop :=
  digits.map digitValue? = values.map some

section Rows

variable {digits : List Char} {values : List Nat}

theorem HaveValues.length_eq (h : HaveValues digits values) : values.length = digits.length := by
  simpa using (congrArg List.length h).symm

theorem HaveValues.isDecimal (h : HaveValues digits values) : ∀ c ∈ digits, isDecimal c = true := by
  intro c hc
  have hmem : digitValue? c ∈ values.map some := h ▸ List.mem_map_of_mem hc
  obtain ⟨v, -, hv⟩ := List.mem_map.1 hmem
  exact Option.isSome_iff_exists.2 ⟨v, hv.symm⟩

theorem exists_values (h : ∀ c ∈ digits, isDecimal c = true) :
    ∃ values, HaveValues digits values := by
  induction digits with
  | nil => exact ⟨[], rfl⟩
  | cons c rest ih =>
      obtain ⟨hc, hrest⟩ := List.forall_mem_cons.1 h
      obtain ⟨v, hv⟩ := Option.isSome_iff_exists.1 hc
      obtain ⟨values, hvalues⟩ := ih hrest
      exact ⟨v :: values, List.cons_eq_cons.2 ⟨hv, hvalues⟩⟩

theorem digitValues?_of_haveValues (h : HaveValues digits values) (hne : digits ≠ []) :
    digitValues? digits = some values := by
  induction digits generalizing values with
  | nil => exact absurd rfl hne
  | cons c rest ih =>
      cases values with
      | nil => cases h
      | cons v values =>
          obtain ⟨hv, hvalues⟩ := List.cons_eq_cons.1 h
          cases rest with
          | nil =>
              cases values with
              | nil => simp [digitValues?, hv]
              | cons => cases hvalues
          | cons c' rest =>
              have hc' : isDecimal c' = true :=
                HaveValues.isDecimal hvalues c' List.mem_cons_self
              have hscore : c' ≠ '_' := (plain_iff.1 (plain_of_isDecimal hc')).2.2.2
              have hrest : digitValues? (c' :: rest) = some values := ih hvalues (by simp)
              rw [digitValues?]
              · simp [hv, hrest]
              all_goals simp [hscore]

end Rows

/-! ### Reading -/

theorem splitSign_of_plain {cs : List Char} (h : ∀ c ∈ cs, isPlain c = true) :
    splitSign cs = (false, cs) := by
  cases cs with
  | nil => rfl
  | cons c rest =>
      obtain ⟨-, hminus, hplus, -⟩ := plain_iff.1 (h c List.mem_cons_self)
      unfold splitSign
      split
      · exact absurd (List.head_eq_of_cons_eq ‹_›) hminus
      · exact absurd (List.head_eq_of_cons_eq ‹_›) hplus
      · rfl

theorem mem_of_splitSign {cs : List Char} {c : Char} (hc : c ∈ cs) (hminus : c ≠ '-')
    (hplus : c ≠ '+') : c ∈ (splitSign cs).2 := by
  unfold splitSign
  split
  · exact (List.mem_cons.1 hc).resolve_left hminus
  · exact (List.mem_cons.1 hc).resolve_left hplus
  · exact hc

section Texts

variable {s : String} {before digits after : List Char}

/-- A sign and a row of decimal digits are read as the number that they spell, unless the row is too
long. -/
theorem readInteger_of_signed {values : List Nat} {negative : Bool}
    (hsplit : splitSign (trimBoth isNumeralBlank s.toList) = (negative, digits))
    (hvalues : HaveValues digits values) (hne : digits ≠ []) :
    readInteger s =
      if digitLimit < values.length then .error (.tooManyDigits values.length)
      else .ok (if negative then -(ofDigits values : Int) else ofDigits values) := by
  have hall : ∀ c ∈ digits, isNumeralChar c = true := fun c hc =>
    Bool.or_eq_true_iff.2 (Or.inl (hvalues.isDecimal c hc))
  unfold readInteger
  rw [hsplit]
  dsimp only
  rw [List.takeWhile_eq_self_iff.2 hall, digitValues?_of_haveValues hvalues hne,
    List.dropWhile_eq_nil_iff.2 hall]
  rfl

/-- A row of decimal digits with blanks around it is read as the number that it spells, unless it is
too long. -/
theorem readInteger_of_spelled {values : List Nat} (htext : s.toList = before ++ digits ++ after)
    (hbefore : ∀ c ∈ before, isNumeralBlank c = true)
    (hafter : ∀ c ∈ after, isNumeralBlank c = true) (hvalues : HaveValues digits values)
    (hne : digits ≠ []) :
    readInteger s =
      if digitLimit < values.length then .error (.tooManyDigits values.length)
      else .ok (ofDigits values) := by
  have hplain : ∀ c ∈ digits, isPlain c = true := fun c hc =>
    plain_of_isDecimal (hvalues.isDecimal c hc)
  have hkeep : ∀ c ∈ digits, isNumeralBlank c = false := fun c hc =>
    not_isNumeralBlank_of_isPlain (hplain c hc)
  have htrim : trimBoth isNumeralBlank s.toList = digits :=
    trimBoth_of_kept htext hbefore hafter hne hkeep
  have hsplit : splitSign (trimBoth isNumeralBlank s.toList) = (false, digits) := by
    rw [htrim, splitSign_of_plain hplain]
  exact readInteger_of_signed hsplit hvalues hne

/-- What is read consists of blanks, signs and numeral characters. -/
theorem mem_of_readInteger {n : Int} (h : readInteger s = .ok n) {c : Char} (hc : c ∈ s.toList) :
    isNumeralBlank c = true ∨ c = '-' ∨ c = '+' ∨ isNumeralChar c = true := by
  by_contra hother
  simp only [not_or, Bool.not_eq_true] at hother
  obtain ⟨hblank, hminus, hplus, hchar⟩ := hother
  have hbody := mem_of_splitSign (mem_trimBoth_of_not hc hblank) hminus hplus
  unfold readInteger at h
  generalize splitSign (trimBoth isNumeralBlank s.toList) = split at h hbody
  obtain ⟨negative, body⟩ := split
  have hrest : (body.dropWhile isNumeralChar).isEmpty = false := by
    rw [Bool.eq_false_iff]
    intro hempty
    have hall := List.dropWhile_eq_nil_iff.1 (List.isEmpty_iff.1 hempty)
    rw [hall c hbody] at hchar
    cases hchar
  dsimp only at h
  split at h
  · cases h
  · split at h
    · cases h
    · rw [hrest, if_neg Bool.false_ne_true] at h
      cases h

end Texts

/-! ### The plain decimal form -/

theorem digitValue?_digitChar {d : Nat} (h : d < 10) : digitValue? d.digitChar = some d := by
  have hall : ∀ d < 10, digitValue? (Nat.digitChar d) = some d := by decide
  exact hall d h

/-- The digits of a natural number spell it. -/
theorem exists_values_toDigits (n : Nat) :
    ∃ values, HaveValues (Nat.toDigits 10 n) values ∧ ofDigits values = n := by
  induction n using Nat.strongRecOn with
  | ind n ih =>
      by_cases hsmall : n < 10
      · refine ⟨[n], ?_, by simp [ofDigits]⟩
        unfold HaveValues
        rw [Nat.toDigits_of_lt_base hsmall, List.map_singleton, digitValue?_digitChar hsmall]
        rfl
      · obtain ⟨values, hvalues, hvalue⟩ := ih (n / 10) (by omega)
        refine ⟨values ++ [n % 10], ?_, ?_⟩
        · unfold HaveValues
          rw [Nat.toDigits_of_base_le (by omega) (by omega), List.map_append, List.map_append,
            hvalues, List.map_singleton, digitValue?_digitChar (Nat.mod_lt n (by omega))]
          rfl
        · rw [ofDigits_append_singleton, hvalue]
          omega

theorem toList_integerText (n : Int) :
    (integerText n).toList = (if n < 0 then ['-'] else []) ++ Nat.toDigits 10 n.natAbs := by
  cases n with
  | ofNat n =>
      rw [if_neg (by simp)]
      simp [integerText, naturalText]
  | negSucc n =>
      rw [if_pos (Int.negSucc_lt_zero n)]
      simp [integerText, naturalText]

/-- A decimal text is a sign, if the number is negative, and digits. -/
theorem splitSign_integerText (n : Int) :
    splitSign (trimBoth isNumeralBlank (integerText n).toList) =
      (decide (n < 0), Nat.toDigits 10 n.natAbs) := by
  obtain ⟨values, hvalues, -⟩ := exists_values_toDigits n.natAbs
  have hplain : ∀ c ∈ Nat.toDigits 10 n.natAbs, isPlain c = true := fun c hc =>
    plain_of_isDecimal (hvalues.isDecimal c hc)
  have hkeep : ∀ c ∈ (integerText n).toList, isNumeralBlank c = false := by
    intro c hc
    rw [toList_integerText, List.mem_append] at hc
    rcases hc with hsign | hdigit
    · obtain rfl : c = '-' := by
        split at hsign
        · exact List.mem_singleton.1 hsign
        · cases hsign
      decide
    · exact not_isNumeralBlank_of_isPlain (hplain c hdigit)
  have hne : (integerText n).toList ≠ [] := by
    rw [toList_integerText]
    exact List.append_ne_nil_of_right_ne_nil _ Nat.toDigits_ne_nil
  have hwhole : (integerText n).toList = [] ++ (integerText n).toList ++ [] := by simp
  rw [trimBoth_of_kept hwhole nofun nofun hne hkeep, toList_integerText]
  by_cases hneg : n < 0
  · rw [if_pos hneg, decide_eq_true hneg]
    rfl
  · rw [if_neg hneg, decide_eq_false hneg, List.nil_append, splitSign_of_plain hplain]

/-- The decimal text of a whole number is read as that number, unless it is too long. -/
theorem readInteger_integerText (n : Int) :
    readInteger (integerText n) =
      if n.natAbs < 10 ^ digitLimit then .ok n
      else .error (.tooManyDigits (Nat.toDigits 10 n.natAbs).length) := by
  obtain ⟨values, hvalues, hvalue⟩ := exists_values_toDigits n.natAbs
  have hsigned : (if decide (n < 0) = true then -(n.natAbs : Int) else n.natAbs) = n := by
    simp only [decide_eq_true_eq]
    split <;> omega
  rw [readInteger_of_signed (splitSign_integerText n) hvalues Nat.toDigits_ne_nil,
    hvalues.length_eq, hvalue, hsigned]
  have hlength : (Nat.toDigits 10 n.natAbs).length ≤ digitLimit ↔ n.natAbs < 10 ^ digitLimit :=
    Nat.length_toDigits_le_iff (by decide) (by decide)
  by_cases hshort : n.natAbs < 10 ^ digitLimit
  · rw [if_pos hshort, if_neg (Nat.not_lt.2 (hlength.2 hshort))]
  · rw [if_neg hshort, if_pos (Nat.lt_of_not_le (mt hlength.1 hshort))]

end Editorial.Number
