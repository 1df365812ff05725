import Editorial.Text.Piece

/-!
# Blank characters

The characters that count as blank around a name, and `strip`, which removes them from both ends of
a text. A name is acceptable when it is not blank, and it is kept stripped.
-/

namespace Editorial.Text

/-- The blank characters: the white-space characters of the standard together with the four
information separators, and no zero-width character. -/
def isBlank (c : Char) : Bool :=
  let n := c.toNat
  (0x09 ≤ n && n ≤ 0x0D) || (0x1C ≤ n && n ≤ 0x20) || n == 0x85 || n == 0xA0 || n == 0x1680 ||
    (0x2000 ≤ n && n ≤ 0x200A) || n == 0x2028 || n == 0x2029 || n == 0x202F || n == 0x205F ||
    n == 0x3000

/-- The blank characters that may surround a numeral: the information separators are not among
them. -/
def isNumeralBlank (c : Char) : Bool :=
  isBlank c && !(0x1C ≤ c.toNat && c.toNat ≤ 0x1F)

/-- A list without the elements at either end that satisfy `p`. -/
def trimBoth {α : Type} (p : α → Bool) (l : List α) : List α :=
  (((l.dropWhile p).reverse).dropWhile p).reverse

/-- A text without the blanks at its ends. -/
def strip (s : String) : String :=
  String.ofList (trimBoth isBlank s.toList)

/-- A half character is not blank. -/
def Piece.isBlank : Piece → Bool
  | char c => Text.isBlank c
  | half _ => false

namespace Wording

/-- A text without the blanks at its ends. -/
def strip : Wording → Wording
  | whole s => whole (Text.strip s)
  | torn ps => torn (trimBoth Piece.isBlank ps)

/-- A text that holds nothing but blanks. -/
def isBlank (w : Wording) : Bool :=
  w.pieces.all Piece.isBlank

end Wording

/-! ### Lemmas -/

theorem isBlank_of_isNumeralBlank {c : Char} (h : isNumeralBlank c = true) : isBlank c = true := by
  unfold isNumeralBlank at h
  simp only [Bool.and_eq_true] at h
  exact h.1

end Editorial.Text
