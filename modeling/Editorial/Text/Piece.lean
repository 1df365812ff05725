/-!
# Texts with half characters

A character beyond the first 65536 is written as a pair of surrogates in units of two bytes. Where
one surrogate of a pair is missing, the other one is no character of its own, but it still is a part
of the text. A `Piece` is a character or such a half, and a `Wording` a text of pieces; one with a
half in it can be compared and quoted, but it has no UTF-8 form and hence cannot be stored.
-/

namespace Editorial.Text

/-- A character, or a surrogate without its partner. -/
inductive Piece where
  | char (c : Char)
  | half (n : Nat)
  deriving DecidableEq, Repr

/-- Whether a number is that of a surrogate that begins a pair. -/
def isHigh (n : Nat) : Bool := 0xD800 ≤ n && n ≤ 0xDBFF

/-- Whether a number is that of a surrogate that ends a pair. -/
def isLow (n : Nat) : Bool := 0xDC00 ≤ n && n ≤ 0xDFFF

/-- The character of a pair of surrogates. -/
def joinPair (high low : Nat) : Char :=
  Char.ofNat (0x10000 + (high - 0xD800) * 0x400 + (low - 0xDC00))

namespace Piece

/-- The piece with a number. -/
def ofNat (n : Nat) : Piece :=
  if isHigh n || isLow n then half n else char (Char.ofNat n)

/-- The number of a piece. -/
def number : Piece → Nat
  | char c => c.toNat
  | half n => n

/-- The character that a piece is. -/
def char? : Piece → Option Char
  | char c => some c
  | half _ => none

/-- The character that is shown for a piece: the replacement character for a half. -/
def shown : Piece → Char
  | char c => c
  | half _ => Char.ofNat 0xFFFD

end Piece

/-- The text that pieces make, if all of them are characters. -/
def wholeText? (ps : List Piece) : Option String :=
  (ps.mapM Piece.char?).map String.ofList

/-- A text in which half characters may stand: an ordinary text, or the pieces of one with a half in
it. -/
inductive Wording where
  | whole (s : String)
  | torn (pieces : List Piece)
  deriving DecidableEq, Repr, Inhabited

/-- Every ordinary text is one without halves. -/
instance : Coe String Wording := ⟨.whole⟩

namespace Wording

/-- The text that pieces make. -/
def ofPieces (ps : List Piece) : Wording :=
  match wholeText? ps with
  | some s => whole s
  | none => torn ps

/-- The pieces of a text. -/
def pieces : Wording → List Piece
  | whole s => s.toList.map .char
  | torn ps => ps

/-- Whether a text has half characters in it, so that it cannot be stored. -/
def isTorn : Wording → Bool
  | whole _ => false
  | torn _ => true

/-- The ordinary text that is shown for a text. -/
def shown : Wording → String
  | whole s => s
  | torn ps => String.ofList (ps.map Piece.shown)

/-- The order of texts by the numbers of their pieces. -/
def before (a b : Wording) : Bool :=
  decide (a.pieces.map Piece.number < b.pieces.map Piece.number)

end Wording

/-- The pieces that units of two bytes make: a surrogate joins the one after it where they are a
pair. -/
def piecesOfUnits : List Nat → List Piece
  | [] => []
  | [n] => [.ofNat n]
  | high :: low :: rest =>
      if isHigh high && isLow low then .char (joinPair high low) :: piecesOfUnits rest
      else .ofNat high :: piecesOfUnits (low :: rest)

end Editorial.Text
