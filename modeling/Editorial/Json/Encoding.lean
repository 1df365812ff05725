import Editorial.Text.Piece

/-!
# Encodings of a JSON text

The bytes of a JSON text are UTF-8, or units of two or four bytes with either the high or the low
byte in front. A JSON text begins with an ASCII character, so the zeros among its first bytes tell
which (`Encoding.ofBytes`). Half characters may stand anywhere in units. Units of two bytes join to
a character where they are a pair, units of four bytes never do.
-/

namespace Editorial.Json

open Text

/-- How the characters of a JSON text are laid down in bytes. -/
inductive Encoding where
  | utf8
  /-- Units of two bytes. -/
  | utf16 (highFirst : Bool)
  /-- Units of four bytes. -/
  | utf32 (highFirst : Bool)
  deriving DecidableEq, Repr

/-- The encoding that the first bytes and their number show. -/
def Encoding.ofBytes : List Nat → Encoding
  | 0 :: 0 :: _ :: _ :: _ => .utf32 true
  | 0 :: _ :: _ :: _ :: _ => .utf16 true
  | _ :: 0 :: 0 :: 0 :: _ => .utf32 false
  | _ :: 0 :: _ :: _ :: _ => .utf16 false
  | [0, _] => .utf16 true
  | [_, 0] => .utf16 false
  | _ => .utf8

/-- The number that bytes make, the high one in front. -/
def unitOf (bytes : List Nat) : Nat :=
  bytes.foldl (fun n b => 256 * n + b) 0

/-- The units of two bytes, if the bytes can be divided into them. -/
def units16? (highFirst : Bool) : List Nat → Option (List Nat)
  | [] => some []
  | [_] => none
  | a :: b :: rest =>
      (units16? highFirst rest).map (unitOf (if highFirst then [a, b] else [b, a]) :: ·)

/-- The units of four bytes, if the bytes can be divided into them. -/
def units32? (highFirst : Bool) : List Nat → Option (List Nat)
  | [] => some []
  | a :: b :: c :: d :: rest =>
      (units32? highFirst rest).map
        (unitOf (if highFirst then [a, b, c, d] else [d, c, b, a]) :: ·)
  | _ => none

/-- The piece with a number, if there is one. -/
def piece? (n : Nat) : Option Piece :=
  if n < 0x110000 then some (.ofNat n) else none

/-- The pieces of a JSON text that arrives as the UTF-8 bytes of `s`: a byte order mark in front is
skipped, and zeros among the first bytes show that the bytes are of another encoding. Nothing when
the bytes do not fit the encoding. -/
def piecesOf? (s : String) : Option (List Piece) :=
  match s.toList with
  | [] => some []
  | c :: rest =>
      if c.toNat = 0xFEFF then some (rest.map .char)
      else
        let bytes := s.toUTF8.toList.map UInt8.toNat
        match Encoding.ofBytes bytes with
        | .utf8 => some ((c :: rest).map .char)
        | .utf16 highFirst => (units16? highFirst bytes).map piecesOfUnits
        | .utf32 highFirst => (units32? highFirst bytes).bind fun units => units.mapM piece?

end Editorial.Json
