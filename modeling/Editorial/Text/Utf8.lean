/-!
# UTF-8

Text from bytes. A byte that cannot stand where it stands is replaced by the replacement character;
of a sequence that breaks off, everything up to the break is replaced by one.
-/

namespace Editorial.Text

/-- The character that stands for bytes that are no character. -/
def replacement : Char := Char.ofNat 0xFFFD

/-- What is expected after the first bytes of a sequence: the number of bytes still to come, the
bounds of the next one, and the bits read so far. -/
structure Sequence where
  missing : Nat
  low : Nat
  high : Nat
  bits : Nat
  deriving DecidableEq, Repr

/-- What the first byte of a sequence of several bytes announces. The bounds of the second byte
exclude overlong forms, surrogates and what lies beyond the last character. -/
def Sequence.ofLead? (b : Nat) : Option Sequence :=
  if 0xC2 ≤ b && b ≤ 0xDF then some ⟨1, 0x80, 0xBF, b - 0xC0⟩
  else if b = 0xE0 then some ⟨2, 0xA0, 0xBF, 0⟩
  else if b = 0xED then some ⟨2, 0x80, 0x9F, 0xD⟩
  else if 0xE1 ≤ b && b ≤ 0xEF then some ⟨2, 0x80, 0xBF, b - 0xE0⟩
  else if b = 0xF0 then some ⟨3, 0x90, 0xBF, 0⟩
  else if 0xF1 ≤ b && b ≤ 0xF3 then some ⟨3, 0x80, 0xBF, b - 0xF0⟩
  else if b = 0xF4 then some ⟨3, 0x80, 0x8F, 4⟩
  else none

/-- What a byte at the start of a character gives: a character, or a sequence that has begun. -/
def startCharacter (b : Nat) : List Char × Option Sequence :=
  if b < 0x80 then ([Char.ofNat b], none)
  else
    match Sequence.ofLead? b with
    | some s => ([], some s)
    | none => ([replacement], none)

/-- What a byte gives after a sequence that may have begun. -/
def continueCharacter (b : Nat) : Option Sequence → List Char × Option Sequence
  | none => startCharacter b
  | some s =>
      if s.low ≤ b && b ≤ s.high then
        let bits := 64 * s.bits + (b - 0x80)
        if s.missing ≤ 1 then ([Char.ofNat bits], none)
        else ([], some ⟨s.missing - 1, 0x80, 0xBF, bits⟩)
      else
        let (cs, next) := startCharacter b
        (replacement :: cs, next)

/-- The characters of bytes after a sequence that may have begun. -/
def decodeFrom (pending : Option Sequence) : List Nat → List Char
  | [] => if pending.isSome then [replacement] else []
  | b :: rest =>
      let (cs, next) := continueCharacter b pending
      cs ++ decodeFrom next rest

/-- The characters of bytes. -/
def decodeUtf8 (bytes : List Nat) : List Char := decodeFrom none bytes

end Editorial.Text
