import Editorial.Json.Basic
import Editorial.Number.Numeral

/-!
# Reading JSON text

`read` takes a whole text: one value with blanks around it. Besides the standard's grammar it takes
the words `NaN`, `Infinity` and `-Infinity` as numbers. Of two fields with one name the later value
counts. A whole number with more digits than a numeral may have is refused, and so is a value nested
too deep, which is told apart from a text that is malformed before it gets that deep.

Each reading function returns what it read and the rest of the text. Those for values, items and
fields call each other; the length of the text bounds the number of their calls.
-/

namespace Editorial.Json

open Number Text

/-- The text without the blanks in front of it. -/
def skipBlanks (ps : List Piece) : List Piece :=
  ps.dropWhile fun p => p = .char ' ' || p = .char '\t' || p = .char '\n' || p = .char '\r'

/-- The value of a hexadecimal digit. -/
def hexValue? (p : Piece) : Option Nat :=
  let n := p.number
  if 0x30 ≤ n ∧ n ≤ 0x39 then some (n - 0x30)
  else if 0x61 ≤ n ∧ n ≤ 0x66 then some (n - 0x57)
  else if 0x41 ≤ n ∧ n ≤ 0x46 then some (n - 0x37)
  else none

/-- The number of four hexadecimal digits, and the rest. -/
def readHex? : List Piece → Option (Nat × List Piece)
  | a :: b :: c :: d :: rest => do
      let a ← hexValue? a
      let b ← hexValue? b
      let c ← hexValue? c
      let d ← hexValue? d
      return (((a * 16 + b) * 16 + c) * 16 + d, rest)
  | _ => none

/-- The piece of an escape by number, given the number and what follows it: a surrogate that begins
a pair takes along an escape of one that ends it. -/
def readSurrogates (n : Nat) (rest : List Piece) : Piece × List Piece :=
  match isHigh n, rest with
  | true, .char '\\' :: .char 'u' :: more =>
      match readHex? more with
      | some (low, after) =>
          if isLow low then (.char (joinPair n low), after) else (.half n, rest)
      | none => (.half n, rest)
  | _, _ => (.ofNat n, rest)

/-- The character of a short escape. -/
def shortEscape? : Piece → Option Char
  | .char '"' => some '"'
  | .char '\\' => some '\\'
  | .char '/' => some '/'
  | .char 'b' => some (Char.ofNat 8)
  | .char 'f' => some (Char.ofNat 12)
  | .char 'n' => some '\n'
  | .char 'r' => some '\r'
  | .char 't' => some '\t'
  | _ => none

/-- The rest of a text after its opening quote; `acc` holds the pieces so far, last one first.
Control characters are refused. The fuel bounds the number of pieces. -/
def readText? : Nat → List Piece → List Piece → Option (List Piece × List Piece)
  | 0, _, _ => none
  | _ + 1, [], _ => none
  | _ + 1, .char '"' :: rest, acc => some (acc.reverse, rest)
  | fuel + 1, .char '\\' :: .char 'u' :: rest, acc =>
      match readHex? rest with
      | some (n, rest) =>
          let (p, rest) := readSurrogates n rest
          readText? fuel rest (p :: acc)
      | none => none
  | fuel + 1, .char '\\' :: e :: rest, acc =>
      match shortEscape? e with
      | some c => readText? fuel rest (.char c :: acc)
      | none => none
  | fuel + 1, p :: rest, acc =>
      if p.number < 0x20 ∨ p = .char '\\' then none else readText? fuel rest (p :: acc)

/-- A plain decimal digit. -/
def isPlainDigit (p : Piece) : Bool :=
  0x30 ≤ p.number && p.number ≤ 0x39

/-- The value of a run of plain digits. -/
def plainValue (ds : List Piece) : Nat :=
  ofDigits (ds.map fun d => d.number - 0x30)

/-- The fraction digits of a number, if a point with digits follows. -/
def readFraction : List Piece → Option (List Piece) × List Piece
  | .char '.' :: rest =>
      let ds := rest.takeWhile isPlainDigit
      if ds.isEmpty then (none, .char '.' :: rest) else (some ds, rest.dropWhile isPlainDigit)
  | rest => (none, rest)

/-- Whether an exponent has a minus in front, and the rest. -/
def readSign : List Piece → Bool × List Piece
  | .char '-' :: rest => (true, rest)
  | .char '+' :: rest => (false, rest)
  | rest => (false, rest)

/-- The exponent of a number, if a mark with digits follows. -/
def readExponent : List Piece → Option Int × List Piece
  | [] => (none, [])
  | e :: rest =>
      if e = .char 'e' ∨ e = .char 'E' then
        let (negative, body) := readSign rest
        let ds := body.takeWhile isPlainDigit
        if ds.isEmpty then (none, e :: rest)
        else
          let n : Int := plainValue ds
          (some (if negative then -n else n), body.dropWhile isPlainDigit)
      else (none, e :: rest)

/-- A number without its sign. -/
def readMagnitude? (negative : Bool) (ps : List Piece) : Option (Json × List Piece) :=
  let run := ps.takeWhile isPlainDigit
  let whole := if run.head? = some (.char '0') then run.take 1 else run
  if whole.isEmpty then none
  else
    let (fraction, rest) := readFraction (ps.drop whole.length)
    let (exponent, rest) := readExponent rest
    match fraction, exponent with
    | none, none =>
        if whole.length > digitLimit then none
        else
          let n : Int := plainValue whole
          some (int (if negative then -n else n), rest)
    | _, _ =>
        let places := fraction.getD []
        let power := exponent.getD 0 - places.length
        some (float (Binary.ofDecimal negative (plainValue (whole ++ places)) power), rest)

/-- The rest of a text after a word that it begins with. -/
def afterWord? (word : Wording) (ps : List Piece) : Option (List Piece) :=
  if word.pieces.isPrefixOf ps then some (ps.drop word.pieces.length) else none

/-- The words that are values. -/
def words : List (String × Json) :=
  [("null", null), ("true", bool true), ("false", bool false), ("NaN", float .nan),
    ("Infinity", float (.infinite false)), ("-Infinity", float (.infinite true))]

/-- A word that is a value, or a number. -/
def readAtom? (ps : List Piece) : Option (Json × List Piece) :=
  match words.findSome? fun w => (afterWord? w.1 ps).map fun rest => (w.2, rest) with
  | some found => some found
  | none =>
      match ps with
      | .char '-' :: rest => readMagnitude? true rest
      | _ => readMagnitude? false ps

/-- Why a text is not read. -/
inductive ReadError where
  | malformed
  /-- Arrays and objects are nested deeper than they may be. -/
  | tooDeep
  deriving DecidableEq, Repr

/-- A result that is malformed when there is none. -/
def orMalformed {α : Type} : Option α → Except ReadError α
  | some a => .ok a
  | none => .error .malformed

mutual

/-- A value, in which arrays and objects may be nested `depth` deep. -/
def readValue : (fuel depth : Nat) → List Piece → Except ReadError (Json × List Piece)
  | 0, _, _ => .error .malformed
  | fuel + 1, depth, ps =>
      match ps, depth with
      | .char '"' :: rest, _ =>
          orMalformed <|
            (readText? (rest.length + 1) rest []).map fun r => (text (.ofPieces r.1), r.2)
      | .char '[' :: _, 0 => .error .tooDeep
      | .char '[' :: rest, depth + 1 =>
          match skipBlanks rest with
          | .char ']' :: rest => .ok (array [], rest)
          | rest => (readItems fuel depth rest []).map fun r => (array r.1, r.2)
      | .char '\x7b' :: _, 0 => .error .tooDeep
      | .char '\x7b' :: rest, depth + 1 =>
          match skipBlanks rest with
          | .char '\x7d' :: rest => .ok (object [], rest)
          | rest => (readFields fuel depth rest []).map fun r => (ofFields r.1, r.2)
      | _, _ => orMalformed (readAtom? ps)

/-- The items of an array from the first one on, up to its closing bracket. -/
def readItems : (fuel depth : Nat) → List Piece → List Json →
    Except ReadError (List Json × List Piece)
  | 0, _, _, _ => .error .malformed
  | fuel + 1, depth, ps, acc =>
      match readValue fuel depth ps with
      | .error e => .error e
      | .ok (v, rest) =>
          match skipBlanks rest with
          | .char ',' :: rest => readItems fuel depth (skipBlanks rest) (v :: acc)
          | .char ']' :: rest => .ok ((v :: acc).reverse, rest)
          | _ => .error .malformed

/-- The fields of an object from the first one on, up to its closing brace. -/
def readFields : (fuel depth : Nat) → List Piece → Fields → Except ReadError (Fields × List Piece)
  | 0, _, _, _ => .error .malformed
  | fuel + 1, depth, ps, acc =>
      match ps with
      | .char '"' :: rest =>
          match readText? (rest.length + 1) rest [] with
          | none => .error .malformed
          | some (name, rest) =>
              match skipBlanks rest with
              | .char ':' :: rest =>
                  match readValue fuel depth (skipBlanks rest) with
                  | .error e => .error e
                  | .ok (v, rest) =>
                      let acc := (.ofPieces name, v) :: acc
                      match skipBlanks rest with
                      | .char ',' :: rest => readFields fuel depth (skipBlanks rest) acc
                      | .char '\x7d' :: rest => .ok (acc.reverse, rest)
                      | _ => .error .malformed
              | _ => .error .malformed
      | _ => .error .malformed

end

/-- Reads a whole text as one value, in which arrays and objects may be nested `depth` deep. -/
def read (depth : Nat) (ps : List Piece) : Except ReadError Json :=
  match readValue (2 * ps.length + 2) depth (skipBlanks ps) with
  | .ok (v, rest) => if (skipBlanks rest).isEmpty then .ok v else .error .malformed
  | .error e => .error e

end Editorial.Json
