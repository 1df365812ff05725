import Editorial.Json.Basic
import Editorial.Number.Shortest
import Editorial.Text.Quoted

/-!
# JSON text of a value

`write` lays a value out on one line, with a blank after each comma and colon. Characters outside
ASCII stand as they are; the quote, the backslash and control characters are escaped.
-/

namespace Editorial.Json

open Number Text

/-- A character inside a JSON text. -/
def escape (c : Char) : List Char :=
  if c = '"' || c = '\\' then ['\\', c]
  else if c = '\n' then ['\\', 'n']
  else if c = '\r' then ['\\', 'r']
  else if c = '\t' then ['\\', 't']
  else if c.toNat = 8 then ['\\', 'b']
  else if c.toNat = 12 then ['\\', 'f']
  else if c.toNat < 0x20 then '\\' :: 'u' :: hexDigits 4 c.toNat
  else [c]

/-- A piece inside a JSON text: a half character is escaped by number. -/
def escapePiece : Piece → List Char
  | .char c => escape c
  | .half n => '\\' :: 'u' :: hexDigits 4 n

/-- A text between double quotes. -/
def writeText (w : Wording) : String :=
  "\"" ++ String.ofList (w.pieces.flatMap escapePiece) ++ "\""

/-- A binary fraction; the infinities and the value that is no number have words of their own. -/
def writeFloat : Binary → String
  | .infinite negative => Binary.signText negative ++ "Infinity"
  | .nan => "NaN"
  | x => x.text

mutual

/-- The JSON text of a value. -/
def write : Json → String
  | null => "null"
  | bool b => if b then "true" else "false"
  | int n => integerText n
  | float x => writeFloat x
  | text w => writeText w
  | array items => "[" ++ writeItems items ++ "]"
  | object fields => "\x7b" ++ writeFields fields ++ "\x7d"

/-- The items of an array. -/
def writeItems : List Json → String
  | [] => ""
  | [v] => write v
  | v :: vs => write v ++ ", " ++ writeItems vs

/-- The fields of an object. -/
def writeFields : List (Wording × Json) → String
  | [] => ""
  | [(k, v)] => writeText k ++ ": " ++ write v
  | (k, v) :: fs => writeText k ++ ": " ++ write v ++ ", " ++ writeFields fs

end

end Editorial.Json
