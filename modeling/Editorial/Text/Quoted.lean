import Editorial.Text.Piece
import Editorial.Text.Printable

/-!
# Quoted texts

How a text is shown inside a message: between single quotes, or between double quotes when it holds
a single quote and no double one. The quote in use, the backslash and every character that is not
printable are escaped; an escape by number has two, four or eight lower-case hexadecimal digits.
-/

namespace Editorial.Text

/-- The lower-case hexadecimal digit of a number below sixteen. -/
def hexDigit (n : Nat) : Char :=
  if n < 10 then Char.ofNat (0x30 + n) else Char.ofNat (0x57 + n)

/-- The last `width` hexadecimal digits of a number. -/
def hexDigits : Nat → Nat → List Char
  | 0, _ => []
  | width + 1, n => hexDigits width (n / 16) ++ [hexDigit (n % 16)]

/-- The quote that surrounds a text: the double one only where it spares an escape. -/
def quoteFor (s : List Char) : Char :=
  if s.contains '\'' && !s.contains '"' then '"' else '\''

/-- A character inside a text quoted by `quote`. -/
def escapeQuoted (quote c : Char) : List Char :=
  if c = quote || c = '\\' then ['\\', c]
  else if c = '\n' then ['\\', 'n']
  else if c = '\r' then ['\\', 'r']
  else if c = '\t' then ['\\', 't']
  else if isPrintable c then [c]
  else if c.toNat < 0x100 then '\\' :: 'x' :: hexDigits 2 c.toNat
  else if c.toNat < 0x10000 then '\\' :: 'u' :: hexDigits 4 c.toNat
  else '\\' :: 'U' :: hexDigits 8 c.toNat

/-- A piece inside a text quoted by `quote`: a half character is escaped by number. -/
def quotedPiece (quote : Char) : Piece → List Char
  | .char c => escapeQuoted quote c
  | .half n => '\\' :: 'u' :: hexDigits 4 n

/-- A text as it is shown inside a message. -/
def quoted (w : Wording) : String :=
  let quote := quoteFor w.shown.toList
  String.ofList (quote :: w.pieces.flatMap (quotedPiece quote) ++ [quote])

end Editorial.Text
