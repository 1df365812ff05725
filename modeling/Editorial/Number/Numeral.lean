import Editorial.Text.Blank
import Editorial.Text.Digit
import Editorial.Text.Quoted

/-!
# Numerals

Whole numbers written as text. `readInteger` takes a numeral with surrounding blanks, one sign,
digits of any script and single underscores between digits. `integerText` is the plain decimal
form. A numeral of more than `digitLimit` digits is refused.
-/

namespace Editorial.Number

open Editorial.Text

/-- Why a text is no whole number. -/
inductive NumeralError where
  /-- The text is not a numeral; `shown` is how the message quotes it. -/
  | notANumeral (shown : String)
  /-- The numeral has more digits than are read. -/
  | tooManyDigits (count : Nat)
  deriving DecidableEq, Repr

/-- The greatest number of digits of a numeral that is read. -/
def digitLimit : Nat := 4300

/-- The number of characters of a quoted text that a message about it shows. -/
def shownLimit : Nat := 200

/-- The values of the digits of a numeral without sign, where single underscores may stand between
two digits. -/
def digitValues? : List Char → Option (List Nat)
  | [] => none
  | [c] => (digitValue? c).map ([·])
  | c :: '_' :: rest => do
      let d ← digitValue? c
      let ds ← digitValues? rest
      return d :: ds
  | c :: rest => do
      let d ← digitValue? c
      let ds ← digitValues? rest
      return d :: ds

/-- The number that a list of decimal digits denotes, most significant digit first. -/
def ofDigits (ds : List Nat) : Nat :=
  ds.foldl (fun n d => 10 * n + d) 0

/-- A sign and what follows it: whether the number is negative, and the rest. -/
def splitSign : List Char → Bool × List Char
  | '-' :: rest => (true, rest)
  | '+' :: rest => (false, rest)
  | rest => (false, rest)

/-- Whether a character can stand among the digits of a numeral. -/
def isNumeralChar (c : Char) : Bool :=
  isDecimal c || c == '_'

/-- The refusal of a text that is no numeral. -/
def notANumeral (s : Wording) : NumeralError :=
  .notANumeral (String.ofList ((quoted s).toList.take shownLimit))

/-- Reads a whole number. Too many digits in a row are refused before anybody looks at what comes
after them. -/
def readInteger (s : String) : Except NumeralError Int :=
  let (negative, body) := splitSign (trimBoth isNumeralBlank s.toList)
  match digitValues? (body.takeWhile isNumeralChar) with
  | none => .error (notANumeral s)
  | some ds =>
      if ds.length > digitLimit then .error (.tooManyDigits ds.length)
      else if (body.dropWhile isNumeralChar).isEmpty then
        .ok (if negative then -(ofDigits ds : Int) else ofDigits ds)
      else .error (notANumeral s)

/-- The decimal digits of a natural number. -/
def naturalText (n : Nat) : String :=
  String.ofList (Nat.toDigits 10 n)

/-- The decimal text of a whole number. -/
def integerText : Int → String
  | .ofNat n => naturalText n
  | .negSucc n => "-" ++ naturalText (n + 1)

/-! ### Lemmas -/

theorem ofDigits_append_singleton (ds : List Nat) (d : Nat) :
    ofDigits (ds ++ [d]) = 10 * ofDigits ds + d := by
  simp [ofDigits]

end Editorial.Number
