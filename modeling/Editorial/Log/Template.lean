import Editorial.Json.Whole
import Editorial.Number.Places

/-!
# Message templates

A template is a text with places for arguments, each begun by a percent sign: `%s` takes any value,
`%d` a whole number, and `%%` is a percent sign. A place may also name a field of the arguments,
have flags, a width and a precision, and be of a kind for other bases or for fractions. `parts`
divides a template into its parts, and `fill` fills in the arguments from left to right, up to the
first part that does not fit them (`TemplateError`).
-/

namespace Editorial.Log

open Json Number Text

/-! ### Parts of a template -/

/-- The field that a place names. -/
inductive FieldName where
  | named (name : List Char)
  /-- A name without closing parenthesis. -/
  | unclosed
  deriving DecidableEq, Repr

/-- A width or a precision. -/
inductive Extent where
  | absent
  | given (n : Nat)
  /-- The next argument gives it. -/
  | asked
  deriving DecidableEq, Repr

/-- What an extent measures. -/
inductive Dimension where
  | width
  | precision
  deriving DecidableEq, Repr

/-- The bound below which an extent can be counted to. -/
def Dimension.bound : Dimension → Nat
  | .width => Nat.pow 2 63
  | .precision => Nat.pow 2 31

/-- Whether an argument can give an extent. -/
def Dimension.holds (d : Dimension) (n : Int) : Bool := -d.bound ≤ n && n < d.bound

/-- A place for an argument. -/
structure Conversion where
  field : Option FieldName
  /-- The characters that stand for flags. -/
  flags : List Char
  width : Extent
  precision : Extent
  /-- The character that says what the place takes, with its index in the template; nothing when
  the template ends before it. -/
  kind : Option (Char × Nat)
  deriving DecidableEq, Repr

/-- A part of a template. -/
inductive Part where
  | literal (c : Char)
  | place (c : Conversion)
  deriving DecidableEq, Repr

/-- The name up to the parenthesis that closes it, and the rest; `depth` parentheses are open. -/
def readName : (depth : Nat) → List Char → FieldName × List Char
  | _, [] => (.unclosed, [])
  | depth, c :: rest =>
      if c = ')' ∧ depth = 0 then (.named [], rest)
      else
        let inner := if c = ')' then depth - 1 else if c = '(' then depth + 1 else depth
        match readName inner rest with
        | (.named name, rest) => (.named (c :: name), rest)
        | unclosed => unclosed

/-- The field that a place names, if it names one, and the rest. -/
def readField : List Char → Option FieldName × List Char
  | '(' :: rest =>
      let (name, rest) := readName 0 rest
      (some name, rest)
  | rest => (none, rest)

/-- A plain decimal digit. -/
def isDigitChar (c : Char) : Bool := '0' ≤ c && c ≤ '9'

/-- A width or a precision, and the rest. -/
def readExtent : List Char → Extent × List Char
  | '*' :: rest => (.asked, rest)
  | cs =>
      let digits := cs.takeWhile isDigitChar
      if digits.isEmpty then (.absent, cs)
      else (.given (ofDigits (digits.map fun c => c.toNat - 0x30)), cs.dropWhile isDigitChar)

/-- A precision after its point, and the rest. Without digits it is zero. -/
def readPrecision : List Char → Extent × List Char
  | '.' :: rest =>
      match readExtent rest with
      | (.absent, rest) => (.given 0, rest)
      | found => found
  | rest => (.absent, rest)

/-- The text without the letter in front that says how long a number is. -/
def skipLength : List Char → List Char
  | [] => []
  | c :: rest => if c = 'h' ∨ c = 'l' ∨ c = 'L' then rest else c :: rest

/-- A place after its percent sign, and the rest. The first argument is the length of the
template. -/
def readConversion (length : Nat) (cs : List Char) : Conversion × List Char :=
  let (field, cs) := readField cs
  let isFlag (c : Char) : Bool := "-+ #0".toList.contains c
  let flags := cs.takeWhile isFlag
  let (width, cs) := readExtent (cs.dropWhile isFlag)
  let (precision, cs) := readPrecision cs
  match skipLength cs with
  | [] => (⟨field, flags, width, precision, none⟩, [])
  | c :: rest => (⟨field, flags, width, precision, some (c, length - rest.length - 1)⟩, rest)

/-- The parts of the rest of a template of that length. The fuel bounds the number of characters. -/
def partsFrom (length : Nat) : (fuel : Nat) → List Char → List Part
  | 0, _ => []
  | _ + 1, [] => []
  | fuel + 1, '%' :: '%' :: rest => .literal '%' :: partsFrom length fuel rest
  | fuel + 1, '%' :: rest =>
      let (conversion, rest) := readConversion length rest
      .place conversion :: partsFrom length fuel rest
  | fuel + 1, c :: rest => .literal c :: partsFrom length fuel rest

/-- The parts of a template. -/
def parts (template : String) : List Part :=
  partsFrom template.length template.length template.toList

/-! ### Filling in -/

/-- Why arguments do not fit a template. -/
inductive TemplateError where
  /-- The template has places for more arguments than there are. -/
  | missingArgument
  /-- An argument has no place in the template. -/
  | spareArgument
  /-- The template ends within a place. -/
  | incomplete
  /-- The name of a field is not closed. -/
  | incompleteName
  /-- A field is named, but the arguments are no fields. -/
  | noFields
  | missingField (name : String)
  /-- The argument for a width or a precision is no whole number. -/
  | notAnExtent
  /-- A width or a precision beyond its bound, in the template itself or as an argument. -/
  | hugeExtent (dimension : Dimension) (asked : Bool)
  /-- A width for which there is no room. -/
  | noRoom
  /-- A whole number with too many digits. -/
  | tooPrecise
  /-- No place is of that kind; with its index in the template. -/
  | unknownKind (kind : Char) (index : Nat)
  /-- An argument of another kind where a number is wanted. -/
  | notANumber (kind : Char) (v : Json)
  /-- An argument of another kind where a whole number is wanted, which a fraction is not. -/
  | notAnInteger (kind : Char) (v : Json)
  /-- An argument of another kind where a fraction is wanted. -/
  | notAFraction (v : Json)
  /-- A number without a whole part where a whole number is wanted. -/
  | notWhole (cause : NotWhole)
  /-- A whole number beyond the range of binary fractions. -/
  | hugeNumber
  /-- An argument of another kind where a character is wanted. -/
  | notACharacter
  /-- A number that is no character's. -/
  | noSuchCharacter
  deriving Repr

/-- The arguments of a template that are left. A single argument with fields can be asked for these
by name, and then it need not be used as a whole. -/
structure Supply where
  left : List Json
  fields : Option Fields

namespace Supply

/-- All arguments. -/
def ofArgs : List Json → Supply
  | [.object (f :: fields)] => ⟨[.object (f :: fields)], some (f :: fields)⟩
  | args => ⟨args, none⟩

/-- The next argument. -/
def next (s : Supply) : Except TemplateError (Json × Supply) :=
  match s.left with
  | [] => .error .missingArgument
  | v :: rest => .ok (v, { s with left := rest })

/-- The arguments for a place: if the place names a field, only this one. -/
def focus (s : Supply) : Option FieldName → Except TemplateError Supply
  | none => .ok s
  | some field =>
      match s.fields, field with
      | none, _ => .error .noFields
      | some _, .unclosed => .error .incompleteName
      | some fields, .named name =>
          let name := String.ofList name
          match find? fields name with
          | some v => .ok { s with left := [v] }
          | none => .error (.missingField name)

/-- A width or a precision, for which the next argument may have to be taken. -/
def extent (s : Supply) (dimension : Dimension) :
    Extent → Except TemplateError (Option Int × Supply)
  | .absent => .ok (none, s)
  | .given n =>
      if n < dimension.bound then .ok (some n, s) else .error (.hugeExtent dimension false)
  | .asked => do
      match ← s.next with
      | (.int n, s) =>
          if dimension.holds n then return (some n, s) else throw (.hugeExtent dimension true)
      | (.bool b, s) => return (some (if b then 1 else 0), s)
      | _ => throw .notAnExtent

end Supply

/-- How an argument is laid out. -/
structure Layout where
  kind : Char
  flags : List Char
  width : Nat
  /-- Whether the argument stands at the left end of the width. -/
  leftward : Bool
  precision : Option Nat

namespace Layout

/-- Whether a flag is set. -/
def has (l : Layout) (flag : Char) : Bool := l.flags.contains flag

/-- A text, cut to the precision and filled up to the width. -/
def text (l : Layout) (cs : List Char) : List Char :=
  let cs := match l.precision with
    | some n => cs.take n
    | none => cs
  let blanks := List.replicate (l.width - cs.length) ' '
  if l.leftward then cs ++ blanks else blanks ++ cs

/-- A number with its sign and the mark of its base, filled up to the width. -/
def number (l : Layout) (negative : Bool) (mark digits : List Char) : List Char :=
  let sign := if negative then ['-'] else if l.has '+' then ['+']
    else if l.has ' ' then [' '] else []
  let missing := l.width - (sign.length + mark.length + digits.length)
  if l.leftward then sign ++ mark ++ digits ++ List.replicate missing ' '
  else if l.has '0' then sign ++ mark ++ (List.replicate missing '0' ++ digits)
  else List.replicate missing ' ' ++ sign ++ mark ++ digits

/-- The greatest number of digits that can be asked for in a whole number. -/
def digitsLimit : Nat := Nat.pow 2 31 - 4

/-- A whole number in a base; the precision is the least number of digits. -/
def integer (l : Layout) (base : Nat) (mark : List Char) (n : Int) :
    Except TemplateError (List Char) :=
  let least := l.precision.getD 0
  if digitsLimit < least then .error .tooPrecise
  else
    let digits := Nat.toDigits base n.natAbs
    let digits := List.replicate (least - digits.length) '0' ++ digits
    .ok (l.number (n < 0) (if l.has '#' then mark else []) digits)

/-- The decimal places or the digits of a fraction when no precision is given. -/
def usualPrecision : Nat := 6

/-- A fraction in the way that the small letter of its kind stands for. -/
def fraction (l : Layout) (kind : Char) (x : Binary) : List Char :=
  let precision := l.precision.getD usualPrecision
  let digits := x.magnitudeText <|
    match kind with
    | 'e' => Binary.scientificDigits precision (l.has '#')
    | 'f' => Binary.fixedDigits precision (l.has '#')
    | _ => Binary.generalDigits precision (l.has '#')
  l.number x.isNegative [] digits

end Layout

/-- A text with every character outside ASCII escaped by number. -/
def asciiOnly (s : String) : List Char :=
  s.toList.flatMap fun c =>
    if c.toNat < 0x80 then [c]
    else if c.toNat < 0x100 then '\\' :: 'x' :: hexDigits 2 c.toNat
    else if c.toNat < 0x10000 then '\\' :: 'u' :: hexDigits 4 c.toNat
    else '\\' :: 'U' :: hexDigits 8 c.toNat

/-- An argument where a whole number is wanted; the whole part of a fraction will do. -/
def decimalArgument (kind : Char) (v : Json) : Except TemplateError Int :=
  match v with
  | .int _ | .bool _ | .float _ => v.whole.mapError TemplateError.notWhole
  | _ => .error (.notANumber kind v)

/-- An argument where nothing but a whole number will do. -/
def integerArgument (kind : Char) (v : Json) : Except TemplateError Int :=
  match v with
  | .int n => .ok n
  | .bool b => .ok (if b then 1 else 0)
  | _ => .error (.notAnInteger kind v)

/-- An argument where a fraction is wanted. -/
def fractionArgument (v : Json) : Except TemplateError Binary :=
  match v with
  | .float x => .ok x
  | .bool b => .ok (.ofInt (if b then 1 else 0))
  | .int n =>
      match Binary.ofInt n with
      | .infinite _ => .error .hugeNumber
      | x => .ok x
  | _ => .error (.notAFraction v)

/-- An argument where a character is wanted: one as a text, or its number. -/
def characterArgument (v : Json) : Except TemplateError Char :=
  match v with
  | .text w =>
      match w.pieces with
      | [p] => .ok p.shown
      | _ => .error .notACharacter
  | .int n =>
      if 0 ≤ n ∧ n < 0x110000 then .ok (Piece.ofNat n.toNat).shown else .error .noSuchCharacter
  | .bool b => .ok (Char.ofNat (if b then 1 else 0))
  | _ => .error .notACharacter

/-- An argument laid out in its place, which is of the kind at an index of the template. -/
def shownArgument (l : Layout) (index : Nat) (v : Json) : Except TemplateError (List Char) :=
  match l.kind with
  | 's' => .ok (l.text v.plain.toList)
  | 'r' => .ok (l.text v.literal.toList)
  | 'a' => .ok (l.text (asciiOnly v.literal))
  | 'd' | 'i' | 'u' => do l.integer 10 [] (← decimalArgument l.kind v)
  | 'o' => do l.integer 8 ['0', 'o'] (← integerArgument l.kind v)
  | 'x' => do l.integer 16 ['0', 'x'] (← integerArgument l.kind v)
  | 'X' => do
      let shown ← l.integer 16 ['0', 'x'] (← integerArgument l.kind v)
      return shown.map Char.toUpper
  | 'e' | 'f' | 'g' => (fractionArgument v).map (l.fraction l.kind)
  | 'E' | 'F' | 'G' => (fractionArgument v).map fun x =>
      (l.fraction l.kind.toLower x).map Char.toUpper
  | 'c' => (characterArgument v).map fun c => { l with precision := none }.text [c]
  | kind => .error (.unknownKind kind index)

/-- The width from which on there is no room for an argument. -/
def roomLimit : Nat := Nat.pow 2 40

/-- An argument in its place, if there is room for it. -/
def placedArgument (l : Layout) (index : Nat) (v : Json) : Except TemplateError (List Char) := do
  if l.width < roomLimit then shownArgument l index v
  else
    let _ ← shownArgument { l with width := 0 } index v
    throw .noRoom

/-- The blanks that a width asks for. The least number that can be given has no magnitude. -/
def magnitude (width : Int) : Nat :=
  if width.natAbs < Dimension.width.bound then width.natAbs else 0

/-- What a place becomes, and the arguments left. -/
def fillPlace (c : Conversion) (s : Supply) : Except TemplateError (List Char × Supply) := do
  let s ← s.focus c.field
  let (width, s) ← s.extent .width c.width
  let (precision, s) ← s.extent .precision c.precision
  match c.kind with
  | none => throw .incomplete
  | some (kind, index) =>
      let (v, s) ← s.next
      let width := width.getD 0
      let l : Layout := {
        kind
        flags := c.flags
        width := magnitude width
        leftward := c.flags.contains '-' || width < 0
        precision := precision.map Int.toNat }
      return (← placedArgument l index v, s)

/-- What parts become, and the arguments left. -/
def fillParts : List Part → Supply → Except TemplateError (List Char × Supply)
  | [], s => .ok ([], s)
  | .literal c :: rest, s => do
      let (shown, s) ← fillParts rest s
      return (c :: shown, s)
  | .place c :: rest, s => do
      let (first, s) ← fillPlace c s
      let (shown, s) ← fillParts rest s
      return (first ++ shown, s)

/-- A template with its arguments filled in. None may be left over, unless it can be asked for
fields. -/
def fill (template : String) (args : List Json) : Except TemplateError String := do
  let (shown, s) ← fillParts (parts template) (.ofArgs args)
  if s.left.isEmpty || s.fields.isSome then return String.ofList shown else throw .spareArgument

end Editorial.Log
