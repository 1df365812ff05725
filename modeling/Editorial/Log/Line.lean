import Editorial.Json.Writer
import Editorial.Log.Template
import Editorial.Time

/-!
# Log lines

What is written to the log for one record: either one JSON object or one line for people, which is
coloured by level and shows the draft and the duration. A record of a moment that has no date, whose
message and arguments do not fit together, or whose duration is no number, cannot be written
(`LineError`).
-/

namespace Editorial.Log

open Json Number Text

/-- An error that a record reports: the name of its kind and what it says. -/
structure LoggedError where
  kind : String
  message : String
  deriving DecidableEq, Repr

/-- One record of the log. -/
structure LogRecord where
  logger : String
  level : String
  /-- The message, which may have places for arguments. -/
  message : String
  args : List Json
  /-- The file, the function and the line that wrote the record. -/
  file : String
  function : String
  line : Int
  time : Instant
  context : Fields
  error : Option LoggedError

/-- Why a record cannot be written. -/
inductive LineError where
  /-- The moment of the record has no date. -/
  | noDate (cause : NoDate)
  /-- The message and its arguments do not fit together. -/
  | badMessage (cause : TemplateError)
  /-- A duration that is no number. -/
  | badDuration (v : Json)
  /-- A duration beyond the range of binary fractions. -/
  | hugeDuration
  deriving Repr

namespace LogRecord

/-- The name under which a level is written: two levels go by a second name. -/
def levelName (level : String) : String :=
  match level with
  | "WARN" => "WARNING"
  | "FATAL" => "CRITICAL"
  | _ => level

/-! ### The message -/

/-- The message as it is shown. Without arguments it is left as it is. -/
def shownMessage (r : LogRecord) : Except LineError String :=
  if r.args.isEmpty then .ok r.message
  else (fill r.message r.args).mapError LineError.badMessage

/-! ### Names and context -/

/-- The name of a file without directories. -/
def baseName (file : List Char) : List Char :=
  (file.reverse.takeWhile (· ≠ '/')).reverse

/-- The name of a file without its extension. Dots at its beginning begin no extension. -/
def withoutExtension (name : List Char) : List Char :=
  let dots := name.takeWhile (· = '.')
  let rest := name.dropWhile (· = '.')
  if rest.contains '.' then dots ++ ((rest.reverse.dropWhile (· ≠ '.')).drop 1).reverse
  else name

/-- The name of the part of the program that wrote a record. -/
def moduleName (r : LogRecord) : String :=
  String.ofList (withoutExtension (baseName r.file.toList))

/-- The names of what a record may tell about its context, in the order in which it is told. -/
def contextNames : List Wording :=
  ["method", "path", "status", "duration_ms", "remote_addr", "request_id", "team_id", "process_id",
    "version_id", "draft_id", "user_id", "event_type"]

/-- What a record tells about its context. -/
def shownContext (r : LogRecord) : Fields :=
  (contextNames.map fun name => (name, field r.context name)).filter fun f => !f.2.isNull

/-- The text of an error. -/
def errorText (e : LoggedError) : String :=
  if e.message.isEmpty then e.kind else e.kind ++ ": " ++ e.message

/-- A record as one JSON object. -/
def asJson (r : LogRecord) : Except LineError String := do
  r.time.requireDate.mapError LineError.noDate
  let message ← r.shownMessage
  let record : Fields := [
    ("timestamp", text (r.time.text ++ "+00:00")),
    ("level", text (levelName r.level)),
    ("logger", text r.logger),
    ("message", text message),
    ("module", text r.moduleName),
    ("function", text r.function),
    ("line", int r.line)]
  let error : Fields := match r.error with
    | some e => [("exception", text (errorText e))]
    | none => []
  return write (object (record ++ error ++ r.shownContext))

/-! ### The line for people -/

/-- The sequence of characters that sets a colour of the terminal. -/
def terminalCode (code : String) : String := "\x1b[" ++ code ++ "m"

/-- The colour of a level, if it has one. -/
def colour (level : String) : String :=
  let codes := [("DEBUG", "36"), ("INFO", "32"), ("WARNING", "33"), ("ERROR", "31"),
    ("CRITICAL", "35")]
  match codes.lookup level with
  | some code => terminalCode code
  | none => ""

/-- The width to which levels are filled up. -/
def levelWidth : Nat := 8

/-- A level, filled up with blanks. -/
def paddedLevel (level : String) : String :=
  level ++ String.ofList (List.replicate (levelWidth - level.length) ' ')

/-- A duration in milliseconds, rounded to a whole number; the truth values count as one and
zero. -/
def durationText (v : Json) : Except LineError String :=
  match v with
  | .bool b => .ok (if b then "1" else "0")
  | .float x => .ok x.wholeText
  | .int n =>
      match Binary.ofInt n with
      | .infinite _ => .error .hugeDuration
      | x => .ok x.wholeText
  | _ => .error (.badDuration v)

/-- What a line for people tells about the draft. -/
def draftPart (r : LogRecord) : String :=
  match field r.context "draft_id" with
  | .null => ""
  | v => " draft=" ++ v.plain

/-- What a line for people tells about the duration. -/
def durationPart (r : LogRecord) : Except LineError String :=
  match field r.context "duration_ms" with
  | .null => .ok ""
  | v => (durationText v).map fun shown => " [" ++ shown ++ "ms]"

/-- A record as a line for people. -/
def asLine (r : LogRecord) : Except LineError String := do
  r.time.requireDate.mapError LineError.noDate
  let duration ← r.durationPart
  let message ← r.shownMessage
  let level := levelName r.level
  let error := match r.error with
    | some e => "\n" ++ errorText e
    | none => ""
  return colour level ++ r.time.clockText ++ " " ++ paddedLevel level ++ terminalCode "0" ++ " " ++
    r.logger ++ ": " ++ message ++ r.draftPart ++ duration ++ error

end LogRecord

end Editorial.Log
