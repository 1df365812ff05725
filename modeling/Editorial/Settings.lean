import Editorial.Json.Basic
import Editorial.Number.Numeral

/-!
# Settings

How the service is set up in each of its three modes, as far as the environment decides it. A
variable may be absent. The service does not start in production without a database and a secret
key.
-/

namespace Editorial

open Json Number

/-- The variables of the environment. -/
abbrev Environment := String → Option String

namespace Environment

/-- The value of a variable, with a default for an absent one. -/
def getD (env : Environment) (name default : String) : String :=
  (env name).getD default

end Environment

/-- A list of characters with the first occurrence of a part replaced. -/
def replaceFirst (part new : List Char) : List Char → List Char
  | [] => if part.isEmpty then new else []
  | c :: cs =>
      if part.isPrefixOf (c :: cs) then new ++ (c :: cs).drop part.length
      else c :: replaceFirst part new cs

/-- What depends on the environment. -/
structure Settings where
  /-- The address of the database. -/
  database : Option String
  /-- The address of the database for tests. -/
  testDatabase : String
  /-- How many milliseconds an operation waits for a draft that is locked. -/
  lockTimeout : Int
  autofill : Bool
  /-- From where scripts may send requests. -/
  origins : String
  /-- The same in production, where nothing is allowed unless it is said. -/
  productionOrigins : String
  hasSecret : Bool
  deriving DecidableEq, Repr

/-- The modes in which the service runs. -/
inductive Mode where
  | development
  | testing
  | production
  deriving DecidableEq, Repr

/-- Why the service does not start in production. -/
inductive StartError where
  | noDatabase
  | noSecret
  deriving DecidableEq, Repr

/-- What is said when the service does not start. -/
def StartError.message : StartError → String
  | noDatabase => "DATABASE_URL environment variable is required in production"
  | noSecret => "SECRET_KEY environment variable must be set in production"

namespace Mode

/-- The mode of a name; without a choice the service runs in development. -/
def names : List (String × Mode) :=
  [("development", development), ("testing", testing), ("production", production),
    ("default", development)]

/-- Whether the service shows its errors. -/
def debug (m : Mode) : Bool := m = development

/-- Whether the service is under test. -/
def isTest (m : Mode) : Bool := m = testing

end Mode

namespace Settings

/-- The address of the database, in the form in which the database driver wants it. -/
def databaseOf (env : Environment) : Option String :=
  let raw := env.getD "DATABASE_URL" ""
  if raw.isEmpty then none
  else
    some (String.ofList
      (replaceFirst "postgres://".toList "postgresql://".toList raw.toList))

/-- Whether a variable says that something is switched on. -/
def isTrue (value : String) : Bool :=
  value.toList.map Char.toLower = "true".toList

/-- The settings that an environment gives. -/
def ofEnvironment (env : Environment) : Except NumeralError Settings := do
  let lockTimeout ← readInteger (env.getD "LOCK_TIMEOUT_MS" "5000")
  return {
    database := databaseOf env
    testDatabase := env.getD "TEST_DATABASE_URL" "sqlite:///:memory:"
    lockTimeout
    autofill := isTrue (env.getD "AUTOFILL_ENABLED" "true")
    origins := env.getD "CORS_ORIGINS" "*"
    productionOrigins := env.getD "CORS_ORIGINS" ""
    hasSecret := !(env.getD "SECRET_KEY" "").isEmpty }

/-- Whether slots are filled automatically in a mode. -/
def autofillIn (s : Settings) : Mode → Bool
  | .testing => true
  | _ => s.autofill

/-- What the database is told in production about how long statements and locks may take. -/
def statementOptions (s : Settings) : String :=
  "-c statement_timeout=30000 -c lock_timeout=" ++ integerText s.lockTimeout

/-- How connections to the database are kept in production. -/
def engineOptions (s : Settings) : Json :=
  object [
    ("pool_pre_ping", bool true),
    ("pool_size", int 5),
    ("max_overflow", int 10),
    ("pool_recycle", int 300),
    ("pool_timeout", int 20),
    ("connect_args", object [("options", text s.statementOptions)])]

/-- The address of the database in production, if the service starts. -/
def production (s : Settings) : Except StartError String :=
  match s.database with
  | none => .error .noDatabase
  | some address => if s.hasSecret then .ok address else .error .noSecret

end Settings

end Editorial
