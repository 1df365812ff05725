import Editorial.Report

/-!
# Responses

A response has a status and, unless it is empty, a JSON body. The body of an error gives a message,
a machine-readable code and, where there are any, details. Every failure has a response
(`Response.ofFailure`): the one of its report, or else one that tells nothing.
-/

namespace Editorial.Api

open Json

/-- The codes of errors found before an operation is tried. -/
inductive RequestError where
  | required
  | invalid
  | unauthenticated
  | notFound
  | internal
  deriving DecidableEq, Repr

namespace RequestError

/-- All of them. -/
def all : List RequestError := [required, invalid, unauthenticated, notFound, internal]

/-- The text of a code. -/
def code : RequestError → String
  | required => "ERR_VALIDATION_REQUIRED"
  | invalid => "ERR_VALIDATION_INVALID"
  | unauthenticated => "ERR_UNAUTHENTICATED"
  | notFound => "ERR_NOT_FOUND"
  | internal => "ERR_INTERNAL"

/-- The status that goes with a code. -/
def status : RequestError → Int
  | required | invalid => 400
  | unauthenticated => 401
  | notFound => 404
  | internal => 500

end RequestError

/-- The answer to a request. -/
structure Response where
  status : Int
  body : Option Json
  /-- After how many seconds it makes sense to try again. -/
  retryAfter : Option String

namespace Response

/-- A response with a body. -/
def json (status : Int) (body : Json) : Response :=
  { status, body := some body, retryAfter := none }

/-- A response without a body. -/
def empty (status : Int) : Response :=
  { status, body := none, retryAfter := none }

/-- The status of an error with a code when nothing else is said. -/
def defaultStatus (code : Json) : Int :=
  match RequestError.all.find? fun e => text e.code == code with
  | some e => e.status
  | none => 400

/-- The body of an error; details that count as not given are left out. -/
def errorBody (code message details : Json) : Json :=
  let body : Fields := [("error", message), ("code", code)]
  object (if details.isGiven then extend body [("details", details)] else body)

/-- The status of an error. One that counts as not given leaves it to the code, which must be a
value that can be looked up then. -/
def errorStatus (code status : Json) : Except Failure Json :=
  if status.isGiven then .ok status
  else
    match code with
    | array _ | object _ => .error (.incomparable code)
    | _ => .ok (int (defaultStatus code))

/-- An error found before an operation is tried. -/
def requestError (e : RequestError) (message : String) : Response :=
  json e.status (errorBody (text e.code) (text message) null)

/-- The response to a request without a valid user. -/
def unauthenticated : Response :=
  requestError .unauthenticated "X-User-Id header is required"

/-- The response to a failure that clients are told nothing about. -/
def internal : Response :=
  requestError .internal "Internal server error"

/-- The response to a path that names nothing. -/
def unknownPath (path : String) : Response :=
  json 404 <| errorBody (text RequestError.notFound.code) (text "Not found")
    (object [("path", text path)])

/-- The response to a method that is not allowed. -/
def methodNotAllowed : Response :=
  json 405 <| errorBody (text "ERR_HTTP_405")
    (text "The method is not allowed for the requested URL.") null

/-- The response to a path that names something once it is written with single slashes. -/
def moved : Response := empty 308

/-- The response that carries a report. -/
def ofReport (r : Report) : Response :=
  { json r.status (errorBody r.code (text r.message) r.details) with
    retryAfter := if r.retryable then some "1" else none }

/-- The response to a failure. -/
def ofFailure (f : Failure) : Response :=
  match f.report? with
  | some r => ofReport r
  | none => internal

/-- The response without its body. -/
def headOnly (r : Response) : Response := { r with body := none }

end Response

end Editorial.Api
