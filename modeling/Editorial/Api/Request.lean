import Editorial.Api.Input
import Editorial.Api.Response
import Editorial.Json.Encoding
import Editorial.Json.Reader
import Editorial.Operation

/-!
# Requests and replies

A request carries a method, a path, perhaps a user header and perhaps a JSON body. A reply is a
response together with the store afterwards. A request is answered in two stages: first checks, each
of which may refuse the request with a response of its own (`Except Response`), then at most one
operation. Nothing is stored in the first stage. Some requests are not answered at all
(`Unanswerable`).
-/

namespace Editorial.Api

open Json

/-- The body of a request. -/
inductive Body where
  | absent
  | json (v : Json)
  /-- A JSON text with arrays and objects nested too deep. -/
  | tooDeep

namespace Body

/-- How deep arrays and objects may be nested in a body. -/
def depthLimit : Nat := 975

/-- The body that a value is. -/
def ofJson (v : Json) : Body := if depthLimit < v.depth then tooDeep else json v

/-- The body that a text is. A text that is no JSON text counts as none. -/
def ofText (t : String) : Body :=
  match piecesOf? t with
  | none => absent
  | some ps =>
      match Json.read depthLimit ps with
      | .ok v => json v
      | .error .malformed => absent
      | .error .tooDeep => tooDeep

/-- The value of a body, if there is one. -/
def value? : Body → Except Failure (Option Json)
  | absent => .ok none
  | json v => .ok (some v)
  | tooDeep => .error .tooDeep

/-- The fields of a body. Without a body, or with one that counts as not given, there are none; any
other body that is not an object is a failure. -/
def fields (b : Body) : Except Failure Fields := do
  match ← b.value? with
  | none => return []
  | some (.object fields) => return fields
  | some v => if v.isGiven then throw (.notAnObject v) else return []

end Body

/-- A request. The path is resolved. -/
structure Request where
  method : String
  path : String
  user : Option String
  body : Body

/-- Why a request is not answered at all. -/
inductive Unanswerable where
  /-- The user header holds a line break. -/
  | brokenHeader
  deriving DecidableEq, Repr

/-- Whether the text of a header is broken by the end of a line. -/
def hasLineBreak (header : String) : Bool :=
  header.toList.any fun c => c == '\r' || c == '\n'

/-- The capital of a letter, as far as the names of methods have it. -/
def capital (c : Char) : List Char :=
  match c.toNat with
  | 0x131 => ['I']
  | 0x17F => ['S']
  | 0xFB05 | 0xFB06 => ['S', 'T']
  | _ => [c.toUpper]

/-- The name of a method in capitals. -/
def methodName (method : String) : String :=
  String.ofList (method.toList.flatMap capital)

/-- A failure refuses a request with its response. -/
instance : MonadLift (Except Failure) (Except Response) where
  monadLift x := x.mapError Response.ofFailure

/-- Refuses a request with an error found before an operation is tried. -/
def refuse {α : Type} (e : RequestError) (message : String) : Except Response α :=
  .error (.requestError e message)

/-- A response together with the store afterwards. -/
structure Reply where
  response : Response
  store : Store

namespace Reply

variable {α : Type}

/-- The reply to a request that changes nothing. -/
def read (s : Store) (response : Except Response Response) : Reply :=
  match response with
  | .ok r => ⟨r, s⟩
  | .error r => ⟨r, s⟩

/-- The reply to a request that is looked into further once checks have succeeded. -/
def after (s : Store) (checks : Except Response α) (next : α → Reply) : Reply :=
  match checks with
  | .ok a => next a
  | .error r => ⟨r, s⟩

/-- The reply to a request for which an operation was carried out; what is shown of its result is
looked up in the store afterwards. -/
def ofOutcome (o : Outcome α) (view : Store → α → Except Failure Response) : Reply :=
  match o.result with
  | .error f => ⟨.ofFailure f, o.store⟩
  | .ok a =>
      match view o.store a with
      | .ok r => ⟨r, o.store⟩
      | .error f => ⟨.ofFailure f, o.store⟩

/-- The reply to a request for an operation that has nothing to show. -/
def done (o : Outcome α) : Reply :=
  ofOutcome o fun _ _ => .ok (.empty 204)

/-! ### Lemmas -/

theorem store_read (s : Store) (response : Except Response Response) :
    (read s response).store = s := by
  cases response <;> rfl

theorem store_ofOutcome (o : Outcome α) (view : Store → α → Except Failure Response) :
    (ofOutcome o view).store = o.store := by
  unfold ofOutcome
  split
  · rfl
  · split <;> rfl

theorem store_done (o : Outcome α) : (done o).store = o.store :=
  store_ofOutcome o _

end Reply

end Editorial.Api
