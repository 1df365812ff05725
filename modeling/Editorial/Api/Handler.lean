import Editorial.Api.Drafts
import Editorial.Api.Processes
import Editorial.Api.Route

/-!
# Answering requests

`handle` answers requests: the path and the method select an endpoint, all of which but the health
checks need a user. A request for the head of a page is answered like one for the page, but without
the body, and every place tells its options. A path that only needs single slashes to name something
is answered with the hint that it has moved.
-/

namespace Editorial.Api

open Json

/-- Whether the database answers, and how the service is set up. -/
def health (c : Conditions) : Response :=
  let healthy := c.pingError.isNone
  let word (good bad : String) := text (if healthy then good else bad)
  .json (if healthy then 200 else 503) <| object [
    ("status", word "healthy" "degraded"),
    ("checks", object [
      ("database", object [("status", word "ok" "error")]),
      ("app", object [
        ("name", text "editflow"),
        ("debug", bool false),
        ("testing", bool true),
        ("autofill", bool c.autofill)])])]

/-- Does for a user what the user has asked for. -/
def respond (c : Conditions) (s : Store) (user : Int) (body : Body) : Action → Reply
  | .listDrafts => listDrafts s user
  | .showDraft m => showDraft s user m
  | .cancelDraft m => cancelDraft c s user m
  | .advanceDraft m => advanceDraft c s user m body
  | .showDraftProcess m => showDraftProcess s user m
  | .vacateSlot m slot => vacateSlot c s user m slot
  | .beginDraft m => beginDraft c s user m body
  | .listProcesses => listProcesses s user
  | .createProcess => createProcess c s user body
  | .showProcess p => showProcess s user p
  | .renameProcess p => renameProcess c s user p body
  | .deleteProcess p => deleteProcess c s user p
  | .showTree p => showTree s user p
  | .listVersions p => listVersions s user p
  | .createVersion p => createVersion c s user p body
  | .showVersion p v => showVersion s user p v
  | .deleteVersion p v => deleteVersion c s user p v
  | .showVersionTree p v => showVersionTree s user p v
  | .showStep p v step => showStep s user p v step
  | .takeSlot => takeSlot c s user body
  | .listFreeSlots => listFreeSlots s user

/-- Answers a request at an endpoint. -/
def answer (c : Conditions) (s : Store) (r : Request) : Endpoint → Reply
  | .ready => ⟨.json 200 (object [("status", text "ok")]), s⟩
  | .live => ⟨health c, s⟩
  | .action a =>
      match userOfHeader? r.user with
      | some user => respond c s user r.body a
      | none => ⟨.unauthenticated, s⟩

/-- Answers a request at a place. An id that is too long makes the place unknown to its first
method, and is no reason to look for another one. -/
def answerAt (c : Conditions) (s : Store) (r : Request) (place : Place) (method : String) : Reply :=
  if !place.serves method then ⟨.methodNotAllowed, s⟩
  else if place.ids.any PathId.isTooLong then
    ⟨if place.isFirst method then .unknownPath r.path else .methodNotAllowed, s⟩
  else
    match place.endpoint? (Place.fullMethod method) with
    | some e => answer c s r e
    | none => ⟨.empty 200, s⟩

/-- Answers a request by path and method. A method may be written in small letters. -/
def route (c : Conditions) (s : Store) (r : Request) : Reply :=
  let method := methodName r.method
  match Place.ofPath? r.path with
  | some place => answerAt c s r place method
  | none =>
      match Place.ofPath? (mergeSlashes r.path) with
      | some place => ⟨if place.serves method then .moved else .methodNotAllowed, s⟩
      | none => ⟨.unknownPath r.path, s⟩

/-- Answers a request. What is asked for by the method in capitals that is made for it is only the
head of the response. -/
def handle (c : Conditions) (s : Store) (r : Request) : Except Unanswerable Reply :=
  if (r.user.map hasLineBreak).getD false then .error .brokenHeader
  else
    let reply := route c s r
    .ok (if r.method = "HEAD" then { reply with response := reply.response.headOnly } else reply)

end Editorial.Api
