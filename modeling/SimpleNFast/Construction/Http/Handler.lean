/-
This file models `process_request` and the error responses of the server, and states when it answers a request with
exactly one response.
-/

import SimpleNFast.Construction.Http.Router
import SimpleNFast.Construction.Http.Transmit
import SimpleNFast.Construction.Json.Value

namespace SimpleNFast.Http

open Rdb (Code)

/-- The exceptions of the JSON library as the server sees them. -/
def Fault.ofJson : Json.Fault → Fault
  | .parsingError what _ _ => .runtimeError what
  | .invalidArgument what => .invalidArgument what
  | .outOfRange what => .outOfRange what
  | .lengthError what => .lengthError what
  | .failure | .running => .systemError []

/-- The text of an exception up to its first zero. -/
def Fault.what : Fault → Text
  | .badMessage what | .badUri what | .notFound what | .notImplemented what | .exception what _
  | .systemError what | .runtimeError what | .invalidArgument what | .outOfRange what | .lengthError what =>
      cString what
  | .badFunctionCall => text "bad_function_call"
  | .nullPointer => []

/-- The JSON text of an error; a null pointer is the value null. -/
def errorJson (status : StatusCode) (message : Text) : Except Json.Fault Text := do
  let title ←
    match status.reasonPhrase with
    | some phrase => Json.Value.ofString phrase
    | none => pure .null
  let detail ← Json.Value.ofString message
  Json.Value.str true 0 (.object [(text "errors",
    .array [.object [(text "detail", detail), (text "title", title)]])])

/-- This is `gen_error_resp` at the date `now`. -/
def genErrorResp (now : DateTime) (status : StatusCode) (message : Text) : Except Fault Response := do
  let body ← (errorJson status message).mapError Fault.ofJson
  let headers := ((Headers.empty.update (.date now)).update (.connection [connectionClose])).update
    (.contentType ⟨text "application", text "json", []⟩)
  match Response.validate ⟨.current, status, [], headers, some (Body.fromString body)⟩ with
  | some response => pure response
  | none => throw .nullPointer

/-- The status line, the headers and the body of a response. -/
def sendResponse (fuel : Nat) (response : Response) : Send Code := do
  let code ← sendData response.str "failed to send response and headers"
  if code ≠ .E_ok then return code
  match response.body with
  | some body => sendBody fuel body
  | none => return code

/-- The responses that were handed to `send_response`, and the exception that left `process_request`. -/
structure Report where
  responses : List Response
  escaped : Option Fault
  deriving DecidableEq, Repr

namespace Report

/-- The status and the text that the catch clauses keep, and none for an exception that they let through. -/
def caught (fault : Fault) : Option (StatusCode × Text) :=
  match fault with
  | .badMessage _ | .badUri _ => some (.BAD_REQUEST, fault.what)
  | .notFound _ => some (.NOT_FOUND, fault.what)
  | .notImplemented _ => some (.NOT_IMPLEMENTED, fault.what)
  | .exception _ status => some (status, fault.what)
  | .systemError _ | .runtimeError _ => some (.INTERNAL_SERVER_ERROR, fault.what)
  | _ => none

/-- The part after the try block sends an error response where the status is an error. -/
def conclude (now : DateTime) (fuel : Nat) (responses : List Response) (status : StatusCode) (message : Text) :
    StateT Wire Option Report := fun wire =>
  if status.isError then
    match genErrorResp now status message with
    | .error fault => some (⟨responses, some fault⟩, wire)
    | .ok response =>
        match sendResponse fuel response wire with
        | none => none
        | some (.ok _, wire) => some (⟨responses ++ [response], none⟩, wire)
        | some (.error fault, wire) => some (⟨responses ++ [response], some fault⟩, wire)
  else some (⟨responses, none⟩, wire)

/-- An exception inside the try block. -/
def recover (now : DateTime) (fuel : Nat) (responses : List Response) (fault : Fault) :
    StateT Wire Option Report :=
  match caught fault with
  | some (status, message) => conclude now fuel responses status message
  | none => fun wire => some (⟨responses, some fault⟩, wire)

/-- The two queries after a response was sent; the second one is made when the first one is false. -/
def closeConnection (request : Request) (response : Response) : Except Fault Bool := do
  if ← request.headers.closeConnection then pure true else response.headers.closeConnection

/-- This is `process_request` up to the registration of the connection for further requests. -/
def processRequest (now : DateTime) (router : Router) (fuel : Nat) (io : Nio) : StateT Wire Option Report :=
  fun wire =>
    match Request.recvRequest io with
    | .error fault => recover now fuel [] fault wire
    | .ok request =>
        match router.handle request with
        | .error fault => recover now fuel [] fault wire
        | .ok response =>
            match sendResponse fuel response wire with
            | none => none
            | some (.error fault, wire) => recover now fuel [response] fault wire
            | some (.ok _, wire) =>
                match closeConnection request response with
                | .error fault => recover now fuel [response] fault wire
                | .ok _ => conclude now fuel [response] response.status [] wire

end Report

/-- A complete call of `send_response` on a fresh connection writes these bytes. -/
def Delivers (response : Response) (bytes : Text) : Prop :=
  ∃ fuel code, sendResponse fuel response ⟨[], []⟩ = some (.ok code, ⟨bytes, []⟩)

/-- The server ends its work on a request, and what it has written is one response that it has sent. -/
def AnswersOnce (now : DateTime) (router : Router) (io : Nio) : Prop :=
  ∃ fuel report wire, Report.processRequest now router fuel io ⟨[], []⟩ = some (report, wire) ∧
    ∃ response ∈ report.responses, Delivers response wire.written

/-- The length of a piece has to be positive as an `int`, also for the size line before it. -/
def pieceFits (chunked : Bool) (extensions : Params) (data : Text) : Bool :=
  (!chunked || 0 < castInt (chunkHeader data.length extensions).length) && 0 < castInt data.length

/-- The body delivers pieces that fit until it has no more, and throws nothing. -/
inductive Transmits (chunked : Bool) : Body → Prop where
  | done {body last : Body} (none : body.hasNext = .ok (false, last)) : Transmits chunked body
  | step {body ready later : Body} {data : Text} (more : body.hasNext = .ok (true, ready))
      (taken : ready.next = .ok (data, later)) (fits : pieceFits chunked ready.chunkExtensions data = true)
      (rest : Transmits chunked later) : Transmits chunked body

/-- The lengths of all texts that have to be written are positive as an `int`, and the body throws nothing. -/
def Sendable (response : Response) : Prop :=
  0 < castInt response.str.length ∧ ∀ body, response.body = some body → Transmits body.chunked body

/-- The status is an error for which `gen_error_resp` makes a response that can be sent. -/
def ErrorSendable (now : DateTime) (status : StatusCode) (message : Text) : Prop :=
  status.isError = true ∧ ∃ response, genErrorResp now status message = .ok response ∧ Sendable response

/-- The catch clauses turn the exception into an error response. -/
def faultAnswered (now : DateTime) (fault : Fault) : Prop :=
  ∃ status message, Report.caught fault = some (status, message) ∧ ErrorSendable now status message

/-- A response is sent alone when it can be sent and no error response comes after it. -/
def responseAnswered (request : Request) (response : Response) : Prop :=
  castInt response.str.length ≤ 0 ∨
    (Sendable response ∧ (response.status.isError = false ∨ response.status.reasonPhrase = none ∨
      ∃ fault, Report.closeConnection request response = .error fault))

/-- What the bytes of a request and the outcome of the routed handler have to be. -/
def answered (now : DateTime) (router : Router) (io : Nio) : Prop :=
  match Request.recvRequest io with
  | .error fault => faultAnswered now fault
  | .ok request =>
      match router.handle request with
      | .error fault => faultAnswered now fault
      | .ok response => responseAnswered request response

/-- The date of a response comes from the clock, and its numbers have the type `int`. -/
structure Clock where
  date : DateTime
  fits : ∀ value ∈ [date.day, date.year, date.hour, date.minute, date.second], value.natAbs ≤ 2147483648

end SimpleNFast.Http
