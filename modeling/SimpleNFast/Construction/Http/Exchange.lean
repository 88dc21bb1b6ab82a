/-
This file models the receiving side of a response in `response.cpp`, the sending side of a request in `transmit.cpp`, and
the rounds of `process_request` on a connection that stays open.
-/

import SimpleNFast.Construction.Http.Handler
import SimpleNFast.Construction.Http.RequestHead

namespace SimpleNFast.Http

open Rdb (Code)

namespace Request

end Request

namespace Response

/-- This is `response_builder::response_line`. -/
def readLine : Scan (Version × StatusCode × Text) := do
  let version ← Scanner.readVersion
  if version.isEmpty then throw (.badMessage (text "HTTP version not found"))
  if !(← Scanner.readSpace) then throw (.badMessage (text "no space after (" ++ version ++ text ")"))
  match ← Scanner.readStatus with
  | none => throw (.badMessage (text "HTTP status not found"))
  | some status =>
      if !(← Scanner.readSpace) then
        throw (.badMessage (text "no space after (" ++ version ++ text " " ++ status ++ text ")"))
      let reason ← Scanner.readReason
      if reason.isEmpty then throw (.badMessage (text "HTTP reason phrase not found"))
      Scanner.readOptSpace
      if !(← Scanner.readCrlf) then
        throw (.badMessage (text "HTTP message (" ++ version ++ text " " ++ status ++ text " " ++ reason ++
          text ") not terminated with CRLF"))
      let version ← (Version.ofString version : Except Fault Version)
      if version.protocol != Version.httpProtocol then
        if version.protocol.isEmpty then throw (.badMessage (text "HTTP protocol cannot be empty"))
        else throw (.badMessage (text "invalid protocol " ++ version.protocol))
      if version.major != 1 || version.minor != 1 then
        throw (.exception (text "HTTP version " ++ version.str ++ text " is not supported")
          .HTTP_VERSION_NOT_SUPPORTED)
      let status ← (stoi status : Except Fault Int)
      pure (version, ⟨status⟩, reason)

end Response

/-- The text of a head, and then the body of the message. -/
def sendMessage (what : String) (head : Text) (body : Option Body) (fuel : Nat) : Send Code := do
  let code ← sendData head what
  if code ≠ .E_ok then return code
  match body with
  | some body => sendBody fuel body
  | none => return code

/-- The data of the body behind a head is taken from the connection to its end. -/
inductive Consumes : Option Body → Nio → Text → Nio → Prop where
  | nothing {io : Nio} : Consumes none io [] io
  | drained {body : Body} {io : Nio} {data : Text} {last : StreamSource Nio} (drained : Drains body data (.socket last)) :
      Consumes (some body) io data last.input

/-- A body whose length is known when it is sent. -/
inductive Payload where
  | none
  | buffer (data : Text)
  | string (data : Text)
  | file (filename content : Text)
  deriving DecidableEq, Repr

namespace Payload

def body : Payload → Option Body
  | none => .none
  | buffer data => some (Body.fromBuffer data)
  | string data => some (Body.fromString data)
  | file filename content => some (Body.fromFile filename content)

def data : Payload → Text
  | none => []
  | buffer data | string data | file _ data => data

/-- The headers after the receiver has validated them: a body from the connection has the length zero there. -/
def seen (payload : Payload) (headers : Headers) : Headers :=
  if payload.data = [] then headers else headers.update (.contentLength 0)

end Payload

/-- The headers give the length of the data and no chunked coding. -/
structure Headers.Announce (headers : Headers) (data : Text) : Prop where
  length : headers.contentLength = .ok data.length
  whole : headers.isMessageChunked = false

namespace Request

/-- A request that can be sent with this payload and be read from its text. -/
structure Ready (request : Request) (payload : Payload) : Prop where
  wellFormed : request.WellFormed
  readable : request.isReadable = true
  body : request.body = payload.body
  announced : request.headers.Announce payload.data
  small : request.str.length < 2 ^ 31
  short : payload.data.length < 2 ^ 31

/-- What the receiver has of a request that was sent with this payload. -/
structure Arrives (request : Request) (payload : Payload) (read : Request) : Prop where
  method : read.method = request.method
  segments : read.uri.path.segments = request.uri.path.segments
  component : read.uri.path.component = request.uri.path.component
  query : read.uri.query = request.uri.query
  version : read.version = request.version
  headers : read.headers = payload.seen request.headers
  body : ∃ io after, Consumes read.body io payload.data after

end Request

/-- A round of `process_request` that keeps the connection open: the response was sent whole, its status is no error, and
no side asks to close. -/
structure Round (now : DateTime) (router : Router) (fuel : Nat) (io : Nio) (wire : Wire) (request : Request)
    (report : Report) (later : Wire) : Prop where
  processed : Report.processRequest now router fuel io wire = some (report, later)
  stays : ∃ response, router.handle request = .ok response ∧ response.status.isError = false ∧
    sendResponse fuel response wire = some (.ok .E_ok, later) ∧ Report.closeConnection request response = .ok false

end SimpleNFast.Http
