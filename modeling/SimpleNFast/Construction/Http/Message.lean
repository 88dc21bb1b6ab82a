/-
This file models the messages of `message`, `request` and `response` and their builders.
-/

import SimpleNFast.Construction.Http.Body
import SimpleNFast.Construction.Http.Headers

namespace SimpleNFast.Http

/-- The headers that `validate_length_chunkiness` leaves for a message with this body. -/
def validateLengthChunkiness (headers : Headers) (body : Body) : Headers :=
  if body.chunked then
    let headers := headers.remove CONTENT_LENGTH
    match headers.transferEncoding with
    | .ok codings =>
        if codings.any Token.isChunked then headers
        else headers.update (.transferEncoding (codings ++ [Token.chunked]))
    | .error _ => headers.update (.transferEncoding [Token.chunked])
  else
    let headers :=
      match headers.transferEncoding with
      | .ok codings =>
          if codings.any Token.isChunked then
            let others := codings.eraseP Token.isChunked
            if others.isEmpty then headers.remove TRANSFER_ENCODING
            else headers.update (.transferEncoding others)
          else headers
      | .error _ => headers
    headers.update (.contentLength body.length)

/-- A message without a body keeps its headers. -/
def validateMessage (headers : Headers) (body : Option Body) : Headers :=
  match body with
  | some body => validateLengthChunkiness headers body
  | none => headers

structure Request where
  method : MethodType
  uri : Uri
  version : Version
  headers : Headers
  body : Option Body
  parameters : Params
  deriving DecidableEq, Repr

structure Response where
  version : Version
  status : StatusCode
  reason : Text
  headers : Headers
  body : Option Body
  deriving DecidableEq, Repr

namespace Request

def validateHost (request : Request) : Except Fault Unit := do
  if !request.headers.isSet HOST then throw (.badMessage (text "HTTP host field missing"))
  let given ← request.headers.host
  if !request.uri.host.isEmpty && given.host != request.uri.host then
    throw (.badMessage (text "host in headers " ++ given.host ++ text " does not match host in URI " ++
      request.uri.str))
  if given.port ≠ 0 then
    if !request.uri.port.isEmpty then
      let port ← UriPort.numericPort request.uri.port
      if given.port ≠ port then
        throw (.badMessage (text "port in headers " ++ digits 10 given.port ++
          text " does not match port in URI " ++ request.uri.str))
  else if !request.uri.port.isEmpty then
    throw (.badMessage (text "port not specified in headers but available in URI " ++ request.uri.str))

def validate (request : Request) : Except Fault Request := do
  request.validateHost
  pure { request with headers := validateMessage request.headers request.body }

/-- The path, the query and the fragment as the request line has them. -/
def target (uri : Uri) : Text :=
  UriPath.encode uri.path.component ++
    (if uri.query.isEmpty then [] else byte '?' :: encodeKeeping componentKeeps uri.query) ++
    (if uri.fragment.isEmpty then [] else byte '#' :: encodeKeeping componentKeeps uri.fragment)

/-- The output of a request has its line and its headers. -/
def str (request : Request) : Text :=
  request.method.str ++ text " " ++ target request.uri ++ text " " ++ request.version.str ++ text "\r\n" ++
    request.headers.str ++ text "\r\n"

/-- This is `request_builder::request_line`. -/
def readLine : Scan (MethodType × Uri × Version) := do
  let method ← Scanner.readToken false
  if method.isEmpty then throw (.badMessage (text "HTTP method not found"))
  if !(← Scanner.readSpace) then throw (.badMessage (text "no space after (" ++ method ++ text ")"))
  let uri ← Scanner.readUri
  if uri.isEmpty then throw (.badMessage (text "URI not found"))
  if !(← Scanner.readSpace) then
    throw (.badMessage (text "no space after (" ++ method ++ text " " ++ uri ++ text ")"))
  let version ← Scanner.readVersion
  if version.isEmpty then throw (.badMessage (text "HTTP version not found"))
  Scanner.readOptSpace
  if !(← Scanner.readCrlf) then
    throw (.badMessage (text "HTTP message (" ++ method ++ text " " ++ uri ++ text " " ++ version ++
      text ") not terminated with CRLF"))
  let method ← (MethodType.ofString method : Except Fault MethodType)
  let uri ← (Uri.parse uri : Except Fault Uri)
  let version ← (Version.ofString version : Except Fault Version)
  if version.protocol != Version.httpProtocol then
    if version.protocol.isEmpty then throw (.badMessage (text "HTTP protocol cannot be empty"))
    else throw (.badMessage (text "invalid protocol " ++ version.protocol))
  if version.major != 1 || version.minor != 1 then
    throw (.exception (text "HTTP version " ++ version.str ++ text " is not supported")
      .HTTP_VERSION_NOT_SUPPORTED)
  pure (method, uri, version)

/-- The loop over the header lines ends at an empty line. -/
def receiveHeaders : Nat → Nio → Headers → Except Fault (Headers × Nio)
  | 0, io, headers => .ok (headers, io)
  | fuel + 1, io, headers => do
      let (line, io) ← io.readline.mapError fun error => error.fault (text "unable to read request header")
      if line.isEmpty || line == text "\r\n" then pure (headers, io)
      else
        let headers ← headers.addLine line
        receiveHeaders fuel io headers

/-- The body that the headers announce on the connection. -/
def receiveBody (headers : Headers) (io : Nio) : Except Fault (Option Body) := do
  if headers.isMessageChunked then pure (some (Body.fromSocket io))
  else
    let length ← headers.contentLength
    pure (if length ≠ 0 then some (Body.fromSocketSized io length) else none)

/-- This is `request_builder(nio *)`; each line takes a byte of the connection at least. -/
def receive (io : Nio) : Except Fault Request := do
  let (line, io) ← io.readline.mapError fun error => error.fault (text "unable to read request line")
  let ((method, uri, version), _) ← readLine (Scanner.init line)
  let (headers, io) ← receiveHeaders (io.incoming.length + 1) io .empty
  if headers.fields.isEmpty then throw (.badMessage (text "a request with no header is invalid"))
  let body ← receiveBody headers io
  pure ⟨method, uri, version, headers, body, []⟩

/-- The same loop reads the header lines of a stream. -/
def receiveStreamHeaders : Nat → IStream → Headers → Except Fault (Headers × IStream)
  | 0, is, headers => .ok (headers, is)
  | fuel + 1, is, headers =>
      match is.readline with
      | (none, _) => .error (.runtimeError (text "unable to read request header"))
      | (some line, is) =>
          if line.isEmpty || line == text "\r\n" then .ok (headers, is)
          else do
            let headers ← headers.addLine line
            receiveStreamHeaders fuel is headers

/-- The body that the headers announce on the stream. -/
def receiveStreamBody (headers : Headers) (is : IStream) : Except Fault (Option Body) := do
  if headers.isMessageChunked then pure (some (Body.fromIstream is))
  else
    let length ← headers.contentLength
    pure (if length ≠ 0 then some (Body.fromIstreamSized is length) else none)

/-- This is `request_builder(std::istream &, bool)`; each line takes a byte of the stream at least. -/
def receiveStream (is : IStream) (ignoreBody : Bool) : Except Fault Request :=
  match is.readline with
  | (none, _) => .error (.runtimeError (text "unable to read request line"))
  | (some line, is) => do
      let ((method, uri, version), _) ← readLine (Scanner.init line)
      let (headers, is) ← receiveStreamHeaders (is.chars.length + 1) is .empty
      if headers.fields.isEmpty then throw (.badMessage (text "a request with no header is invalid"))
      let body ← if ignoreBody then pure none else receiveStreamBody headers is
      pure ⟨method, uri, version, headers, body, []⟩

/-- This is `transmitter::recv_request`: the builder and its call of `build`. -/
def recvRequest (io : Nio) : Except Fault Request := do
  let request ← receive io
  request.validate

end Request

namespace Response

/-- The value `none` is the null pointer that stands for the reason of an unknown status. -/
def validate (response : Response) : Option Response := do
  let reason ← if response.reason.isEmpty then response.status.reasonPhrase else some response.reason
  pure { response with reason, headers := validateMessage response.headers response.body }

/-- The status line and the headers as they are sent. -/
def str (response : Response) : Text :=
  response.version.str ++ text " " ++ decimal response.status.value ++ text " " ++ response.reason ++ text "\r\n" ++
    response.headers.str ++ text "\r\n"

end Response

end SimpleNFast.Http
