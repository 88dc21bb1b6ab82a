/-
This file states what the framing headers of a message have to say about its body, and what the loop over a body of a
declared length asks its source for.
-/

import SimpleNFast.Construction.Http.Message
import SimpleNFast.Construction.Http.Body

namespace SimpleNFast.Http

/-- A call of `body_factory` with its arguments. -/
inductive BodyFactory where
  | fromBuffer (data : Text)
  | fromString (data : Text)
  | fromFile (filename content : Text)
  | fromFunctor (calls : List Produced)
  | fromIstream (is : IStream)
  | fromIstreamSized (is : IStream) (length : Nat)
  | fromSocket (io : Nio)
  | fromSocketSized (io : Nio) (length : Nat)
  deriving DecidableEq, Repr

namespace BodyFactory

def make : BodyFactory → Body
  | .fromBuffer data => Body.fromBuffer data
  | .fromString data => Body.fromString data
  | .fromFile filename content => Body.fromFile filename content
  | .fromFunctor calls => Body.fromFunctor calls
  | .fromIstream is => Body.fromIstream is
  | .fromIstreamSized is length => Body.fromIstreamSized is length
  | .fromSocket io => Body.fromSocket io
  | .fromSocketSized io length => Body.fromSocketSized io length

/-- The length that a stream body is made with; the other bodies have none. -/
def streamLength : BodyFactory → Nat
  | .fromIstreamSized _ length | .fromSocketSized _ length => length
  | _ => 0

end BodyFactory

/-- The codings of a message, where a missing header has none. -/
def Headers.codings (headers : Headers) : List Token := headers.transferEncoding.toOption.getD []

/-- The body is chunked, the last coding says so and no length is given. -/
structure FramesChunked (headers : Headers) (body : Body) : Prop where
  chunked : body.chunked = true
  once : headers.codings.countP Token.isChunked = 1
  last : headers.codings.getLast?.any Token.isChunked = true
  length : headers.isSet CONTENT_LENGTH = false

/-- The body is not chunked, no coding says so and the length is the number of bytes of the body. -/
structure FramesLength (headers : Headers) (body : Body) : Prop where
  chunked : body.chunked = false
  none : headers.codings.countP Token.isChunked = 0
  length : ∃ data last, Drains body data last ∧ headers.contentLength = .ok data.length

/-- Exactly one of the two framings describes the body. -/
def Framed (headers : Headers) (body : Body) : Prop := Xor (FramesChunked headers body) (FramesLength headers body)

/-- A chunked body needs codings without `chunked` or with it at the end only, and another body needs it
once at most and a length that is not the one of a stream. -/
def framesAfterwards (headers : Headers) (factory : BodyFactory) : Prop :=
  if factory.make.chunked then
    headers.codings.countP Token.isChunked = 0 ∨
      (headers.codings.countP Token.isChunked = 1 ∧ headers.codings.getLast?.any Token.isChunked = true)
  else headers.codings.countP Token.isChunked ≤ 1 ∧ factory.streamLength = 0

/-- The source of `from_istream` or of `from_socket`. -/
inductive ByteSource where
  | istream (is : IStream)
  | socket (io : Nio)
  deriving DecidableEq, Repr

namespace ByteSource

def bytes : ByteSource → Text
  | .istream is => is.chars
  | .socket io => io.incoming

def body (source : ByteSource) (length : Nat) : Body :=
  match source with
  | .istream is => .fromIstreamSized is length
  | .socket io => .fromSocketSized io length

/-- The source right after some of its bytes. -/
def skip (source : ByteSource) (count : Nat) : ByteSource :=
  match source with
  | .istream is => .istream { is with chars := is.chars.drop count }
  | .socket io => .socket { io with incoming := io.incoming.drop count }

def isSocket : ByteSource → Bool
  | .istream _ => false
  | .socket _ => true

end ByteSource

namespace Body

def source : Body → Option ByteSource
  | .istream body => some (.istream body.input)
  | .socket body => some (.socket body.input)
  | _ => none

/-- The number of bytes that `next` asks its source for. -/
def request : Body → Option Int
  | .istream body => some body.toRead
  | .socket body => some body.toRead
  | _ => none

end Body

/-- The loop over `has_next` and `next` asks for these numbers of bytes and yields this data. -/
inductive Iterates : Body → List Int → Text → Body → Prop where
  | done {body last : Body} (none : body.hasNext = .ok (false, last)) : Iterates body [] [] last
  | step {body ready later last : Body} {amount : Int} {requests : List Int} {data rest : Text}
      (more : body.hasNext = .ok (true, ready)) (asked : ready.request = some amount)
      (taken : ready.next = .ok (data, later)) (others : Iterates later requests rest last) :
      Iterates body (amount :: requests) (data ++ rest) last

/-- A body of a declared length delivers as many bytes, and the source stands right after them. -/
structure FixedLength (source : ByteSource) (length : Nat) (requests : List Int) (last : Body) : Prop where
  delivers : Iterates (source.body length) requests (source.bytes.take length) last
  bounded : ∀ amount ∈ requests, 1 ≤ amount ∧ amount ≤ 65536
  stands : last.source = some (source.skip length)

end SimpleNFast.Http
