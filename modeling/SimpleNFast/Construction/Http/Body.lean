/-
This file models `body.h` and `body.cpp`: the six kinds of a message body.
-/

import SimpleNFast.Construction.Http.Streams

namespace SimpleNFast.Http

/-- The value of `body::CHUNKSIZE`. -/
def chunkSize : Nat := 65536

/-- What a file still delivers, and the error of its reads. -/
structure FileSource where
  filename : Text
  size : Nat
  read : Nat
  rest : Text
  error : Option SysError
  deriving DecidableEq, Repr

/-- One call of a body functor has a return code, the bytes of its buffer and the extensions. -/
structure Produced where
  ok : Bool
  data : Text
  extensions : Params
  deriving DecidableEq, Repr

/-- The calls that are left, the bytes of the current chunk and its extensions. -/
structure FunctorSource where
  calls : List Produced
  current : Text
  extensions : Params
  deriving DecidableEq, Repr

/-- The size is the one of the data, or of the current chunk when the body is chunked. -/
structure StreamSource (source : Type) where
  input : source
  size : Nat
  read : Nat
  chunked : Bool
  extensions : Params
  deriving DecidableEq, Repr

/-- A call of an exhausted functor yields an empty chunk. -/
def FunctorSource.call (source : FunctorSource) : Produced × List Produced :=
  match source.calls with
  | [] => (⟨true, [], []⟩, [])
  | produced :: calls => (produced, calls)

def FunctorSource.hasNext (source : FunctorSource) : Except Fault (Bool × FunctorSource) :=
  if source.current ≠ [] then .ok (true, source)
  else
    let (produced, calls) := source.call
    if produced.ok then
      .ok (produced.data ≠ [], ⟨calls, produced.data, produced.extensions⟩)
    else .error (.runtimeError (text "call to the functor failed"))

namespace StreamSource

variable {source : Type}

/-- The line before a chunk: its size and the extensions where there are any. -/
def chunkLine : Scan (Nat × Option Params) := do
  match ← Scanner.readChunkSize with
  | none => throw (.badMessage (text "no chunk size"))
  | some size =>
      let extensions ← if ← Scanner.readSpecial ';' then some <$> Scanner.readParameters else pure none
      if !(← Scanner.readCrlf) then
        throw (.badMessage (text "chunk size line not terminated properly"))
      pure (size, extensions)

/-- The second character is read only when the first one is a carriage return. -/
def expectCrlf (input : Input source) (from_ : source) (what : Text) : Except Fault source := do
  let (first, from_) ← input.getc from_
  if first != code '\r' then throw (.badMessage what)
  let (second, from_) ← input.getc from_
  if second != code '\n' then throw (.badMessage what)
  pure from_

/-- The count of bytes that were read stays as it is when a new chunk begins. -/
def hasNext (input : Input source) (body : StreamSource source) :
    Except Fault (Bool × StreamSource source) := do
  if body.read < body.size then pure (true, body)
  else if body.chunked then
    let (line, rest) ← input.readline body.input
    let ((size, extensions), _) ← chunkLine.run (Scanner.init line)
    let rest ←
      if size = 0 then expectCrlf input rest (text "message body not terminated properly")
      else pure rest
    let body := { body with input := rest, size, extensions := extensions.getD body.extensions }
    pure (body.read < body.size, body)
  else pure (false, body)

/-- The number of bytes goes through a conversion to `int`. -/
def toRead (body : StreamSource source) : Int :=
  min (castInt ((body.size : Int) - body.read)) chunkSize

def next (input : Input source) (body : StreamSource source) :
    Except Fault (Text × StreamSource source) := do
  let (data, rest) ← input.read body.input body.toRead
  let body := { body with input := rest, read := body.read + data.length }
  if body.chunked && body.size ≤ body.read then
    let rest ← expectCrlf input body.input (text "chunk data not terminated properly")
    pure (data, { body with input := rest })
  else pure (data, body)

end StreamSource

/-- A message body of one of the six classes. -/
inductive Body where
  | buffer (data : Text) (start : Nat)
  | string (data : Text) (start : Nat)
  | file (source : FileSource)
  | functor (source : FunctorSource)
  | istream (source : StreamSource IStream)
  | socket (source : StreamSource Nio)
  deriving DecidableEq, Repr

namespace Body

def fromBuffer (data : Text) : Body := .buffer data 0

def fromString (data : Text) : Body := .string data 0

def fromFile (filename content : Text) : Body :=
  .file ⟨filename, content.length, 0, content, none⟩

def fromFunctor (calls : List Produced) : Body := .functor ⟨calls, [], []⟩

def fromIstream (is : IStream) : Body := .istream ⟨is, 0, 0, true, []⟩

def fromIstreamSized (is : IStream) (length : Nat) : Body := .istream ⟨is, length, 0, false, []⟩

def fromSocket (io : Nio) : Body := .socket ⟨io, 0, 0, true, []⟩

def fromSocketSized (io : Nio) (length : Nat) : Body := .socket ⟨io, length, 0, false, []⟩

def chunked : Body → Bool
  | .buffer _ _ | .string _ _ | .file _ => false
  | .functor _ => true
  | .istream source => source.chunked
  | .socket source => source.chunked

/-- The stream classes declare `length` without `const`, so a call through `body` yields zero. -/
def length : Body → Nat
  | .buffer data _ | .string data _ => data.length
  | .file source => source.size
  | .functor _ | .istream _ | .socket _ => 0

def chunkExtensions : Body → Params
  | .buffer _ _ | .string _ _ | .file _ => []
  | .functor source => source.extensions
  | .istream source => source.extensions
  | .socket source => source.extensions

def hasNext : Body → Except Fault (Bool × Body)
  | .buffer data start => .ok (start < data.length, .buffer data start)
  | .string data start => .ok (start < data.length, .string data start)
  | .file source => .ok (source.read < source.size, .file source)
  | .functor source => source.hasNext.map fun (more, source) => (more, .functor source)
  | .istream source => (source.hasNext istreamInput).map fun (more, source) => (more, .istream source)
  | .socket source => (source.hasNext socketInput).map fun (more, source) => (more, .socket source)

/-- A null pointer with length zero is the empty list. -/
def next : Body → Except Fault (Text × Body)
  | .buffer data start =>
      if start < data.length then .ok (data, .buffer data (start + data.length))
      else .ok ([], .buffer data start)
  | .string data start =>
      if start < data.length then .ok (data, .string data (start + data.length))
      else .ok ([], .string data start)
  | .file source =>
      match source.error with
      | some error =>
          .error (error.fault (text "failed to read from file (" ++ source.filename ++
            text ") at index " ++ digits 10 source.read))
      | none =>
          let data := source.rest.take chunkSize
          .ok (data, .file { source with read := source.read + data.length,
                                         rest := source.rest.drop chunkSize })
  | .functor source => .ok (source.current, .functor { source with current := [] })
  | .istream source => (source.next istreamInput).map fun (data, source) => (data, .istream source)
  | .socket source => (source.next socketInput).map fun (data, source) => (data, .socket source)

end Body

/-- The loop over `has_next` and `next` ends without an exception and yields this data. -/
inductive Drains : Body → Text → Body → Prop where
  | done {body last : Body} (none : body.hasNext = .ok (false, last)) : Drains body [] last
  | step {body ready later last : Body} {data rest : Text}
      (more : body.hasNext = .ok (true, ready)) (taken : ready.next = .ok (data, later))
      (drained : Drains later rest last) : Drains body (data ++ rest) last

end SimpleNFast.Http
