/-
This file models the byte sources of a message body: a socket behind `nio` and an input stream.
-/

import SimpleNFast.Construction.Http.Scanner

namespace SimpleNFast.Http

/-- A system error has a number and the message of its category. -/
structure SysError where
  number : Int
  message : Text
  deriving DecidableEq, Repr

/-- A call that fails without a system error leaves the number zero. -/
def SysError.none : SysError := ⟨0, text "Success"⟩

/-- The text of a `std::system_error` has its own part and the message of the error. -/
def SysError.fault (error : SysError) (what : Text) : Fault :=
  .systemError (what ++ text ": " ++ error.message)

/-- The peer closes its side after its last byte, or the next read fails. -/
inductive Ending where
  | closed
  | failed (error : SysError)
  deriving DecidableEq, Repr

/-- The reading side of an unbuffered connection. -/
structure Nio where
  incoming : Text
  ending : Ending
  deriving DecidableEq, Repr

namespace Nio

/-- This is `nio::read` through `socket::readn`: fewer bytes come only at the end. -/
def read (io : Nio) (toRead : Int) : Except SysError (Text × Nio) :=
  if toRead ≤ 0 then .error .none
  else if toRead ≤ io.incoming.length then
    .ok (io.incoming.take toRead.toNat, { io with incoming := io.incoming.drop toRead.toNat })
  else
    match io.ending with
    | .closed => .ok (io.incoming, { io with incoming := [] })
    | .failed error => .error error

def getChar (io : Nio) : Except SysError (UInt8 × Nio) := do
  match ← io.read 1 with
  | ([next], io) => pure (next, io)
  | _ => throw .none

/-- The loop of `nio::readline` reads single bytes up to a newline. -/
def readlineLoop : Nat → Nio → Except SysError (Text × Nio)
  | 0, _ => .error .none
  | fuel + 1, io => do
      match ← io.read 1 with
      | ([], _) => throw .none
      | (next :: _, io) =>
          if next == byte '\n' then pure ([next], io)
          else
            let (rest, io) ← readlineLoop fuel io
            pure (next :: rest, io)

def readline (io : Nio) : Except SysError (Text × Nio) := readlineLoop (io.incoming.length + 1) io

end Nio

/-- An input stream fails when a read finds no byte, and stays failed. -/
structure IStream where
  chars : Text
  fail : Bool
  deriving DecidableEq, Repr

namespace IStream

def get (is : IStream) : Option UInt8 × IStream :=
  if is.fail then (none, is)
  else
    match is.chars with
    | [] => (none, { is with fail := true })
    | next :: rest => (some next, { is with chars := rest })

def readlineLoop : Nat → IStream → Text × IStream
  | 0, is => ([], is)
  | fuel + 1, is =>
      match is.get with
      | (none, is) => ([], is)
      | (some next, is) =>
          if next == byte '\n' then ([next], is)
          else
            let (rest, is) := readlineLoop fuel is
            (next :: rest, is)

/-- The value `none` is the result false of `readline`. -/
def readline (is : IStream) : Option Text × IStream :=
  let (line, is) := readlineLoop (is.chars.length + 1) is
  (if is.fail then none else some line, is)

/-- The loop of `read` takes a byte before it looks at the count, so it drops one byte. -/
def readLoop (toRead : Int) : Nat → Nat → IStream → Text × IStream
  | 0, _, is => ([], is)
  | fuel + 1, count, is =>
      match is.get with
      | (none, is) => ([], is)
      | (some next, is) =>
          if count < toRead then
            let (rest, is) := readLoop toRead fuel (count + 1) is
            (next :: rest, is)
          else ([], is)

/-- The value `none` is the result false of `read`. -/
def read (is : IStream) (toRead : Int) : Option Text × IStream :=
  let (data, is) := readLoop toRead (is.chars.length + 1) 0 is
  (if is.fail then none else some data, is)

end IStream

/-- The body classes for a socket and for a stream differ in these three calls. -/
structure Input (source : Type) where
  readline : source → Except Fault (Text × source)
  getc : source → Except Fault (Int × source)
  read : source → Int → Except Fault (Text × source)

/-- The calls of `body_source_socket`. -/
def socketInput : Input Nio where
  readline io := io.readline.mapError fun error => error.fault (text "failed to read line from socket")
  getc io := do
    let (next, io) ← io.getChar.mapError fun error => error.fault (text "failed to read from socket")
    pure (toInt next, io)
  read io toRead :=
    (io.read toRead).mapError fun error => error.fault (text "failed to read data from socket")

/-- The calls of `body_source_istream`. -/
def istreamInput : Input IStream where
  readline is :=
    match is.readline with
    | (none, _) => .error (.runtimeError (text "failed to read line from input stream"))
    | (some line, is) => .ok (line, is)
  getc is :=
    match is.get with
    | (none, is) => .ok (-1, is)
    | (some next, is) => .ok (next.toNat, is)
  read is toRead :=
    match is.read toRead with
    | (none, _) => .error (.runtimeError (text "failed to read data from input stream"))
    | (some data, is) => .ok (data, is)

end SimpleNFast.Http
