/-
This file models reads and writes over connections that fail: `poll` and `map_system_error` of `net.cpp`, the loops of
`sock.cpp` and `cnxn.cpp` over the results of their calls, and the integers and strings of `nio.h` and `nio.cpp`.
-/

import SimpleNFast.Construction.Text
import SimpleNFast.Library.Loops

namespace SimpleNFast.Net.Ports

/-- The system errors that the code tells apart. -/
inductive Errno where
  | success
  | EINTR
  | EAGAIN
  | EWOULDBLOCK
  | ECONNRESET
  | ECONNABORTED
  | ETIMEDOUT
  | EPIPE
  | other (error : Nat)
  deriving DecidableEq, Repr

/-- The results of reads and writes. -/
inductive IoCode where
  | E_ok
  | E_invalid_arg
  | E_read_failed
  | E_write_failed
  | E_connect_failed
  | E_accept_failed
  | E_close_failed
  | E_syscall_failed
  | E_ssl_error
  | E_try_again
  | E_connection_reset
  | E_timed_out
  | E_broken_pipe
  deriving DecidableEq, Repr

/-- A call returns, or it throws. -/
inductive IoEnd where
  | returned (code : IoCode)
  | sslException
  | badArrayNewLength
  deriving DecidableEq, Repr

def mapSystemError (error : Errno) (default : IoCode) : IoCode :=
  match error with
  | .EAGAIN | .EWOULDBLOCK => .E_try_again
  | .ECONNRESET | .ECONNABORTED => .E_connection_reset
  | .ETIMEDOUT => .E_timed_out
  | .EPIPE => .E_broken_pipe
  | _ => default

/-- What a call of poll(2) for one socket finds. -/
inductive PollCall where
  | ready
  | expired
  | failed (error : Errno)
  deriving DecidableEq, Repr

/-- The number of ready sockets and the system error; a signal does not end it. -/
def poll : List PollCall → Int × Errno
  | [] => (1, .success)
  | .ready :: _ => (1, .success)
  | .expired :: _ => (0, .success)
  | .failed error :: rest => if error = .EINTR then poll rest else (-1, error)

/-- Operation codes. -/
inductive Operation where
  | unknown
  | connect
  | accept
  | read
  | write
  | shutdown
  deriving DecidableEq, Repr

/-- The code of a read or a write that fails for no special reason. -/
def Operation.failed : Operation → IoCode
  | read => .E_read_failed
  | write => .E_write_failed
  | connect => .E_connect_failed
  | accept => .E_accept_failed
  | shutdown => .E_close_failed
  | unknown => .E_syscall_failed

/-- What `::recv` or `::send` does: it moves at most this many bytes, or it fails. -/
inductive SocketCall where
  | moves (most : Nat)
  | failed (error : Errno)
  deriving DecidableEq, Repr

/-- One pass of the loop: the calls of poll(2), which are made when the socket does not block, and the call behind them. -/
structure SocketPass where
  polls : List PollCall
  call : SocketCall
  deriving DecidableEq, Repr

/-- The end of a read or a write, the bytes that were moved, those that are left, and the passes that were not made. -/
structure Moved (pass : Type) where
  ending : IoEnd
  bytes : List UInt8
  left : List UInt8
  passes : List pass
  deriving DecidableEq, Repr

def POLL_WAIT_FOREVER : Int := -1

/-- A socket with what its calls do; after the listed passes a call moves everything. -/
structure Plain where
  blocking : Bool
  passes : List SocketPass
  deriving DecidableEq, Repr

namespace Plain

/-- With a timeout the socket does not block during the call. -/
def isPolled (socket : Plain) (timeout : Int) : Bool := timeout != POLL_WAIT_FOREVER || !socket.blocking

/-- The loop of `readn` and `writen` takes bytes from the front of a stream, which is the memory of the caller in a write. -/
def loop (operation : Operation) (polled : Bool) :
    List SocketPass → List UInt8 → Nat → List UInt8 → Moved SocketPass
  | [], stream, count, moved => ⟨.returned .E_ok, moved ++ stream.take count, stream.drop count, []⟩
  | pass :: passes, stream, count, moved =>
      let (ready, error) := if polled then poll pass.polls else (1, .success)
      if ready ≤ 0 then ⟨.returned (mapSystemError error operation.failed), moved, stream, passes⟩
      else
        match pass.call with
        | .failed error =>
            if error = .EINTR then loop operation polled passes stream count moved
            else ⟨.returned (mapSystemError error operation.failed), moved, stream, passes⟩
        | .moves most =>
            let bytes := stream.take (min most count)
            if bytes.length = 0 then ⟨.returned .E_ok, moved, stream, passes⟩
            else if count - bytes.length = 0 then
              ⟨.returned .E_ok, moved ++ bytes, stream.drop bytes.length, passes⟩
            else loop operation polled passes (stream.drop bytes.length) (count - bytes.length) (moved ++ bytes)

end Plain

/-- The codes of `SSL_get_error` that the code tells apart. -/
inductive SslError where
  | SSL_ERROR_NONE
  | SSL_ERROR_ZERO_RETURN
  | SSL_ERROR_WANT_READ
  | SSL_ERROR_WANT_WRITE
  | SSL_ERROR_SYSCALL
  | other (error : Nat)
  deriving DecidableEq, Repr

/-- What `SSL_read` or `SSL_write` does: it moves at most this many bytes, or its result is not positive. -/
inductive TlsCall where
  | moves (most : Nat)
  | failed (error : Int) (sslError : SslError) (queued : Bool) (osError : Errno)
  deriving DecidableEq, Repr

structure TlsPass where
  call : TlsCall
  polls : List PollCall
  deriving DecidableEq, Repr

/-- This is `handle_ssl_error` for a valid socket; the queue of the library may hold an error. -/
def handleSslError (operation : Operation) (polls : List PollCall) (error : Int) (sslError : SslError) (queued : Bool)
    (osError : Errno) : IoEnd :=
  if 0 < error then .returned .E_ok
  else
    let code : IoCode :=
      match sslError with
      | .SSL_ERROR_NONE | .SSL_ERROR_ZERO_RETURN => .E_ok
      | .SSL_ERROR_WANT_READ | .SSL_ERROR_WANT_WRITE => .E_try_again
      | .SSL_ERROR_SYSCALL =>
          if queued then .E_ssl_error
          else if error = 0 then .E_syscall_failed
          else if error = -1 then
            if operation = .shutdown ∧ osError = .success then .E_ok else operation.failed
          else .E_ok
      | .other _ => .E_ssl_error
    let code :=
      if code = .E_try_again then
        let (ready, _) := poll polls
        if ready = 0 then .E_timed_out else if ready = -1 then .E_syscall_failed else .E_try_again
      else code
    if code = .E_ssl_error then .sslException else .returned code

/-- A TLS connection with what its calls do; a stream that is at its end gives the code of a closed connection. -/
structure Secure where
  passes : List TlsPass
  deriving DecidableEq, Repr

namespace Secure

/-- The loop of `readn` and `writen`. -/
def loop (operation : Operation) : List TlsPass → List UInt8 → Nat → List UInt8 → Moved TlsPass
  | [], stream, count, moved => ⟨.returned .E_ok, moved ++ stream.take count, stream.drop count, []⟩
  | pass :: passes, stream, count, moved =>
      match pass.call with
      | .failed error sslError queued osError =>
          let ending := handleSslError operation pass.polls error sslError queued osError
          if ending = .returned .E_try_again then loop operation passes stream count moved
          else ⟨ending, moved, stream, passes⟩
      | .moves most =>
          let bytes := stream.take (min most count)
          if bytes.length = 0 then
            ⟨handleSslError operation pass.polls 0 .SSL_ERROR_ZERO_RETURN false .success, moved, stream, passes⟩
          else if count - bytes.length = 0 then
            ⟨.returned .E_ok, moved ++ bytes, stream.drop bytes.length, passes⟩
          else loop operation passes (stream.drop bytes.length) (count - bytes.length) (moved ++ bytes)

end Secure

/-- The two classes under `nio`. -/
inductive Port where
  | plain (socket : Plain)
  | secure (connection : Secure)
  deriving DecidableEq, Repr

namespace Port

/-- The loop of `readn` or `writen` for a positive size. -/
def move (operation : Operation) (timeout : Int) (port : Port) (stream : List UInt8) (count : Nat) :
    IoEnd × List UInt8 × List UInt8 × Port :=
  match port with
  | plain socket =>
      let moved := Plain.loop operation (socket.isPolled timeout) socket.passes stream count []
      (moved.ending, moved.bytes, moved.left, plain { socket with passes := moved.passes })
  | secure connection =>
      let moved := Secure.loop operation connection.passes stream count []
      (moved.ending, moved.bytes, moved.left, secure ⟨moved.passes⟩)

/-- The end of a read, the bytes it has read, those that are left on the connection, and the connection. -/
def readn (timeout : Int) (port : Port) (incoming : List UInt8) (toRead : Int) :
    IoEnd × List UInt8 × List UInt8 × Port :=
  if toRead ≤ 0 then (.returned .E_invalid_arg, [], incoming, port)
  else port.move .read timeout incoming toRead.toNat

/-- The end of a write, the bytes it has written, and the connection. -/
def writen (timeout : Int) (port : Port) (buf : List UInt8) (toWrite : Int) : IoEnd × List UInt8 × Port :=
  if toWrite ≤ 0 then (.returned .E_invalid_arg, [], port)
  else
    let (ending, written, _, port) := port.move .write timeout buf toWrite.toNat
    (ending, written, port)

end Port

/-- A host has the first byte of an integer at its low or at its high end. -/
structure Host where
  bigEndian : Bool
  deriving DecidableEq, Repr

/-- The bytes of an integer from its low end. -/
def lowBytes : Nat → Nat → List UInt8
  | 0, _ => []
  | size + 1, value => UInt8.ofNat value :: lowBytes size (value / 256)

/-- The integer of bytes from its low end. -/
def ofLowBytes : List UInt8 → Nat
  | [] => 0
  | byte :: rest => byte.toNat + 256 * ofLowBytes rest

namespace Host

/-- The memory of an integer. -/
def memory (host : Host) (size value : Nat) : List UInt8 :=
  if host.bigEndian then (lowBytes size value).reverse else lowBytes size value

def ofMemory (host : Host) (bytes : List UInt8) : Nat :=
  ofLowBytes (if host.bigEndian then bytes.reverse else bytes)

/-- This is `swap`, which reverses the memory. -/
def swap (host : Host) (size value : Nat) : Nat := host.ofMemory (host.memory size value).reverse

/-- For two and four bytes this is a function of the system that does the same. -/
def hton (host : Host) (size value : Nat) : Nat := if host.bigEndian then value else host.swap size value

def ntoh (host : Host) (size value : Nat) : Nat := if host.bigEndian then value else host.swap size value

end Host

/-- The integers that can be sent have two, four or eight bytes. -/
inductive Width where
  | two
  | four
  | eight
  deriving DecidableEq, Repr

def Width.size : Width → Nat
  | two => 2
  | four => 4
  | eight => 8

/-- What is sent: an integer as its bits, or a string. -/
inductive Item where
  | integral (width : Width) (value : Fin (256 ^ width.size))
  | string (content : Text)
  deriving DecidableEq, Repr

/-- What is expected by the reader. -/
inductive Kind where
  | integral (width : Width)
  | string
  deriving DecidableEq, Repr

def Item.kind : Item → Kind
  | integral width _ => .integral width
  | string _ => .string

namespace Port

variable (host : Host) (timeout : Int)

/-- The end of a transfer that has to be complete. -/
def complete (failed : IoCode) (ending : IoEnd) (size : Int) (bytes : List UInt8) : IoEnd :=
  if ending = .returned .E_ok then
    if size ≠ bytes.length then .returned failed else .returned .E_ok
  else ending

def writeIntegral (port : Port) (size value : Nat) : IoEnd × List UInt8 × Port :=
  let (ending, bytes, port) := port.writen timeout (host.memory size (host.hton size value)) size
  (complete .E_write_failed ending size bytes, bytes, port)

def writeString (port : Port) (content : Text) : IoEnd × List UInt8 × Port :=
  let toWrite := castInt content.length
  let (ending, length, port) := port.writeIntegral host timeout 4 (BitVec.ofInt 32 toWrite).toNat
  if ending = .returned .E_ok then
    let (ending, bytes, port) := port.writen timeout content toWrite
    (complete .E_write_failed ending toWrite bytes, length ++ bytes, port)
  else (ending, length, port)

def write (port : Port) : Item → IoEnd × List UInt8 × Port
  | .integral width value => port.writeIntegral host timeout width.size value
  | .string content => port.writeString host timeout content

/-- The end of a read, the integer that was read, what is left, and the connection. -/
def readIntegral (port : Port) (incoming : List UInt8) (size : Nat) : IoEnd × Nat × List UInt8 × Port :=
  let (ending, bytes, left, port) := port.readn timeout incoming size
  (complete .E_read_failed ending size bytes, host.ntoh size (host.ofMemory bytes), left, port)

/-- The string is read into an empty variable. -/
def readString (port : Port) (incoming : List UInt8) : IoEnd × Text × List UInt8 × Port :=
  let (ending, length, left, port) := port.readIntegral host timeout incoming 4
  if ending = .returned .E_ok then
    let toRead := (BitVec.ofNat 32 length).toInt
    if toRead < 0 then (.badArrayNewLength, [], left, port)
    else
      let (ending, bytes, left, port) := port.readn timeout left toRead
      (complete .E_read_failed ending toRead bytes, bytes, left, port)
  else (ending, [], left, port)

/-- The value `none` is a read that did not return `E_ok`. -/
def read (port : Port) (incoming : List UInt8) : Kind → Option Item × List UInt8 × Port
  | .integral width =>
      let (ending, value, left, port) := port.readIntegral host timeout incoming width.size
      (if ending = .returned .E_ok then some (.integral width (Fin.ofNat (256 ^ width.size) value)) else none, left, port)
  | .string =>
      let (ending, content, left, port) := port.readString host timeout incoming
      (if ending = .returned .E_ok then some (.string content) else none, left, port)

/-- Items are written one after the other until a write does not return `E_ok`: those that were written, and the bytes on
the connection. -/
def writes : Port → List Item → List Item × List UInt8
  | _, [] => ([], [])
  | port, item :: items =>
      let (ending, bytes, port) := port.write host timeout item
      if ending = .returned .E_ok then
        let (written, more) := writes port items
        (item :: written, bytes ++ more)
      else ([], bytes)

/-- Items are read one after the other until a read does not return `E_ok`. -/
def reads : Port → List UInt8 → List Kind → List Item × List UInt8
  | _, incoming, [] => ([], incoming)
  | port, incoming, kind :: kinds =>
      match port.read host timeout incoming kind with
      | (some item, left, port) =>
          let (items, left) := reads port left kinds
          (item :: items, left)
      | (none, left, _) => ([], left)

/-- No call fails: signals and unready sockets only delay the transfer. -/
def isFair : Port → Bool
  | plain socket => socket.passes.all fun pass => 0 < (poll pass.polls).1 &&
      match pass.call with
      | .moves most => 0 < most
      | .failed error => error == .EINTR
  | secure connection => connection.passes.all fun pass =>
      match pass.call with
      | .moves most => 0 < most
      | .failed error sslError _ _ => error ≤ 0 && 0 < (poll pass.polls).1 &&
          (sslError == .SSL_ERROR_WANT_READ || sslError == .SSL_ERROR_WANT_WRITE)

end Port

end SimpleNFast.Net.Ports
