/-
This file models the strings of `nio.cpp` with their length in front, and `readn` and `writen` of `sock.cpp` under them.
-/

import SimpleNFast.Construction.Net.Nio
import SimpleNFast.Construction.Text

namespace SimpleNFast.Net

/-- The stream that a socket writes to; a call of `send` takes at least one byte, and at most its portion. -/
structure Sink where
  bytes : List UInt8
  portion : Nat → Nat
  calls : Nat

namespace Socket

/-- This is `::recv` of a stream that does not fail; it gives nothing only at the end of the stream. -/
def recv (source : Source) (count : Nat) : List UInt8 × Source :=
  (source.bytes.take (source.taken count),
    { source with bytes := source.bytes.drop (source.taken count), calls := source.calls + 1 })

/-- The loop of `readn`: the bytes that it has read, and those that are missing. -/
def readLoop : Nat → Source → Nat → List UInt8 → List UInt8 × Source
  | 0, source, _, buf => (buf, source)
  | fuel + 1, source, toRead, buf =>
      let (bytes, source) := recv source toRead
      if bytes.length = 0 then (buf, source)
      else if toRead - bytes.length = 0 then (buf ++ bytes, source)
      else readLoop fuel source (toRead - bytes.length) (buf ++ bytes)

/-- Each iteration reads a byte at least. -/
def readn (source : Source) (toRead : Int) : Delivery × Source :=
  if toRead ≤ 0 then (⟨.E_invalid_arg, []⟩, source)
  else
    let (bytes, source) := readLoop toRead.toNat source toRead.toNat []
    (⟨.E_ok, bytes⟩, source)

/-- A source whose `readn` waits for all bytes, as the one of a socket does. -/
def source (under : Source) : Source := ⟨under.bytes, fun _ => under.bytes.length, 0⟩

/-- This is `::send` of a stream that does not fail. -/
def send (sink : Sink) (buf : List UInt8) : Nat × Sink :=
  let count := min buf.length (sink.portion sink.calls + 1)
  (count, { sink with bytes := sink.bytes ++ buf.take count, calls := sink.calls + 1 })

/-- The loop of `writen`: the bytes that are left, and the number of those that were written. -/
def writeLoop : Nat → Sink → List UInt8 → Nat → Nat × Sink
  | 0, sink, _, nbytes => (nbytes, sink)
  | fuel + 1, sink, buf, nbytes =>
      let (count, sink) := send sink buf
      if count = 0 then (nbytes, sink)
      else if buf.length - count = 0 then (nbytes + count, sink)
      else writeLoop fuel sink (buf.drop count) (nbytes + count)

/-- The result with the number of the bytes that were written. -/
def writen (sink : Sink) (buf : List UInt8) (toWrite : Int) : Code × Nat × Sink :=
  if toWrite ≤ 0 then (.E_invalid_arg, 0, sink)
  else
    let (count, sink) := writeLoop toWrite.toNat sink (buf.take toWrite.toNat) 0
    (.E_ok, count, sink)

end Socket

/-- The four bytes of an `int` in the order of the network. -/
def hton (data : Int) : List UInt8 :=
  let value := (BitVec.ofInt 32 data).toNat
  [(value / 2 ^ 24).toUInt8, (value / 2 ^ 16).toUInt8, (value / 2 ^ 8).toUInt8, value.toUInt8]

/-- The `int` of four bytes in the order of the network. -/
def ntoh (bytes : List UInt8) : Int :=
  (BitVec.ofNat 32 (bytes.foldl (fun value next => value * 256 + next.toNat) 0)).toInt

/-- The results of the calls for strings. -/
inductive StringCode where
  | of (code : Code)
  | E_read_failed
  | E_write_failed
  deriving DecidableEq, Repr

/-- A call returns, or the allocation of its buffer throws. -/
inductive StringEnd where
  | returned (code : StringCode)
  | badArrayNewLength
  deriving DecidableEq, Repr

/-- The end of a call of `read_string`, the string of the caller, and the sizes of the allocations and the reads. -/
structure StringRead where
  ending : StringEnd
  str : Text
  allocated : List Int
  asked : List Int
  io : Nio

namespace Nio

/-- The result of a read that has to deliver everything. -/
def readCode (delivery : Delivery) (toRead : Int) : StringCode :=
  if delivery.code = .E_ok then
    if toRead ≠ delivery.bytes.length then .E_read_failed else .of .E_ok
  else .of delivery.code

/-- This is `read_string`; what was read is put before what the string already holds. -/
def readString (io : Nio) (str : Text) : Option StringRead := do
  let (length, io) ← io.read 4 (List.replicate 4 0)
  if readCode length 4 ≠ .of .E_ok then pure ⟨.returned (readCode length 4), str, [], [4], io⟩
  else
    let toRead := ntoh length.bytes
    if toRead < 0 then pure ⟨.badArrayNewLength, str, [toRead], [4], io⟩
    else
      let (payload, io) ← io.read toRead (List.replicate toRead.toNat 0)
      if readCode payload toRead ≠ .of .E_ok then
        pure ⟨.returned (readCode payload toRead), str, [toRead], [4, toRead], io⟩
      else pure ⟨.returned (.of .E_ok), payload.bytes ++ str, [toRead], [4, toRead], io⟩

/-- Strings are read one after another into variables of the caller. -/
def readStrings : Nio → List Text → Option (List (StringEnd × Text))
  | _, [] => some []
  | io, str :: rest => do
      let first ← io.readString str
      let others ← readStrings first.io rest
      pure ((first.ending, first.str) :: others)

end Nio

namespace Sink

/-- The result of a write that has to take everything. -/
def writeCode (written : Code × Nat × Sink) (toWrite : Int) : StringCode :=
  if written.1 = .E_ok then
    if toWrite ≠ written.2.1 then .E_write_failed else .of .E_ok
  else .of written.1

/-- This is `write_string`. -/
def writeString (sink : Sink) (str : Text) : StringCode × Sink :=
  let toWrite := castInt str.length
  let length := Socket.writen sink (hton toWrite) 4
  if writeCode length 4 ≠ .of .E_ok then (writeCode length 4, length.2.2)
  else
    let payload := Socket.writen length.2.2 str toWrite
    (writeCode payload toWrite, payload.2.2)

/-- The results of strings that are written one after another, and what was sent. -/
def writeStrings : Sink → List Text → List StringCode × Sink
  | sink, [] => ([], sink)
  | sink, str :: rest =>
      let (code, sink) := sink.writeString str
      let (codes, sink) := writeStrings sink rest
      (code :: codes, sink)

end Sink

/-- A connection that receives bytes in portions; its buffer may have been set to a size. -/
def receiver (bufsize : Option Int) (bytes : List UInt8) (portion : Nat → Nat) : Nio :=
  let io := Nio.init (Socket.source ⟨bytes, portion, 0⟩)
  bufsize.elim io io.setbuf

/-- The strings are written and read back without an error; each one comes with the content that its variable had. -/
def FramesBack (bufsize : Option Int) (sent received : Nat → Nat) (strings : List (Text × Text)) : Prop :=
  ((Sink.mk [] sent 0).writeStrings (strings.map Prod.fst)).1 = strings.map (fun _ => .of .E_ok) ∧
    (receiver bufsize ((Sink.mk [] sent 0).writeStrings (strings.map Prod.fst)).2.bytes received).readStrings
      (strings.map Prod.snd) = some (strings.map fun string => (.returned (.of .E_ok), string.1))

/-- No allocation and no read has a size that is not positive, and the call returns an error or the string that the
length announced. -/
def ReadsSafely (bufsize : Option Int) (received : Nat → Nat) (length : UInt8 × UInt8 × UInt8 × UInt8) (rest : List UInt8)
    (str : Text) : Prop :=
  let first := [length.1, length.2.1, length.2.2.1, length.2.2.2]
  ∃ read code, (receiver bufsize (first ++ rest) received).readString str = some read ∧
    (∀ size ∈ read.allocated ++ read.asked, 0 < size) ∧ read.ending = .returned code ∧
    (code = .of .E_ok → read.str = rest.take (ntoh first).toNat ∧ (read.str.length : Int) = ntoh first)

end SimpleNFast.Net
