/-
This file models the reading half of `nio.h` and `nio.cpp`: reads with and without a buffer.
-/

import Mathlib.Tactic

namespace SimpleNFast.Net

/-- The results of the reads. -/
inductive Code where
  | E_ok
  | E_invalid_arg
  | E_invalid_state
  deriving DecidableEq, Repr

/-- The stream under the reads; a call takes at least one byte of what is left, and at most its portion. -/
structure Source where
  bytes : List UInt8
  portion : Nat → Nat
  calls : Nat

/-- What a read stores from the start of its memory, with its result. -/
structure Delivery where
  code : Code
  bytes : List UInt8
  deriving DecidableEq, Repr

namespace Source

def taken (source : Source) (count : Nat) : Nat := min count (source.portion source.calls + 1)

/-- This is `readn`: it gives fewer bytes than asked for when there are fewer or when its portion is smaller. -/
def readn (source : Source) (toRead : Int) : Delivery × Source :=
  if toRead ≤ 0 then (⟨.E_invalid_arg, []⟩, source)
  else
    (⟨.E_ok, source.bytes.take (source.taken toRead.toNat)⟩,
      { source with bytes := source.bytes.drop (source.taken toRead.toNat), calls := source.calls + 1 })

end Source

/-- The members of `nio` with the stream under it. -/
structure Nio where
  buffered : Bool
  buf : List UInt8
  max : Int
  len : Nat
  idx : Nat
  source : Source

namespace Nio

/-- A connection begins without a buffer. -/
def init (source : Source) : Nio := ⟨false, [], 0, 0, 0, source⟩

/-- Only the first call sets the size. -/
def setbuf (io : Nio) (bufsize : Int) : Nio :=
  if io.buffered then io
  else
    let bufsize := if bufsize < 64 then 64 else if bufsize > 65536 then 65536 else bufsize
    { io with buffered := true, buf := List.replicate bufsize.toNat 0, max := bufsize, len := 0, idx := 0 }

/-- Bytes that are copied to the start of a memory. -/
def copy (bytes memory : List UInt8) : List UInt8 := bytes ++ memory.drop bytes.length

/-- The part of an iteration that takes bytes from the buffer; the destination pointer stays where it is. -/
def takeBuffered (io : Nio) (toRead : Nat) (memory : List UInt8) : Nat × Nio × List UInt8 :=
  if io.idx < io.len then
    let count := min (io.len - io.idx) toRead
    (count, { io with idx := io.idx + count }, copy ((io.buf.drop io.idx).take count) memory)
  else (0, io, memory)

/-- The loop of `read_buffered`: the memory of the caller, the bytes that are missing and those that were read. -/
def readLoop : Nat → Nio → Nat → Nat → List UInt8 → Option (Code × Nat × Nio × List UInt8)
  | 0, _, _, _, _ => none
  | _ + 1, io, 0, count, memory => some (.E_ok, count, io, memory)
  | fuel + 1, io, toRead + 1, count, memory =>
      let (copied, io, memory) := io.takeBuffered (toRead + 1) memory
      let count := count + copied
      let toRead := toRead + 1 - copied
      if toRead = 0 then some (.E_ok, count, io, memory)
      else if io.idx ≥ io.len then some (.E_invalid_state, count, io, memory)
      else
        let (delivery, source) := io.source.readn io.max
        let io := { io with
          idx := 0, len := delivery.bytes.length, buf := copy delivery.bytes io.buf, source := source }
        if delivery.code ≠ .E_ok ∨ io.len = 0 then some (delivery.code, count, io, memory)
        else readLoop fuel io toRead count memory

/-- The memory of the caller has the size of the read; each second iteration stores a byte at least. -/
def readBuffered (io : Nio) (toRead : Int) (memory : List UInt8) : Option (Delivery × Nio) :=
  if toRead ≤ 0 then some (⟨.E_invalid_arg, []⟩, io)
  else
    (readLoop (2 * toRead.toNat) io toRead.toNat 0 memory).map fun (code, count, io, memory) =>
      (⟨code, memory.take count⟩, io)

def read (io : Nio) (toRead : Int) (memory : List UInt8) : Option (Delivery × Nio) :=
  if io.buffered then io.readBuffered toRead memory
  else
    let (delivery, source) := io.source.readn toRead
    some (delivery, { io with source := source })

/-- The results of reads one after another, each with its own memory. -/
def reads : Nio → List (Int × List UInt8) → Option (List Delivery)
  | _, [] => some []
  | io, (toRead, memory) :: rest => do
      let (delivery, io) ← io.read toRead memory
      let others ← reads io rest
      pure (delivery :: others)

end Nio

/-- The reads give the same with a buffer and without one, and all of them succeed. -/
def SameReads (source : Source) (bufsize : Int) (asked : List (Int × List UInt8)) : Prop :=
  ∃ deliveries, (Nio.init source).reads asked = some deliveries ∧
    ((Nio.init source).setbuf bufsize).reads asked = some deliveries ∧
    ∀ delivery ∈ deliveries, delivery.code = .E_ok

end SimpleNFast.Net
