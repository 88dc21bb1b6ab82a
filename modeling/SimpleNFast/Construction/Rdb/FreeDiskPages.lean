/-
This file models the free disk pages of `fdpmgr.cpp` with the file that persists them.
-/

import SimpleNFast.Construction.Rdb.DbStruct
import SimpleNFast.Library.ByteFile

namespace SimpleNFast.Rdb

/-- The values of the return codes in `error.h`. -/
def Code.value : Code → Int
  | .E_ok => 0
  | .E_invalid_arg => -1
  | .E_invalid_state => -2
  | .E_not_found => -3
  | .E_open_failed => -4
  | .E_read_failed => -6
  | .E_write_failed => -7
  | .E_seek_failed => -8
  | .E_trunc_failed => -11
  | .E_try_again => -14
  | .E_rename_failed => -16
  | .E_remove_failed => -17
  | .E_eof_detected => -21
  | .E_no_memory => -22
  | .E_insufficient_buffer => -24

/-- An open file has its content and its pointer. -/
structure DiskFile where
  content : List UInt8
  pointer : Nat
  deriving DecidableEq, Repr

/-- The answers of the system in one call: a seek succeeds, a cut succeeds, and a write puts a number
of bytes into the file or fails. -/
structure DiskReply where
  seeks : Bool
  cuts : Bool
  written : Option Nat
  deriving DecidableEq, Repr

namespace DiskFile

/-- This is `file::seek` with an absolute offset. -/
def seek (seeks : Bool) (offset : Int) (file : DiskFile) : Code × DiskFile :=
  if offset < 0 then (.E_invalid_arg, file)
  else if seeks then (.E_ok, { file with pointer := offset.toNat })
  else (.E_seek_failed, file)

/-- This is `file::truncate`; a cut that fails leaves the pointer at the new size. -/
def truncate (reply : DiskReply) (fsize : Int) (file : DiskFile) : Code × DiskFile :=
  match file.seek reply.seeks fsize with
  | (.E_ok, moved) =>
      if reply.cuts then (.E_ok, { moved with content := ByteFile.truncate moved.content fsize.toNat })
      else (.E_trunc_failed, moved)
  | (retval, same) => (retval, same)

/-- This is `file::write`, which reports the number of bytes it wrote. -/
def write (written : Option Nat) (bytes : List UInt8) (file : DiskFile) : Code × Nat × DiskFile :=
  match written with
  | none => (.E_write_failed, 0, file)
  | some count =>
      (.E_ok, (bytes.take count).length,
        { content := ByteFile.write file.content file.pointer (bytes.take count)
          pointer := file.pointer + (bytes.take count).length })

/-- This is `file::read`, which stops at the end of the file. -/
def read (fails : Bool) (toRead : Nat) (file : DiskFile) : Code × List UInt8 × DiskFile :=
  if fails then (.E_read_failed, [], file)
  else
    (.E_ok, ByteFile.read file.content file.pointer toRead,
      { file with pointer := file.pointer + (ByteFile.read file.content file.pointer toRead).length })

end DiskFile

/-- The manager of the free disk pages; the head of the list is the top of the stack. -/
structure FreeDiskPageMgr where
  pageSize : Int
  nextFreeOffset : List Int
  file : Option DiskFile
  fsize : Int
  deriving DecidableEq, Repr

namespace FreeDiskPageMgr

/-- The reasons for which a call has no result. -/
inductive Ending where
  | aborted
  | overflow
  | running
  deriving DecidableEq, Repr

/-- This is the constructor. -/
def new (pageSize : Int) (file : Option DiskFile) : FreeDiskPageMgr := ⟨pageSize, [], file, 0⟩

/-- This is `addOffsetToFile`, which writes at the pointer. -/
def addOffsetToFile (reply : DiskReply) (offset : Int) (mgr : FreeDiskPageMgr) : Code × FreeDiskPageMgr :=
  match mgr.file with
  | none => (.E_ok, mgr)
  | some file =>
      match file.write reply.written (ByteFile.encode 8 offset) with
      | (.E_ok, bWritten, after) =>
          if bWritten ≠ 8 then (.E_write_failed, { mgr with file := some after })
          else (.E_ok, { mgr with file := some after, fsize := mgr.fsize + 8 })
      | (retval, _, after) => (retval, { mgr with file := some after })

/-- This is `removeOffsetFromFile`, which restores the size when the truncation fails. -/
def removeOffsetFromFile (reply : DiskReply) (mgr : FreeDiskPageMgr) : Code × FreeDiskPageMgr :=
  match mgr.file with
  | none => (.E_ok, mgr)
  | some file =>
      match file.truncate reply (mgr.fsize - 8) with
      | (.E_ok, after) => (.E_ok, { mgr with file := some after, fsize := mgr.fsize - 8 })
      | (retval, after) => (retval, { mgr with file := some after })

/-- The loop of `init`; the read of the given index fails or not. -/
def readOffsets (fails : Nat → Bool) : Nat → Nat → DiskFile → FreeDiskPageMgr →
    Except Ending (Code × FreeDiskPageMgr)
  | 0, _, _, _ => .error .running
  | fuel + 1, index, file, mgr =>
      match file.read (fails index) 8 with
      | (.E_ok, bytes, after) =>
          if bytes.length = 0 then .ok (.E_eof_detected, { mgr with file := some after })
          else if bytes.length ≠ 8 then .ok (.E_write_failed, { mgr with file := some after })
          else
            readOffsets fails fuel (index + 1) after
              { mgr with
                fsize := mgr.fsize + bytes.length
                nextFreeOffset := ByteFile.decode bytes :: mgr.nextFreeOffset }
      | (retval, _, after) => .ok (retval, { mgr with file := some after })

/-- This is `init`; every code but `E_eof_detected` becomes `E_ok`. -/
def init (seeks : Bool) (fails : Nat → Bool) (mgr : FreeDiskPageMgr) : Except Ending (Code × FreeDiskPageMgr) :=
  match mgr.file with
  | none => .ok (.E_ok, mgr)
  | some file =>
      match file.seek seeks 0 with
      | (.E_ok, start) => do
          let (retval, done) ← readOffsets fails (file.content.length + 1) 0 start mgr
          if retval ≠ .E_eof_detected then .ok (.E_ok, done) else .ok (retval, done)
      | (retval, same) => .ok (retval, { mgr with file := some same })

/-- This is `get`; the result is an offset or the value of a code. -/
def get (reply : DiskReply) (mgr : FreeDiskPageMgr) : Except Ending (Int × FreeDiskPageMgr) :=
  match mgr.nextFreeOffset with
  | [] => .error .aborted
  | next :: rest =>
      match removeOffsetFromFile reply { mgr with nextFreeOffset := rest } with
      | (.E_ok, removed) =>
          if rest = [] then
            if -2 ^ 63 ≤ next + mgr.pageSize ∧ next + mgr.pageSize < 2 ^ 63 then
              match addOffsetToFile reply (next + mgr.pageSize)
                { removed with nextFreeOffset := [next + mgr.pageSize] } with
              | (.E_ok, added) => .ok (next, added)
              | (retval, failed) => .ok (retval.value, { failed with nextFreeOffset := [next] })
            else .error .overflow
          else .ok (next, removed)
      | (retval, failed) => .ok (retval.value, { failed with nextFreeOffset := next :: rest })

/-- This is `free`; a negative or misaligned offset aborts. -/
def free (reply : DiskReply) (offset : Int) (mgr : FreeDiskPageMgr) : Except Ending (Code × FreeDiskPageMgr) :=
  if offset < 0 ∨ offset.tmod mgr.pageSize ≠ 0 then .error .aborted
  else
    match addOffsetToFile reply offset { mgr with nextFreeOffset := offset :: mgr.nextFreeOffset } with
    | (.E_ok, added) => .ok (.E_ok, added)
    | (retval, failed) => .ok (retval, { failed with nextFreeOffset := mgr.nextFreeOffset })

/-- This is `reset`. -/
def reset (reply : DiskReply) (mgr : FreeDiskPageMgr) : Code × FreeDiskPageMgr :=
  match mgr.file with
  | none => (.E_ok, { mgr with nextFreeOffset := [] })
  | some file =>
      match file.truncate reply 0 with
      | (.E_ok, after) => (.E_ok, { mgr with file := some after, fsize := 0, nextFreeOffset := [] })
      | (retval, after) => (retval, { mgr with file := some after })

/-- The manager of an open file is started with the size of the file and then with its free pages. -/
inductive Started (pageSize fileSize : Int) : List Int → FreeDiskPageMgr → Prop where
  | size {file : Option DiskFile} {reply : DiskReply} {mgr : FreeDiskPageMgr}
      (done : free reply fileSize (new pageSize file) = .ok (.E_ok, mgr)) : Started pageSize fileSize [] mgr
  | page {initial : List Int} {offset : Int} {reply : DiskReply} {mgr next : FreeDiskPageMgr}
      (started : Started pageSize fileSize initial mgr) (other : offset ∉ initial) (inside : offset < fileSize)
      (done : free reply offset mgr = .ok (.E_ok, next)) : Started pageSize fileSize (offset :: initial) next

/-- The offsets that are handed out and not yet freed, and the end of the highest page of the file. -/
structure Usage where
  mgr : FreeDiskPageMgr
  out : List Int
  mark : Int

/-- The usage after a sequence of successful calls that frees only pages which are handed out. -/
inductive Used (pageSize fileSize : Int) (initial : List Int) : Usage → Prop where
  | start {mgr : FreeDiskPageMgr} (started : Started pageSize fileSize initial mgr) :
      Used pageSize fileSize initial ⟨mgr, [], fileSize⟩
  | get {usage : Usage} {reply : DiskReply} {offset : Int} {next : FreeDiskPageMgr}
      (used : Used pageSize fileSize initial usage) (done : usage.mgr.get reply = .ok (offset, next))
      (success : 0 ≤ offset) :
      Used pageSize fileSize initial ⟨next, offset :: usage.out, max usage.mark (offset + pageSize)⟩
  | free {usage : Usage} {reply : DiskReply} {offset : Int} {next : FreeDiskPageMgr}
      (used : Used pageSize fileSize initial usage) (taken : offset ∈ usage.out)
      (done : usage.mgr.free reply offset = .ok (.E_ok, next)) :
      Used pageSize fileSize initial ⟨next, usage.out.erase offset, usage.mark⟩

/-- A page of the file that was not free at the start. -/
def InitiallyUsed (pageSize fileSize : Int) (initial : List Int) (offset : Int) : Prop :=
  0 ≤ offset ∧ offset < fileSize ∧ pageSize ∣ offset ∧ offset ∉ initial

/-- No page is handed out twice, and a free page is handed out before a new one. -/
structure HandsOutOnce (pageSize fileSize : Int) (initial : List Int) (usage : Usage) : Prop where
  bottom : usage.mgr.nextFreeOffset.getLast? = some usage.mark
  above : ∀ offset ∈ usage.mgr.nextFreeOffset.dropLast, offset < usage.mark
  taken : ∀ offset ∈ usage.out, offset < usage.mark
  fresh : ∀ reply offset next, usage.mgr.get reply = .ok (offset, next) → 0 ≤ offset →
    offset ∉ usage.out ∧ ¬InitiallyUsed pageSize fileSize initial offset ∧ pageSize ∣ offset
  reuse : ∀ reply offset next, usage.mgr.get reply = .ok (offset, next) → 0 ≤ offset →
    (∃ page, 0 ≤ page ∧ page < usage.mark ∧ pageSize ∣ page ∧ page ∉ usage.out ∧
      ¬InitiallyUsed pageSize fileSize initial page) → offset < usage.mark

/-- The file that persists a stack begins with the bottom entry. -/
def diskImage : List Int → List UInt8
  | [] => []
  | top :: rest => diskImage rest ++ ByteFile.encode 8 top

/-- The managers that successful calls and restarts on one file lead to. -/
inductive Persisting : FreeDiskPageMgr → Prop where
  | new (pageSize : Int) : Persisting (new pageSize (some ⟨[], 0⟩))
  | get {reply : DiskReply} {offset : Int} {mgr next : FreeDiskPageMgr} (persisting : Persisting mgr)
      (done : get reply mgr = .ok (offset, next)) (success : 0 ≤ offset) : Persisting next
  | free {reply : DiskReply} {offset : Int} {mgr next : FreeDiskPageMgr} (persisting : Persisting mgr)
      (fits : offset < 2 ^ 63) (done : free reply offset mgr = .ok (.E_ok, next)) : Persisting next
  | init {pageSize : Int} {code : Code} {mgr next : FreeDiskPageMgr} (persisting : Persisting mgr)
      (done : init true (fun _ => false) (FreeDiskPageMgr.new pageSize mgr.file) = .ok (code, next)) :
      Persisting next

/-- The file ends inside of an offset, or an operation fails that the reading makes. -/
def Damaged (seeks : Bool) (fails : Nat → Bool) (content : List UInt8) : Prop :=
  seeks = false ∨ content.length % 8 ≠ 0 ∨ ∃ index, index ≤ content.length / 8 ∧ fails index = true

/-- A new manager reads the stack from the file, and it reports that the file is damaged. -/
def Reloads (stack : List Int) (seeks : Bool) (fails : Nat → Bool) (pageSize : Int) (file : DiskFile) : Prop :=
  ∃ retval next, init seeks fails (new pageSize (some file)) = .ok (retval, next) ∧
    (¬Damaged seeks fails file.content → retval = .E_ok ∧ next.nextFreeOffset = stack) ∧
    (Damaged seeks fails file.content → retval.value < 0)

/-- The two calls of the manager. -/
inductive PageCall where
  | get
  | free (offset : Int)
  deriving DecidableEq, Repr

def PageCall.run (reply : DiskReply) (mgr : FreeDiskPageMgr) : PageCall → Except Ending (Int × FreeDiskPageMgr)
  | .get => FreeDiskPageMgr.get reply mgr
  | .free offset => (FreeDiskPageMgr.free reply offset mgr).map fun (retval, after) => (retval.value, after)

/-- The file of the manager has the entries of the stack. -/
structure Agrees (mgr : FreeDiskPageMgr) (file : DiskFile) : Prop where
  backing : mgr.file = some file
  content : file.content = diskImage mgr.nextFreeOffset
  fsize : mgr.fsize = file.content.length

/-- The truncation of the file fails. -/
def TruncationFails (reply : DiskReply) : Prop := reply.seeks = false ∨ reply.cuts = false

/-- The write of an offset fails or is too short. -/
def WriteFails (reply : DiskReply) : Prop := ∀ count, reply.written = some count → count < 8

/-- An operation fails that the call makes. -/
def Fails (reply : DiskReply) (mgr : FreeDiskPageMgr) : PageCall → Prop
  | .get => mgr.nextFreeOffset ≠ [] ∧ (TruncationFails reply ∨ (WriteFails reply ∧ ∃ next,
      mgr.nextFreeOffset = [next] ∧ -2 ^ 63 ≤ next + mgr.pageSize ∧ next + mgr.pageSize < 2 ^ 63))
  | .free offset => 0 ≤ offset ∧ offset.tmod mgr.pageSize = 0 ∧ WriteFails reply

/-- The call reports an error and leaves the stack, the file and its size as they were. -/
def RollsBack (reply : DiskReply) (mgr : FreeDiskPageMgr) (call : PageCall) : Prop :=
  ∃ value after, call.run reply mgr = .ok (value, after) ∧ value < 0 ∧
    after.nextFreeOffset = mgr.nextFreeOffset ∧
    after.file.map DiskFile.content = mgr.file.map DiskFile.content ∧ after.fsize = mgr.fsize

/-- The failing operation changes no byte of the file. -/
def Harmless (reply : DiskReply) (file : DiskFile) : PageCall → Prop
  | .get => TruncationFails reply
  | .free offset => ∀ count, reply.written = some count →
      (ByteFile.encode 8 offset).take count <+: file.content.drop file.pointer

end FreeDiskPageMgr

end SimpleNFast.Rdb
