/-
This file models the bytes of a key page and the functions of `dbfiles.cpp` that write one of its fields.
-/

import SimpleNFast.Construction.Rdb.FreeDiskPages

namespace SimpleNFast.Rdb

/-- The fields of `key_page_t`; the key records are the bytes behind the header. -/
structure KeyPageImage where
  flags : Int16
  vcount : Int16
  root : Int16
  unused1 : Int16
  hash : Int32
  unused2 : Int32
  poff : Int64
  noff : Int64
  unused3 : Int64
  unused4 : Int64
  unused5 : Int64
  unused6 : Int64
  keys : List UInt8
  deriving DecidableEq

namespace KeyPageImage

/-- The fields before the links, behind the flags and the count. -/
def middleBytes (page : KeyPageImage) : List UInt8 :=
  ByteFile.encode 2 page.root.toInt ++ ByteFile.encode 2 page.unused1.toInt ++ ByteFile.encode 4 page.hash.toInt ++
    ByteFile.encode 4 page.unused2.toInt

/-- The fields behind the links. -/
def tailBytes (page : KeyPageImage) : List UInt8 :=
  ByteFile.encode 8 page.unused3.toInt ++ ByteFile.encode 8 page.unused4.toInt ++
    ByteFile.encode 8 page.unused5.toInt ++ ByteFile.encode 8 page.unused6.toInt ++ page.keys

/-- The layout of the page with the least byte of a field first. -/
def bytes (page : KeyPageImage) : List UInt8 :=
  ByteFile.encode 2 page.flags.toInt ++ ByteFile.encode 2 page.vcount.toInt ++ page.middleBytes ++
    ByteFile.encode 8 page.poff.toInt ++ ByteFile.encode 8 page.noff.toInt ++ page.tailBytes

/-- The bytes of the page lie in the file at the offset. -/
def Stored (page : KeyPageImage) (offset : Nat) (file : DiskFile) : Prop :=
  ByteFile.read file.content offset page.bytes.length = page.bytes

end KeyPageImage

/-- This is `file::write` at an offset. -/
def DiskFile.writeAt (reply : DiskReply) (offset : Int) (bytes : List UInt8) (file : DiskFile) :
    Code × Nat × DiskFile :=
  match file.seek reply.seeks offset with
  | (.E_ok, moved) => moved.write reply.written bytes
  | (retval, same) => (retval, 0, same)

/-- This is `WriteFile`. -/
def writeFile (reply : DiskReply) (offset : Int) (bytes : List UInt8) (file : DiskFile) : Code × DiskFile :=
  match file.writeAt reply offset bytes with
  | (.E_ok, bWritten, after) => if bWritten ≠ bytes.length then (.E_write_failed, after) else (.E_ok, after)
  | (retval, _, after) => (retval, after)

namespace KeyPageImage

/-- The bytes of a field are written to the file, and then the page in memory changes. -/
def writeBytes (reply : DiskReply) (place : Int) (bytes : List UInt8) (change : KeyPageImage → KeyPageImage)
    (kp : Option KeyPageImage) (file : DiskFile) : Code × Option KeyPageImage × DiskFile :=
  match writeFile reply place bytes file with
  | (.E_ok, after) => (.E_ok, kp.map change, after)
  | (retval, after) => (retval, kp, after)

/-- This is `KeyFile::writeFlags`, which writes the four bytes of an `int` at `kp_flags`. -/
def writeFlags (reply : DiskReply) (offset : Int) (kp : Option KeyPageImage) (flags : Int32) (file : DiskFile) :
    Code × Option KeyPageImage × DiskFile :=
  writeBytes reply (offset + 0) (ByteFile.encode 4 flags.toInt)
    (fun page => { page with flags := Int16.ofInt flags.toInt }) kp file

/-- This is `KeyFile::writePrevOffset`; the offset of `kp_poff` is 16. -/
def writePrevOffset (reply : DiskReply) (offset : Int) (kp : Option KeyPageImage) (prevOffset : Int64)
    (file : DiskFile) : Code × Option KeyPageImage × DiskFile :=
  writeBytes reply (offset + 16) (ByteFile.encode 8 prevOffset.toInt)
    (fun page => { page with poff := prevOffset }) kp file

/-- This is `KeyFile::writeNextOffset`; the offset of `kp_noff` is 24. -/
def writeNextOffset (reply : DiskReply) (offset : Int) (kp : Option KeyPageImage) (nextOffset : Int64)
    (file : DiskFile) : Code × Option KeyPageImage × DiskFile :=
  writeBytes reply (offset + 24) (ByteFile.encode 8 nextOffset.toInt)
    (fun page => { page with noff := nextOffset }) kp file

/-- A new value of one of the three fields. -/
inductive FieldValue where
  | flags (value : Int16)
  | poff (value : Int64)
  | noff (value : Int64)
  deriving DecidableEq

/-- The page with the new value. -/
def update (page : KeyPageImage) : FieldValue → KeyPageImage
  | .flags value => { page with flags := value }
  | .poff value => { page with poff := value }
  | .noff value => { page with noff := value }

/-- The function that writes the field. -/
def writeField (reply : DiskReply) (offset : Int) (kp : Option KeyPageImage) (file : DiskFile) :
    FieldValue → Code × Option KeyPageImage × DiskFile
  | .flags value => writeFlags reply offset kp value.toInt32 file
  | .poff value => writePrevOffset reply offset kp value file
  | .noff value => writeNextOffset reply offset kp value file

/-- The page is read back from the file with the new value and with nothing else changed. -/
def Rereads (offset : Nat) (page : KeyPageImage) (value : FieldValue) (kp : Option KeyPageImage)
    (file : DiskFile) : Prop :=
  kp = some (page.update value) ∧ (page.update value).Stored offset file

/-- The upper half of an `int` that has the value of a `short`. -/
def upperHalf (value : Int16) : Int16 := if value < 0 then -1 else 0

/-- The number of valid keys is the upper half of the flags. -/
def CountIsUpperHalf (page : KeyPageImage) : FieldValue → Prop
  | .flags value => page.vcount = upperHalf value
  | .poff _ | .noff _ => True

end KeyPageImage

end SimpleNFast.Rdb
