/-
This file models the files of `dbfiles.cpp` and the free page stacks of `fdpmgr.cpp`.
-/

import SimpleNFast.Construction.Rdb.World

namespace SimpleNFast.Rdb
open Program

/-- A failing operation returns its code and changes nothing. -/
def attempt (fails : Failures) (op : FileOp) (code : Code) (change : World → World) : Call Code := do
  if fails op then
    pure code
  else
    modifies change
    pure .E_ok

namespace KeyFile

/-- The read of a key page at an offset; the offset -1 cannot be reached. -/
def read (fails : Failures) (offset : Off) : Call (Except Code KeyPage) :=
  match offset with
  | none => pure (.error .E_seek_failed)
  | some place =>
      if fails (.readKeyPage place) then pure (.error .E_read_failed)
      else reads fun world =>
        match world.idx[place / world.kpSize]? with
        | none => .error .E_eof_detected
        | some page => .ok page

/-- The write of a whole key page. -/
def write (fails : Failures) (offset : Nat) (page : KeyPage) : Call Code :=
  attempt fails (.writeKeyPage offset) .E_write_failed fun world =>
    { world with
      idx := PagedFile.writeAt (KeyPage.zero world.kpSize) world.idx (offset / world.kpSize) page }

/-- A change of one field of a key page in the file. -/
def patch (offset : Nat) (change : KeyPage → KeyPage) (world : World) : World :=
  { world with idx := world.idx.modify (offset / world.kpSize) change }

/-- A change of one field of a key page in memory. -/
def patchPage (addr : Nat) (change : KeyPage → KeyPage) (world : World) : World :=
  { world with pages := Function.update world.pages addr (change (world.pages addr)) }

/-- The four bytes of the flags cover `kp_vcount` in the file, but not in memory. -/
def writeFlags (fails : Failures) (offset : Off) (kp : Nat) (flags : Int) : Call Code :=
  match offset with
  | none => pure .E_seek_failed
  | some place =>
      attempt fails (.writeKeyFlags place flags) .E_write_failed fun world =>
        patchPage kp (fun page => { page with flags := flags })
          (patch place (fun page => { page with flags := flags, vcount := 0 }) world)

def writePrevOffset (fails : Failures) (offset : Nat) (kp : Nat) (prevOffset : Off) : Call Code :=
  attempt fails (.writePrevOffset offset prevOffset) .E_write_failed fun world =>
    patchPage kp (fun page => { page with poff := prevOffset })
      (patch offset (fun page => { page with poff := prevOffset }) world)

def writeNextOffset (fails : Failures) (offset : Nat) (kp : Nat) (nextOffset : Off) : Call Code :=
  attempt fails (.writeNextOffset offset nextOffset) .E_write_failed fun world =>
    patchPage kp (fun page => { page with noff := nextOffset })
      (patch offset (fun page => { page with noff := nextOffset }) world)

/-- This is `FreeDiskPageMgr::free` of the key file, which persists nothing. -/
def freePage (offset : Off) : Call Code := do
  let kpSize ← reads World.kpSize
  assert offset.isSome
  assert (offset.getD 0 % kpSize == 0)
  modifies fun world => { world with keyFdp := offset.getD 0 :: world.keyFdp }
  pure .E_ok

/-- This is `FreeDiskPageMgr::get` of the key file. -/
def nextPage : Call Nat := do
  let stack ← reads World.keyFdp
  match stack with
  | [] => stops .aborted
  | [next] => do
      modifies fun world => { world with keyFdp := [next + world.kpSize] }
      pure next
  | next :: rest => do
      modifies fun world => { world with keyFdp := rest }
      pure next

/-- The write of a new key page takes a free place and returns it when the write fails. -/
def append (fails : Failures) (page : KeyPage) : Call (Code × Off) := do
  let newOffset ← nextPage
  let retval ← write fails newOffset page
  if retval ≠ .E_ok then
    let _ ← freePage (some newOffset)
    pure (retval, none)
  else
    pure (retval, some newOffset)

end KeyFile

namespace ValueFile

/-- The read of a value page. -/
def read (fails : Failures) (offset : Off) : Call (Except Code ValuePage) :=
  match offset with
  | none => pure (.error .E_seek_failed)
  | some place =>
      if fails (.readValuePage place) then pure (.error .E_read_failed)
      else reads fun world =>
        match world.db[place / valuePageSize]? with
        | none => .error .E_eof_detected
        | some page => .ok page

/-- The read of the flags; only the low bit is used. -/
def readFlags (fails : Failures) (offset : Nat) : Call (Except Code Bool) :=
  if fails (.readValueFlags offset) then pure (.error .E_read_failed)
  else reads fun world =>
    match world.db[offset / valuePageSize]? with
    | none => .error .E_eof_detected
    | some page => .ok page.isDeleted

/-- The write of a whole value page. -/
def write (fails : Failures) (offset : Nat) (page : ValuePage) : Call Code :=
  attempt fails (.writeValuePage offset) .E_write_failed fun world =>
    { world with db := PagedFile.writeAt ValuePage.zero world.db (offset / valuePageSize) page }

/-- The write of the flags of a value page. -/
def writeFlags (fails : Failures) (offset : Off) (flags : Int) : Call Code :=
  match offset with
  | none => pure .E_seek_failed
  | some place =>
      attempt fails (.writeValueFlags place flags) .E_write_failed fun world =>
        { world with
          db := world.db.modify (place / valuePageSize) fun page => { page with flags := flags } }

/-- This is `FreeDiskPageMgr::free` of the value file, which persists the offset. -/
def freePage (offset : Off) : Call Code := do
  assert offset.isSome
  assert (offset.getD 0 % valuePageSize == 0)
  modifies fun world =>
    { world with valueFdp := offset.getD 0 :: world.valueFdp, fdp := world.fdp ++ [offset.getD 0] }
  pure .E_ok

/-- This is `FreeDiskPageMgr::get` of the value file. -/
def nextPage : Call Nat := do
  let stack ← reads World.valueFdp
  match stack with
  | [] => stops .aborted
  | [next] => do
      modifies fun world =>
        { world with
          valueFdp := [next + valuePageSize]
          fdp := world.fdp.dropLast ++ [next + valuePageSize] }
      pure next
  | next :: rest => do
      modifies fun world => { world with valueFdp := rest, fdp := world.fdp.dropLast }
      pure next

/-- The write of a new value page returns `E_ok` even when the write fails. -/
def append (fails : Failures) (page : ValuePage) : Call (Code × Off) := do
  let newOffset ← nextPage
  let retval ← write fails newOffset page
  if retval ≠ .E_ok then
    let _ ← freePage (some newOffset)
    pure (.E_ok, none)
  else
    pure (.E_ok, some newOffset)

end ValueFile

end SimpleNFast.Rdb
