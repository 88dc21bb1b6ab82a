/-
This file models the opening, the closing and the rebuild of a database, and runs of calls on it.
-/

import SimpleNFast.Construction.Rdb.Database

namespace SimpleNFast.Rdb
open Program

/-- The loop of `populateHashTable`: a deleted or empty page is free, and a first page gives its
offset to its bucket. -/
def scanKeys : List KeyPage → Nat → Call Unit
  | [], _ => pure ()
  | page :: rest, offset => do
      let kpSize ← reads World.kpSize
      if page.isDeleted ∨ page.vcount ≤ 0 then do
        let _ ← KeyFile.freePage (some offset)
        scanKeys rest (offset + kpSize)
      else if page.poff = none then do
        let first ← HashTable.getOffset page.hash
        if first = none then HashTable.setOffset page.hash offset
        scanKeys rest (offset + kpSize)
      else scanKeys rest (offset + kpSize)

/-- The end of the key file is the first entry of its stack of free pages. -/
def populateHashTable : Call Unit := do
  modifies fun world => { world with keyFdp := [] }
  let idx ← reads World.idx
  let kpSize ← reads World.kpSize
  let _ ← KeyFile.freePage (some (idx.length * kpSize))
  scanKeys idx 0

/-- The loop of `populateFreePages`. -/
def scanValues : List ValuePage → Nat → Call Unit
  | [], _ => pure ()
  | page :: rest, offset => do
      if page.isDeleted then
        let _ ← ValueFile.freePage (some offset)
      scanValues rest (offset + valuePageSize)

/-- The read of the free page file ends with `E_eof_detected`, so the file is reset and the value
file is scanned. -/
def populateFreePages : Call Unit := do
  modifies fun world => { world with valueFdp := [], fdp := [] }
  let db ← reads World.db
  let _ ← ValueFile.freePage (some (db.length * valuePageSize))
  scanValues db 0

/-- The attributes of the file take the place of the members; an empty file gets the members. -/
def readAttr (world : World) : World :=
  let attr := world.attr.getD (world.kpSize, world.htSize)
  { world with created := true, attr := some attr, kpSize := attr.1, htSize := attr.2 }

/-- A new hash table and a new cache. -/
def allocate (world : World) : World :=
  { world with
    hashTable := true
    entries := fun _ => HashEntry.init
    nodes := fun _ => ⟨none, none, none, none, none⟩
    nodeCount := 0
    cnodes := fun _ => ⟨none, none, none⟩
    cnodeCount := 0
    max := world.poolSize / world.kpSize
    num := 0
    head := none
    tail := none
    nextFreePage := [0]
    numOfFreePages := world.poolSize / world.kpSize }

/-- This is `open`. -/
def openDb : Call Code := do
  let opened ← reads World.opened
  if opened then pure .E_ok
  else do
    modifies readAttr
    modifies allocate
    populateHashTable
    populateFreePages
    modifies fun world => { world with opened := true }
    pure .E_ok

/-- This is `close`. -/
def closeDb : Call Code := do
  let opened ← reads World.opened
  let opCount ← reads World.opCount
  if !opened then pure .E_ok
  else if 0 < opCount then pure .E_try_again
  else do
    modifies fun world => { world with hashTable := false, opened := false }
    pure .E_ok

def setKeyPageSize (kpsize : Nat) : Call Code := do
  let opened ← reads World.opened
  if kpsize < minKeyPageSize ∨ kpsize % keyPageHdrSize ≠ 0 then pure .E_invalid_arg
  else if opened then pure .E_invalid_state
  else do
    modifies fun world => { world with kpSize := kpsize }
    pure .E_ok

/-- The new size follows from the member, not from the argument. -/
def setHashTableSize (htsize : Nat) : Call Code := do
  let opened ← reads World.opened
  if htsize = 0 then pure .E_invalid_arg
  else if opened then pure .E_invalid_state
  else do
    modifies fun world => { world with htSize := nextPrime world.htSize }
    pure .E_ok

/-- The four files get their backup names. -/
def backupFiles (world : World) : World :=
  { world with
    bkup := some ⟨world.attr, world.idx, world.db, world.fdp⟩
    created := false
    attr := none
    idx := []
    db := []
    fdp := [] }

/-- The backup files get their old names back. -/
def restoreFiles (world : World) : World :=
  match world.bkup with
  | none => world
  | some files =>
      { world with
        bkup := none
        created := true
        attr := files.attr
        idx := files.idx
        db := files.db
        fdp := files.fdp }

/-- The loop of `rebuild` sets the key of each value page that is not deleted. -/
def copyPages : List ValuePage → Call Code
  | [] => pure .E_eof_detected
  | page :: rest => do
      if page.isDeleted then copyPages rest
      else do
        let reply ← set noFailure page.key page.value
        if reply.code ≠ .E_ok then pure reply.code else copyPages rest

/-- The files of a database that was never opened cannot be renamed. -/
def rebuild : Call Code := do
  let opened ← reads World.opened
  let created ← reads World.created
  if opened then pure .E_invalid_state
  else if !created then pure .E_rename_failed
  else do
    let db ← reads World.db
    modifies backupFiles
    let retval ← openDb
    if retval ≠ .E_ok then do
      modifies restoreFiles
      pure retval
    else do
      let copied ← copyPages db
      let retval := if copied = .E_eof_detected then .E_ok else copied
      let _ ← closeDb
      modifies fun world => if retval ≠ .E_ok then restoreFiles world else { world with bkup := none }
      pure retval

/-- A geometry that the constructor accepts. -/
def validGeometry (kpsize htsize : Nat) : Bool :=
  minKeyPageSize ≤ kpsize && kpsize % keyPageHdrSize == 0 && 0 < htsize

/-- The constructor of `Rdb` over a path without files; its assertions must hold. -/
def World.init (kpsize htsize poolSize : Nat) : Option World :=
  if validGeometry kpsize htsize then
    some {
      created := false
      attr := none
      idx := []
      db := []
      fdp := []
      bkup := none
      kpSize := kpsize
      htSize := nextPrime htsize
      poolSize := poolSize
      opened := false
      opCount := 0
      hashTable := false
      entries := fun _ => HashEntry.init
      keyFdp := []
      valueFdp := []
      nodes := fun _ => ⟨none, none, none, none, none⟩
      nodeCount := 0
      cnodes := fun _ => ⟨none, none, none⟩
      cnodeCount := 0
      max := 0
      num := 0
      head := none
      tail := none
      pages := fun _ => KeyPage.zero kpsize
      nextFreePage := []
      numOfFreePages := 0 }
  else none

/-- The calls of a session. -/
inductive Op where
  | openDb
  | closeDb
  | get (key : Bytes) (vlen : Nat)
  | set (key value : Bytes)
  | remove (key : Bytes)
  deriving DecidableEq, Repr

/-- One call of a session, with its pattern of failures. -/
def perform (fails : Failures) : Op → Call Reply
  | .openDb => do
      let retval ← openDb
      pure ⟨retval, none⟩
  | .closeDb => do
      let retval ← closeDb
      pure ⟨retval, none⟩
  | .get key vlen => get fails key vlen
  | .set key value => set fails key value
  | .remove key => remove fails key

end SimpleNFast.Rdb
