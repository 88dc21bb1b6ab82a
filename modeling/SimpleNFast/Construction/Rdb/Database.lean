/-
This file models the database operations of `rdb.cpp`.
-/

import SimpleNFast.Construction.Rdb.HashTable
import SimpleNFast.Construction.Rdb.Prime

namespace SimpleNFast.Rdb
open Program

/-- The three passes of `processKeyPages` over a bucket. -/
inductive Pass where
  | GET
  | SET
  | DEL
  deriving DecidableEq, Repr

/-- The fields of `key_info_t`. -/
structure KeyInfo where
  key : Bytes
  hash : Nat
  voff : Off
  kpn : Option Nat
  lkp : Option Nat
  lkpoff : Off
  kidx : Slot
  deriving DecidableEq, Repr

/-- This is `SetKeyInfo`. -/
def KeyInfo.init (key : Bytes) (hash : Nat) : KeyInfo := ⟨key, hash, none, none, none, none, none⟩

/-- A page without the key, or without room for it, is remembered as the last page. -/
def KeyInfo.pass (ki : KeyInfo) (kp offset : Nat) : KeyInfo :=
  { ki with lkp := some kp, lkpoff := some offset }

def setPage (kp : Nat) (page : KeyPage) : Call Unit :=
  modifies fun world => { world with pages := Function.update world.pages kp page }

/-- Both loops treat a loaded page in the same way; a code ends the pass. -/
def visit (fails : Failures) (pass : Pass) (ki : KeyInfo) (kpn kp offset : Nat) :
    Call (Option Code × KeyInfo) := do
  let page ← reads fun world => world.pages kp
  let kpSize ← reads World.kpSize
  match pass with
  | .GET =>
      let kidx := page.get ki.key
      if kidx = none then pure (none, { ki with kidx := none }.pass kp offset)
      else pure (some .E_ok,
        { ki with kidx := kidx, kpn := some kpn, voff := (page.krec kidx).voff })
  | .DEL => do
      let removed := page.remove ki.key
      setPage kp removed.1
      if removed.2 = none then pure (none, { ki with kidx := none }.pass kp offset)
      else do
        let retval ← if 0 < removed.1.vcount then KeyFile.write fails offset removed.1 else pure .E_ok
        pure (some retval, { ki with kidx := removed.2, kpn := some kpn })
  | .SET =>
      if page.vcount < numOfKeysInPage kpSize then do
        let put := page.put ki.key ki.voff
        setPage kp put.1
        if put.2 = none then pure (none, { ki with kidx := none }.pass kp offset)
        else do
          let retval ← KeyFile.write fails offset put.1
          pure (some retval,
            { ki with kidx := put.2, kpn := some kpn, voff := (put.1.krec put.2).voff })
      else pure (none, ki.pass kp offset)

/-- The page of a node must be there. -/
def pageOf (kpn : Nat) : Call Nat := do
  let kp ← reads fun world => (world.nodes kpn).kp
  match kp with
  | none => stops .crashed
  | some addr => pure addr

/-- The second loop of `processKeyPages` reads the rest of the chain from the file. -/
def walkDisk (fails : Failures) (pass : Pass) : Nat → KeyInfo → Off → Call (Code × KeyInfo)
  | 0, _, _ => stops .diverged
  | _ + 1, ki, none => pure (.E_not_found, ki)
  | fuel + 1, ki, some nextOffset => do
      let got ← LRUCache.get fails (some nextOffset)
      if got.1 ≠ .E_ok then pure (got.1, ki)
      else do
        HashTable.addKeyPageNode ki.hash got.2
        let kp ← pageOf got.2
        let visited ← visit fails pass ki got.2 kp nextOffset
        match visited with
        | (some retval, ki) => pure (retval, ki)
        | (none, ki) => do
            let noff ← reads fun world => (world.pages kp).noff
            walkDisk fails pass fuel ki noff

/-- The first loop of `processKeyPages` follows the nodes in memory. -/
def walkCached (fails : Failures) (pass : Pass) :
    Nat → KeyInfo → Off → Option Nat → Call (Code × KeyInfo)
  | 0, _, _, _ => stops .diverged
  | fuel + 1, ki, some nextOffset, some kpn => do
      LRUCache.touch kpn
      let cached ← reads fun world => (world.nodes kpn).kp
      let retval ←
        if cached = none then LRUCache.update fails kpn (some nextOffset) else pure .E_ok
      if retval ≠ .E_ok then pure (retval, ki)
      else do
        let kp ← pageOf kpn
        let visited ← visit fails pass ki kpn kp nextOffset
        match visited with
        | (some retval, ki) => pure (retval, ki)
        | (none, ki) => do
            let noff ← reads fun world => (world.pages kp).noff
            let next ← reads fun world => (world.nodes kpn).next
            walkCached fails pass fuel ki noff next
  | fuel + 1, ki, nextOffset, _ => walkDisk fails pass (fuel + 1) ki nextOffset

/-- No pass over linked pages takes more steps than there are pages and nodes. -/
def walkBound (world : World) : Nat := world.idx.length + world.nodeCount + 1

def processKeyPages (fails : Failures) (pass : Pass) (ki : KeyInfo) : Call (Code × KeyInfo) := do
  let nextOffset ← HashTable.getOffset ki.hash
  let kpn ← HashTable.getKeyPageNodeList ki.hash
  let fuel ← reads walkBound
  walkCached fails pass fuel ki nextOffset kpn

/-- The new page takes its place in the file, and then the last page points to it. -/
def linkNewPage (fails : Failures) (ki : KeyInfo) (kp : Nat) (page : KeyPage) :
    Call (Code × Off × List UnwindBlock) := do
  let written ← KeyFile.append fails page
  if written.1 ≠ .E_ok then pure (written.1, none, [])
  else do
    let ustk := [UnwindBlock.keyFlags kp written.2 pageDeleted, .keyFreePage written.2]
    match ki.lkp, ki.lkpoff with
    | some lkp, some lkpoff => do
        let last ← reads fun world => (world.pages lkp).noff
        let retval ← KeyFile.writeNextOffset fails lkpoff lkp written.2
        if retval = .E_ok then pure (retval, written.2, .keyNextOffset lkp lkpoff last :: ustk)
        else pure (retval, written.2, ustk)
    | _, _ => pure (.E_ok, written.2, ustk)

/-- The page with the new key enters the file and the list of its bucket. -/
def enterNewPage (fails : Failures) (ki : KeyInfo) (kpn kp : Nat) (put : KeyPage × Slot) :
    Call (Code × KeyInfo) := do
  setPage kp put.1
  assert put.2.isSome
  let linked ← linkNewPage fails ki kp put.1
  if linked.2.1.isSome then
    LRUCache.setNode kpn fun node => { node with kpoff := linked.2.1 }
  if linked.1 = .E_ok then HashTable.addKeyPageNode ki.hash kpn
  else LRUCache.free kpn
  unwind fails linked.2.2 linked.1
  pure (linked.1,
    { ki with kidx := put.2, kpn := if linked.1 = .E_ok then some kpn else ki.kpn })

def addNewPage (fails : Failures) (ki : KeyInfo) : Call (Code × KeyInfo) := do
  let got ← LRUCache.get fails none
  if got.1 ≠ .E_ok then pure (got.1, ki)
  else do
    let kp ← pageOf got.2
    let kpSize ← reads World.kpSize
    enterNewPage fails ki got.2 kp
      ({ KeyPage.init kpSize with hash := ki.hash, poff := ki.lkpoff }.put ki.key ki.voff)

/-- The code and the value that a call returns. -/
structure Reply where
  code : Code
  value : Option Bytes
  deriving DecidableEq, Repr

/-- A key or a value is rejected when it is empty or starts with a zero byte. -/
def rejected (bytes : Bytes) : Bool := bytes.head? == none || bytes.head? == some 0

/-- The guard asserts that the hash table is there; one thread never waits for it. -/
def guardTable : Call Unit := requires World.hashTable .aborted

def countOp (change : Int) : Call Unit :=
  modifies fun world => { world with opCount := world.opCount + change }

/-- The assertions after a key was found. -/
def assertFound (ki : KeyInfo) : Call Unit := do
  match ki.kpn with
  | none => stops .aborted
  | some kpn => do
      let node ← reads fun world => world.nodes kpn
      assert node.kp.isSome
      assert node.kpoff.isSome
      assert ki.kidx.isSome
      assert ki.voff.isSome

/-- The assertions on a value page that was read. -/
def assertValue (page : ValuePage) (key : Bytes) : Call Unit := do
  assert (!page.isDeleted)
  assert (page.key == key)

def get (fails : Failures) (key : Bytes) (vlen : Nat) : Call Reply := do
  if rejected key ∨ vlen = 0 then pure ⟨.E_invalid_arg, none⟩
  else do
    countOp 1
    let htSize ← reads World.htSize
    guardTable
    let found ← processKeyPages fails .GET (KeyInfo.init key (hash key htSize))
    let reply ←
      if found.1 ≠ .E_ok then pure ⟨found.1, none⟩
      else do
        assertFound found.2
        let read ← ValueFile.read fails found.2.voff
        match read with
        | .error code => pure ⟨code, none⟩
        | .ok page => do
            assertValue page key
            if vlen < page.value.length then pure ⟨.E_insufficient_buffer, none⟩
            else pure ⟨.E_ok, some page.value⟩
    countOp (-1)
    pure reply

/-- A new key gets a value page first and then a place in a key page. -/
def setNew (fails : Failures) (key value : Bytes) (ki : KeyInfo) :
    Call (Code × List UnwindBlock) := do
  let written ← ValueFile.append fails (ValuePage.init key value)
  if written.1 ≠ .E_ok then pure (written.1, [])
  else do
    let ki := { ki with voff := written.2 }
    let ustk := [UnwindBlock.valueFlags ki.voff pageDeleted, .valueFreePage ki.voff]
    let placed ← processKeyPages fails .SET ki
    if placed.1 = .E_not_found then do
      let added ← addNewPage fails placed.2
      pure (added.1, ustk)
    else pure (placed.1, ustk)

/-- The end of `set` and `remove`: a code other than `E_ok` undoes the stack. -/
def finish (fails : Failures) (stored : Code × List UnwindBlock) : Call Reply := do
  unwind fails stored.2 stored.1
  countOp (-1)
  pure ⟨stored.1, none⟩

/-- This is `set` without an updater. -/
def set (fails : Failures) (key value : Bytes) : Call Reply := do
  if rejected key ∨ rejected value then pure ⟨.E_invalid_arg, none⟩
  else do
    countOp 1
    let htSize ← reads World.htSize
    guardTable
    let found ← processKeyPages fails .GET (KeyInfo.init key (hash key htSize))
    let stored ←
      if found.1 = .E_ok then do
        assertFound found.2
        let retval ← ValueFile.write fails (found.2.voff.getD 0) (ValuePage.init key value)
        pure (retval, [])
      else if found.1 = .E_not_found then setNew fails key value found.2
      else pure (found.1, [])
    finish fails stored

/-- The next page of an emptied page is loaded, as its previous offset changes. -/
def loadNext (fails : Failures) (hindex : Nat) (next : Option Nat) (nextOffset : Off) :
    Call (Code × Option Nat) :=
  match nextOffset, next with
  | some _, none => do
      let got ← LRUCache.get fails nextOffset
      if got.1 = .E_ok then do
        HashTable.addKeyPageNode hindex got.2
        pure (.E_ok, some got.2)
      else pure (got.1, none)
  | _, _ => pure (.E_ok, next)

/-- The page of a neighbour, when the offset and the node are both there. -/
def neighbour (offset : Off) (node : Option Nat) : Call (Option (Nat × Nat)) :=
  match offset, node with
  | some place, some kpn => do
      let kp ← reads fun world => (world.nodes kpn).kp
      pure (kp.map fun addr => (place, addr))
  | _, _ => pure none

/-- The neighbours of an emptied page are linked to each other. -/
def relink (fails : Failures) (previous following : Option (Nat × Nat)) (prevOffset nextOffset : Off)
    (ustk : List UnwindBlock) : Call (Code × List UnwindBlock) := do
  let (retval, ustk) ←
    match previous with
    | none => pure (Code.E_ok, ustk)
    | some (place, kp) => do
        let offset ← reads fun world => (world.pages kp).noff
        let retval ← KeyFile.writeNextOffset fails place kp nextOffset
        pure (retval, if retval = .E_ok then .keyNextOffset kp place offset :: ustk else ustk)
  match following with
  | none => pure (retval, ustk)
  | some (place, kp) =>
      if retval ≠ .E_ok then pure (retval, ustk)
      else do
        let offset ← reads fun world => (world.pages kp).poff
        let retval ← KeyFile.writePrevOffset fails place kp prevOffset
        pure (retval, if retval = .E_ok then .keyPrevOffset kp place offset :: ustk else ustk)

/-- The page that lost its last key leaves the chain, the cache and the file. -/
def removePage (fails : Failures) (hindex kpn kp : Nat) (ustk : List UnwindBlock) :
    Call (Code × List UnwindBlock) := do
  let page ← reads fun world => world.pages kp
  let node ← reads fun world => world.nodes kpn
  let next ← loadNext fails hindex node.next page.noff
  if next.1 ≠ .E_ok then pure (next.1, ustk)
  else do
    let previous ← neighbour page.poff node.prev
    let following ← neighbour page.noff next.2
    let retval ← KeyFile.writeFlags fails node.kpoff kp pageDeleted
    if retval ≠ .E_ok then pure (retval, ustk)
    else do
      let relinked ← relink fails previous following page.poff page.noff
        (.keyFlags kp node.kpoff 0 :: ustk)
      if relinked.1 ≠ .E_ok then pure relinked
      else do
        let offset ← reads fun world => (world.nodes kpn).kpoff
        HashTable.removeKeyPageNode hindex kpn
        LRUCache.free kpn
        let retval ← KeyFile.freePage offset
        pure (retval, relinked.2)

/-- The key that was found is removed from its page, and its value page becomes free. -/
def removeFound (fails : Failures) (ki : KeyInfo) : Call (Code × List UnwindBlock) := do
  let retval ← ValueFile.writeFlags fails ki.voff pageDeleted
  if retval ≠ .E_ok then pure (retval, [])
  else do
    let ustk := [UnwindBlock.valueFlags ki.voff 0]
    let deleted ← processKeyPages fails .DEL (KeyInfo.init ki.key ki.hash)
    assert (deleted.1 == .E_ok)
    assert (ki.kpn == deleted.2.kpn)
    assert (ki.kidx == deleted.2.kidx)
    let kpn := deleted.2.kpn.getD 0
    let kp ← pageOf kpn
    let vcount ← reads fun world => (world.pages kp).vcount
    let unlinked ← if vcount ≤ 0 then removePage fails ki.hash kpn kp ustk else pure (.E_ok, ustk)
    if unlinked.1 ≠ .E_ok then pure unlinked
    else do
      let retval ← ValueFile.freePage ki.voff
      pure (retval, unlinked.2)

def remove (fails : Failures) (key : Bytes) : Call Reply := do
  if rejected key then pure ⟨.E_invalid_arg, none⟩
  else do
    countOp 1
    let htSize ← reads World.htSize
    guardTable
    let found ← processKeyPages fails .GET (KeyInfo.init key (hash key htSize))
    let removed ←
      if found.1 = .E_ok then do
        assertFound found.2
        removeFound fails found.2
      else pure (found.1, [])
    finish fails removed

end SimpleNFast.Rdb
