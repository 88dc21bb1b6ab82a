/-
This file states what a database is without its memory: the files, their free pages, and the key pages of each
bucket. The calls change it as they do when no operation on a file fails, and it is a finite map from keys to values.
-/

import SimpleNFast.Construction.Rdb.Session
import SimpleNFast.Library.FreeStack

namespace SimpleNFast.Rdb

/-- The pages of a bucket with their offsets, as a pass over the bucket sees them. -/
abbrev Chain := List (Nat × KeyPage)

/-- A chain with another page at one place. -/
def replaced (chains : Nat → Chain) (bucket place : Nat) (item : Nat × KeyPage) : Nat → Chain :=
  Function.update chains bucket ((chains bucket).set place item)

/-- A page without the key, after the rotations that its removal may still do. -/
def strip (key : Bytes) (item : Nat × KeyPage) : Nat × KeyPage := (item.1, (item.2.remove key).1)

/-- The first pages of a chain are stripped of the key. -/
def stripped (key : Bytes) (chain : Chain) (count : Nat) : Chain :=
  chain.mapIdx fun place item => if place < count then strip key item else item

/-- The last page of a chain gets a next page. -/
def linkLast (chain : Chain) (offset : Nat) : Chain :=
  chain.map fun item =>
    (item.1, { item.2 with
      noff := if chain.getLast?.map Prod.fst = some item.1 then some offset else item.2.noff })

/-- The neighbours of a page get each other as neighbours. -/
def bypass (page : KeyPage) (item : Nat × KeyPage) : Nat × KeyPage :=
  (item.1, { item.2 with
    poff := if page.noff = some item.1 then page.poff else item.2.poff
    noff := if page.poff = some item.1 then page.noff else item.2.noff })

/-- The files, the free pages of the key file and of the value file, and the pages of the buckets. -/
structure Store where
  kpSize : Nat
  htSize : Nat
  idx : List KeyPage
  db : List ValuePage
  keyFdp : List Nat
  valueFdp : List Nat
  chains : Nat → Chain

/-- The memory of a world is hidden behind the chains that it shows. -/
def World.store (world : World) (chains : Nat → Chain) : Store :=
  ⟨world.kpSize, world.htSize, world.idx, world.db, world.keyFdp, world.valueFdp, chains⟩

namespace Store

/-- The bucket of a key. -/
def home (store : Store) (key : Bytes) : Nat := hash key store.htSize

/-- The first page of its bucket that has the key. -/
def find (store : Store) (key : Bytes) : Option Nat :=
  (store.chains (store.home key)).findIdx? fun item => (item.2.get key).isSome

/-- The first page of a bucket that counts fewer records than it has. -/
def room (store : Store) (key : Bytes) : Option Nat :=
  (store.chains (store.home key)).findIdx? fun item =>
    decide (item.2.vcount < (numOfKeysInPage store.kpSize : Int))

/-- The page at a place of the bucket of a key. -/
def item (store : Store) (key : Bytes) (place : Nat) : Nat × KeyPage :=
  (store.chains (store.home key))[place]?.getD (0, KeyPage.zero store.kpSize)

/-- The value offset in the record of a key on a page. -/
def offset (store : Store) (key : Bytes) (place : Nat) : Nat :=
  (((store.item key place).2.krec ((store.item key place).2.get key)).voff).getD 0

/-- A key page of the file changes in some fields; the offset -1 is no page. -/
def patched (store : Store) (offset : Off) (change : KeyPage → KeyPage) : List KeyPage :=
  match offset with
  | none => store.idx
  | some place => store.idx.modify (place / store.kpSize) change

/-- A value page is written. -/
def writeValue (store : Store) (offset : Nat) (page : ValuePage) : Store :=
  { store with db := PagedFile.writeAt ValuePage.zero store.db (offset / valuePageSize) page }

/-- A key page is written. -/
def writeKeys (store : Store) (offset : Nat) (page : KeyPage) : Store :=
  { store with
    idx := PagedFile.writeAt (KeyPage.zero store.kpSize) store.idx (offset / store.kpSize) page }

/-- A page with room gets the record of a new key. -/
def place (store : Store) (key : Bytes) (voff target : Nat) : Store :=
  let entry := store.item key target
  let page := (entry.2.put key (some voff)).1
  { store.writeKeys entry.1 page with
    chains := replaced store.chains (store.home key) target (entry.1, page) }

/-- A new last page gets the record of a new key. -/
def extend (store : Store) (key : Bytes) (voff : Nat) : Store :=
  let last := (store.chains (store.home key)).getLast?.map Prod.fst
  let page := ({ KeyPage.init store.kpSize with hash := store.home key, poff := last }.put key (some voff)).1
  match FreeStack.take store.kpSize store.keyFdp with
  | none => store
  | some (offset, rest) =>
      let written := store.writeKeys offset page
      { written with
        keyFdp := rest
        idx := written.patched last fun other => { other with noff := some offset }
        chains := Function.update store.chains (store.home key)
          (linkLast (store.chains (store.home key)) offset ++ [(offset, page)]) }

/-- A new key gets a value page and then a record. -/
def insert (store : Store) (key value : Bytes) : Store :=
  match FreeStack.take valuePageSize store.valueFdp with
  | none => store
  | some (voff, rest) =>
      let written := { store.writeValue voff (ValuePage.init key value) with valueFdp := rest }
      match store.room key with
      | some target => written.place key voff target
      | none => written.extend key voff

/-- A value is set over the old one, or for a new key. -/
def set (store : Store) (key value : Bytes) : Store :=
  match store.find key with
  | some place => store.writeValue (store.offset key place) (ValuePage.init key value)
  | none => store.insert key value

/-- An emptied page leaves its bucket and the file. -/
def unlink (store : Store) (bucket place : Nat) (entry : Nat × KeyPage) : Store :=
  let flagged := { store with
    idx := store.patched (some entry.1) fun page => { page with flags := pageDeleted, vcount := 0 } }
  let forward := { flagged with
    idx := flagged.patched entry.2.poff fun page => { page with noff := entry.2.noff } }
  let backward := { forward with
    idx := forward.patched entry.2.noff fun page => { page with poff := entry.2.poff } }
  { backward with
    keyFdp := entry.1 :: store.keyFdp
    chains := Function.update store.chains bucket
      (((store.chains bucket).map (bypass entry.2)).eraseIdx place) }

/-- The value page of a record becomes free. -/
def freeValue (store : Store) (voff : Nat) : Store :=
  { store with
    db := store.db.modify (voff / valuePageSize) fun page => { page with flags := pageDeleted }
    valueFdp := voff :: store.valueFdp }

/-- A key leaves its page; the pages before it may change in memory. -/
def delete (store : Store) (key : Bytes) (place : Nat) : Store :=
  let entry := store.item key place
  let page := (entry.2.remove key).1
  let freed := { store.freeValue (store.offset key place) with
    chains := Function.update store.chains (store.home key)
      (stripped key (store.chains (store.home key)) (place + 1)) }
  if 0 < page.vcount then freed.writeKeys entry.1 page
  else freed.unlink (store.home key) place (entry.1, page)

/-- A removal aborts when it frees another record than the one that was found. -/
def remove (store : Store) (key : Bytes) : Option Store :=
  match store.find key with
  | none => some store
  | some place =>
      if ((store.item key place).2.remove key).2 = (store.item key place).2.get key then
        some (store.delete key place)
      else none

/-- The free pages that a scan of a file finds, above the end of the file. -/
def scanned {α : Type} (unit : Nat) (free : α → Bool) (file : List α) : List Nat :=
  ((List.range file.length).filter fun index => (file[index]?.map free).getD false).reverse.map (· * unit) ++
    [file.length * unit]

/-- After a close and an open, the pages are those of the files. -/
def reopen (store : Store) : Store :=
  { store with
    keyFdp := scanned store.kpSize (fun page => page.isDeleted || decide (page.vcount ≤ 0)) store.idx
    valueFdp := scanned valuePageSize ValuePage.isDeleted store.db
    chains := fun bucket => (store.chains bucket).map fun item =>
      (item.1, store.idx[item.1 / store.kpSize]?.getD item.2) }

end Store

open Program

/-- The largest key and the largest value that the records have room for. -/
def maxKeyLength : Nat := 48

def maxValueLength : Nat := 192

/-- A call keeps to the sizes of the records. -/
def Op.fits : Op → Bool
  | .get key _ => decide (key.length ≤ maxKeyLength)
  | .set key value => decide (key.length ≤ maxKeyLength ∧ value.length ≤ maxValueLength)
  | .remove key => decide (key.length ≤ maxKeyLength)
  | _ => true

abbrev ByteMap := Bytes → Option Bytes

namespace ByteMap

/-- The answer to a call. -/
def reply (map : ByteMap) : Op → Reply
  | .openDb => ⟨.E_ok, none⟩
  | .closeDb => ⟨.E_ok, none⟩
  | .get key vlen =>
      if rejected key ∨ vlen = 0 then ⟨.E_invalid_arg, none⟩
      else match map key with
        | none => ⟨.E_not_found, none⟩
        | some value =>
            if vlen < value.length then ⟨.E_insufficient_buffer, none⟩ else ⟨.E_ok, some value⟩
  | .set key value => if rejected key ∨ rejected value then ⟨.E_invalid_arg, none⟩ else ⟨.E_ok, none⟩
  | .remove key =>
      if rejected key then ⟨.E_invalid_arg, none⟩
      else match map key with
        | none => ⟨.E_not_found, none⟩
        | some _ => ⟨.E_ok, none⟩

/-- The map after a call. -/
def after (map : ByteMap) : Op → ByteMap
  | .set key value => if rejected key ∨ rejected value then map else Function.update map key (some value)
  | .remove key => if rejected key then map else Function.update map key none
  | _ => map

/-- The answers to a sequence of calls. -/
def replies (map : ByteMap) : List Op → List Reply
  | [] => []
  | op :: rest => map.reply op :: (map.after op).replies rest

end ByteMap

/-- A sequence of calls, each with its pattern of failures. -/
def calls : List (Op × Failures) → Call (List Reply)
  | [] => pure []
  | (op, fails) :: rest => do
      let reply ← perform fails op
      let replies ← calls rest
      pure (reply :: replies)

/-- A sequence of calls without failures. -/
def session (ops : List Op) : Call (List Reply) := calls (ops.map fun op => (op, noFailure))

end SimpleNFast.Rdb
