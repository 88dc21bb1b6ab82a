/-
This file models the records of `dbstruct.h`, the return codes of `error.h` and the balanced tree of key records of
`keyrec.cpp`.
-/

import Mathlib.Tactic

namespace SimpleNFast.Rdb

/-- A key or a value is the part of its fixed array that its length covers. -/
abbrev Bytes := List UInt8

/-- The value `none` is the index -1 of a key record. -/
abbrev Slot := Option Nat

/-- The value `none` is the file offset -1. -/
abbrev Off := Option Nat

/-- The library returns one of these codes. -/
inductive Code where
  | E_ok
  | E_invalid_arg
  | E_invalid_state
  | E_not_found
  | E_open_failed
  | E_read_failed
  | E_write_failed
  | E_seek_failed
  | E_trunc_failed
  | E_try_again
  | E_rename_failed
  | E_remove_failed
  | E_eof_detected
  | E_no_memory
  | E_insufficient_buffer
  deriving DecidableEq, Repr

/-- A conversion to `char` keeps the low eight bits with their sign. -/
def toChar (value : Int) : Int := value.bmod 256

/-- A conversion to `short` keeps the low sixteen bits with their sign. -/
def toShort (value : Int) : Int := value.bmod 65536

/-- The two states of a key record. -/
inductive KeyFlag where
  | free
  | inuse
  deriving DecidableEq, Repr

/-- The key record is one node of the tree in a key page. -/
structure KeyRec where
  flags : KeyFlag
  height : Int
  left : Slot
  right : Slot
  key : Bytes
  voff : Off
  deriving DecidableEq, Repr

/-- A zeroed record has both links at slot zero. -/
def KeyRec.zero : KeyRec := ⟨.free, 0, some 0, some 0, [], some 0⟩

/-- This is `InitKeyRecord`. -/
def KeyRec.init : KeyRec := ⟨.free, 1, none, none, [], none⟩

def keyPageHdrSize : Nat := 64

def minKeyPageSize : Nat := 1024

/-- This is `NUM_OF_KEYS_IN_PAGE`. -/
def numOfKeysInPage (kpSize : Nat) : Nat := (kpSize - keyPageHdrSize) / 64

/-- The key page has a header and its key records. -/
structure KeyPage where
  flags : Int
  vcount : Int
  root : Slot
  hash : Nat
  poff : Off
  noff : Off
  keys : List KeyRec
  deriving DecidableEq, Repr

/-- A zeroed page has zero in every field. -/
def KeyPage.zero (kpSize : Nat) : KeyPage :=
  ⟨0, 0, some 0, 0, some 0, some 0, List.replicate (numOfKeysInPage kpSize) KeyRec.zero⟩

/-- This is `InitKeyPage`. -/
def KeyPage.init (kpSize : Nat) : KeyPage :=
  { KeyPage.zero kpSize with root := none, poff := none, noff := none }

/-- The value of `KPAGE_DELETED` and `VPAGE_DELETED`. -/
def pageDeleted : Int := 1

/-- This is `IsKeyPageDeleted`: the low bit of the flags. -/
def KeyPage.isDeleted (page : KeyPage) : Bool := page.flags % 2 == 1

/-- The value page holds one key and its value. -/
structure ValuePage where
  flags : Int
  key : Bytes
  value : Bytes
  deriving DecidableEq, Repr

/-- A zeroed value page has empty fields. -/
def ValuePage.zero : ValuePage := ⟨0, [], []⟩

/-- This is `InitValuePage`. -/
def ValuePage.init (key value : Bytes) : ValuePage := ⟨0, key, value⟩

/-- This is `IsValuePageDeleted`: the low bit of the flags. -/
def ValuePage.isDeleted (page : ValuePage) : Bool := page.flags % 2 == 1

/-- The value file has pages of this size. -/
def valuePageSize : Nat := 256

/-- The comparison reads the lengths first and the bytes only when they agree. -/
def keycmp (first second : Bytes) : Ordering :=
  compareLex (compareOn List.length) compare first second

namespace KeyPage

/-- A read outside the record array returns a zeroed record. -/
def krec (page : KeyPage) : Slot → KeyRec
  | none => KeyRec.zero
  | some index => page.keys.getD index KeyRec.zero

/-- A write outside the record array changes nothing. -/
def setRec (page : KeyPage) (slot : Slot) (change : KeyRec → KeyRec) : KeyPage :=
  match slot with
  | none => page
  | some index => { page with keys := page.keys.modify index change }

/-- This is `LEFT_OF`. -/
def leftOf (page : KeyPage) (slot : Slot) : Slot := (page.krec slot).left

/-- This is `RIGHT_OF`. -/
def rightOf (page : KeyPage) (slot : Slot) : Slot := (page.krec slot).right

/-- The height of a missing child is zero. -/
def heightOf (page : KeyPage) : Slot → Int
  | none => 0
  | some index => (page.krec (some index)).height

def setLeft (page : KeyPage) (slot child : Slot) : KeyPage :=
  page.setRec slot fun record => { record with left := child }

def setRight (page : KeyPage) (slot child : Slot) : KeyPage :=
  page.setRec slot fun record => { record with right := child }

/-- The scan returns the first free record. -/
def getFree (page : KeyPage) : Slot :=
  page.keys.findIdx? fun record => record.flags == .free

/-- The scan counts the free records. -/
def getFreeCount (page : KeyPage) : Nat :=
  page.keys.countP fun record => record.flags == .free

/-- A new record takes the first free slot and counts as valid. -/
def getKeyRecord (page : KeyPage) (key : Bytes) (voff : Off) : KeyPage × Slot :=
  match page.getFree with
  | none => (page, none)
  | some index =>
      ({ page.setRec (some index) (fun _ =>
          { KeyRec.init with flags := .inuse, key := key, voff := voff }) with
          vcount := toShort (page.vcount + 1) }, some index)

/-- A freed record loses its key and no longer counts. -/
def freeKeyRecord (page : KeyPage) (slot : Slot) : KeyPage :=
  { page.setRec slot (fun _ => KeyRec.init) with vcount := toShort (page.vcount - 1) }

/-- The balance factor compares the stored heights of the children. -/
def balanceFactor (page : KeyPage) : Slot → Int
  | none => 0
  | some index =>
      page.heightOf (page.leftOf (some index)) - page.heightOf (page.rightOf (some index))

/-- The stored height follows from the stored heights of the children. -/
def height (page : KeyPage) : Slot → KeyPage
  | none => page
  | some index =>
      let tall := 1 + max (page.heightOf (page.leftOf (some index)))
        (page.heightOf (page.rightOf (some index)))
      page.setRec (some index) fun record => { record with height := toChar tall }

def rotateLeft (page : KeyPage) (root : Slot) : KeyPage × Slot :=
  let pivot := page.rightOf root
  let page := page.setRight root (page.leftOf pivot)
  let page := page.setLeft pivot root
  ((page.height root).height pivot, pivot)

def rotateRight (page : KeyPage) (root : Slot) : KeyPage × Slot :=
  let pivot := page.leftOf root
  let page := page.setLeft root (page.rightOf pivot)
  let page := page.setRight pivot root
  ((page.height root).height pivot, pivot)

def rotateLeftRight (page : KeyPage) (root : Slot) : KeyPage × Slot :=
  let inner := page.rotateLeft (page.leftOf root)
  (inner.1.setLeft root inner.2).rotateRight root

def rotateRightLeft (page : KeyPage) (root : Slot) : KeyPage × Slot :=
  let inner := page.rotateRight (page.rightOf root)
  (inner.1.setRight root inner.2).rotateLeft root

/-- A rotation needs a factor of two at the root and of one at the taller child. -/
def balanceTree (page : KeyPage) (root : Slot) : KeyPage × Slot :=
  if page.balanceFactor root = -2 then
    let inner := page.balanceFactor (page.rightOf root)
    if inner = -1 then page.rotateLeft root
    else if inner = 1 then page.rotateRightLeft root
    else (page, root)
  else if page.balanceFactor root = 2 then
    let inner := page.balanceFactor (page.leftOf root)
    if inner = -1 then page.rotateLeftRight root
    else if inner = 1 then page.rotateRight root
    else (page, root)
  else (page, root)

/-- The result of a change below a root is the page, the new root and the slot it names. -/
abbrev Change := KeyPage × Slot × Slot

/-- A recursive change ends with the height and the balance of its root. -/
def settle (page : KeyPage) (root idx : Slot) : Change :=
  let balanced := (page.height root).balanceTree root
  (balanced.1, balanced.2, idx)

/-- This is the recursive `put`; the fuel bounds its depth. -/
def putAt : Nat → KeyPage → Slot → Bytes → Off → Change
  | 0, page, root, _, _ => (page, root, none)
  | _ + 1, page, none, key, voff =>
      let added := page.getKeyRecord key voff
      let balanced := added.1.balanceTree added.2
      (balanced.1, balanced.2, added.2)
  | fuel + 1, page, some index, key, voff =>
      match keycmp key (page.krec (some index)).key with
      | .lt =>
          let below := putAt fuel page (page.leftOf (some index)) key voff
          settle (below.1.setLeft (some index) below.2.1) (some index) below.2.2
      | .eq =>
          settle (page.setRec (some index) fun record => { record with voff := voff })
            (some index) (some index)
      | .gt =>
          let below := putAt fuel page (page.rightOf (some index)) key voff
          settle (below.1.setRight (some index) below.2.1) (some index) below.2.2

/-- The largest key stands at the end of the right links. -/
def maxKey : Nat → KeyPage → Slot → Slot
  | 0, _, root => root
  | fuel + 1, page, root =>
      match root, page.rightOf root with
      | some _, some next => maxKey fuel page (some next)
      | root, _ => root

/-- A record with at most one child leaves its place to that child. -/
def unlink (page : KeyPage) (root child : Slot) : Change :=
  settle (page.freeKeyRecord root) child root

/-- This is `removeMax`; the freed slot is that of the largest key. -/
def removeMax : Nat → KeyPage → Slot → Change
  | 0, page, root => (page, root, none)
  | _ + 1, page, none => settle page none none
  | fuel + 1, page, some index =>
      match page.rightOf (some index) with
      | none => unlink page (some index) (page.leftOf (some index))
      | some next =>
          let below := removeMax fuel page (some next)
          settle (below.1.setRight (some index) below.2.1) (some index) below.2.2

/-- A record with two children takes the key of its largest left descendant. -/
def replaceByMax (fuel : Nat) (page : KeyPage) (root : Slot) : Change :=
  let source := page.krec (maxKey fuel page (page.leftOf root))
  let page := page.setRec root fun record =>
    { record with key := source.key, voff := source.voff }
  let below := removeMax fuel page (page.leftOf root)
  settle (below.1.setLeft root below.2.1) root below.2.2

/-- This is the recursive `remove`; the fuel bounds its depth. -/
def removeAt : Nat → KeyPage → Slot → Bytes → Change
  | 0, page, root, _ => (page, root, none)
  | _ + 1, page, none, _ => (page, none, none)
  | fuel + 1, page, some index, key =>
      match keycmp key (page.krec (some index)).key with
      | .lt =>
          let below := removeAt fuel page (page.leftOf (some index)) key
          settle (below.1.setLeft (some index) below.2.1) (some index) below.2.2
      | .eq =>
          match page.leftOf (some index), page.rightOf (some index) with
          | none, child => unlink page (some index) child
          | child, none => unlink page (some index) child
          | _, _ => replaceByMax fuel page (some index)
      | .gt =>
          let below := removeAt fuel page (page.rightOf (some index)) key
          settle (below.1.setRight (some index) below.2.1) (some index) below.2.2

/-- This is the loop of `get`; the fuel bounds its steps. -/
def getAt : Nat → KeyPage → Slot → Bytes → Slot
  | 0, _, _, _ => none
  | _ + 1, _, none, _ => none
  | fuel + 1, page, some index, key =>
      match keycmp key (page.krec (some index)).key with
      | .lt => getAt fuel page (page.leftOf (some index)) key
      | .eq => some index
      | .gt => getAt fuel page (page.rightOf (some index)) key

/-- A tree of the page has at most this depth. -/
def depthBound (page : KeyPage) : Nat := page.keys.length + 1

/-- The index of the record that holds the key. -/
def get (page : KeyPage) (key : Bytes) : Slot :=
  getAt page.depthBound page page.root key

/-- The page after the insertion and the index of the record. -/
def put (page : KeyPage) (key : Bytes) (voff : Off) : KeyPage × Slot :=
  let result := putAt page.depthBound page page.root key voff
  ({ result.1 with root := result.2.1 }, result.2.2)

/-- The page after the deletion and the index of the freed record. -/
def remove (page : KeyPage) (key : Bytes) : KeyPage × Slot :=
  let result := removeAt page.depthBound page page.root key
  ({ result.1 with root := result.2.1 }, result.2.2)

end KeyPage

end SimpleNFast.Rdb
