/-
This file models the memory and the files that `Rdb` works on.
-/

import SimpleNFast.Construction.Rdb.DbStruct
import SimpleNFast.Library.ByteFile
import SimpleNFast.Library.Program

namespace SimpleNFast.Rdb

/-- The node of a cached key page; the fields are those of `key_page_node_t`. -/
structure KeyPageNode where
  kp : Option Nat
  kpoff : Off
  cnode : Option Nat
  prev : Option Nat
  next : Option Nat
  deriving DecidableEq, Repr

/-- The node of the LRU list; the fields are those of `cnode_t`. -/
structure CNode where
  kpn : Option Nat
  prev : Option Nat
  next : Option Nat
  deriving DecidableEq, Repr

/-- The entry of the hash table without its lock. -/
structure HashEntry where
  offset : Off
  head : Option Nat
  tail : Option Nat
  deriving DecidableEq, Repr

/-- A new entry has no page. -/
def HashEntry.init : HashEntry := ⟨none, none, none⟩

/-- The four files of a database under their backup names. -/
structure Files where
  attr : Option (Nat × Nat)
  idx : List KeyPage
  db : List ValuePage
  fdp : List Nat

/-- The members of `Rdb` and of the objects it owns, and the files on the disk. Pointers to nodes,
to cache nodes and to pages of the pool are numbers. -/
structure World where
  created : Bool
  attr : Option (Nat × Nat)
  idx : List KeyPage
  db : List ValuePage
  fdp : List Nat
  bkup : Option Files
  kpSize : Nat
  htSize : Nat
  poolSize : Nat
  opened : Bool
  opCount : Int
  hashTable : Bool
  entries : Nat → HashEntry
  keyFdp : List Nat
  valueFdp : List Nat
  nodes : Nat → KeyPageNode
  nodeCount : Nat
  cnodes : Nat → CNode
  cnodeCount : Nat
  max : Nat
  num : Nat
  head : Option Nat
  tail : Option Nat
  pages : Nat → KeyPage
  nextFreePage : List Nat
  numOfFreePages : Nat

/-- The reasons for which a call does not return. -/
inductive Stop where
  | aborted
  | crashed
  | diverged
  deriving DecidableEq, Repr

/-- The page that the cache evicts: its bucket, and whether it is the last of the LRU list, alone in
its bucket and equal to its copy in the file. The bucket is missing when there is no such page. -/
structure Eviction where
  bucket : Option Nat
  last : Bool
  alone : Bool
  clean : Bool
  deriving DecidableEq, Repr

/-- An eviction does no harm to an operation on a bucket when it takes the last page of the LRU list,
and this page belongs to another bucket, is alone in its list and is the one in the file. -/
def Harmless (bucket : Nat) (eviction : Eviction) : Prop :=
  ∃ other, eviction.bucket = some other ∧ other ≠ bucket ∧ eviction.last = true ∧
    eviction.alone = true ∧ eviction.clean = true

instance (bucket : Nat) (eviction : Eviction) : Decidable (Harmless bucket eviction) :=
  match same : eviction.bucket with
  | none => isFalse (by simp [Harmless, same])
  | some other =>
      decidable_of_iff (other ≠ bucket ∧ eviction.last = true ∧ eviction.alone = true ∧
        eviction.clean = true) (by simp [Harmless, same])

/-- The functions of the library are programs over the world. -/
abbrev Call := Program World Eviction Stop

/-- The operations on the key file and on the value file. -/
inductive FileOp where
  | readKeyPage (offset : Nat)
  | writeKeyPage (offset : Nat)
  | writeKeyFlags (offset : Nat) (flags : Int)
  | writePrevOffset (offset : Nat) (prevOffset : Off)
  | writeNextOffset (offset : Nat) (nextOffset : Off)
  | readValuePage (offset : Nat)
  | readValueFlags (offset : Nat)
  | writeValuePage (offset : Nat)
  | writeValueFlags (offset : Nat) (flags : Int)
  deriving DecidableEq, Repr

/-- A pattern of failures names the operations that fail; a call makes no operation twice. -/
abbrev Failures := FileOp → Bool

/-- No operation fails. -/
def noFailure : Failures := fun _ => false

/-- The macro `ASSERT` aborts the process. -/
def assert (condition : Bool) : Call Unit := Program.requires (fun _ => condition) .aborted

end SimpleNFast.Rdb
