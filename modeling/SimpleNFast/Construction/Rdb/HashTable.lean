/-
This file models the hash function and the key page lists of `hashtable.cpp`, the undo log of `unwind.cpp`,
and the bucket locks of `hashtable.cpp` and `rwlock.cpp` as steps of threads.
-/

import Mathlib.Data.Finset.Card
import Mathlib.Logic.Function.Basic
import Mathlib.Tactic
import SimpleNFast.Construction.Rdb.Cache

namespace SimpleNFast.Rdb
open Program

/-- A `char` has a sign, so a large byte is extended with ones. -/
def extendChar (byte : UInt8) : UInt64 :=
  if byte.toNat < 128 then UInt64.ofNat byte.toNat else UInt64.ofNat (2 ^ 64 - 256 + byte.toNat)

/-- The hash of `sdbm`. -/
def hash (key : Bytes) (tableSize : Nat) : Nat :=
  (key.foldl (fun (ih : UInt64) byte => extendChar byte + (ih <<< 6) + (ih <<< 16) - ih) 0).toNat %
    tableSize

namespace HashTable

/-- The access to an entry asserts its index. -/
def getEntry (index : Nat) : Call HashEntry := do
  let htSize ← reads World.htSize
  assert (decide (index < htSize))
  reads fun world => world.entries index

def setEntry (index : Nat) (change : HashEntry → HashEntry) : Call Unit :=
  modifies fun world =>
    { world with entries := Function.update world.entries index (change (world.entries index)) }

def getOffset (index : Nat) : Call Off := do
  let hent ← getEntry index
  pure hent.offset

def setOffset (index : Nat) (offset : Nat) : Call Unit := do
  let _ ← getEntry index
  setEntry index fun hent => { hent with offset := some offset }

def getKeyPageNodeList (index : Nat) : Call (Option Nat) := do
  let hent ← getEntry index
  pure hent.head

/-- A node enters at the end of its list. -/
def addKeyPageNode (index kpn : Nat) : Call Unit := do
  let hent ← getEntry index
  LRUCache.setNode kpn fun node => { node with prev := none, next := none }
  match hent.head, hent.tail with
  | none, _ => do
      let offset ← reads fun world => (world.nodes kpn).kpoff
      setEntry index fun _ => ⟨offset, some kpn, some kpn⟩
  | some _, none => stops .crashed
  | some _, some last => do
      LRUCache.setNode kpn fun node => { node with prev := some last }
      LRUCache.setNode last fun node => { node with next := some kpn }
      setEntry index fun hent => { hent with tail := some kpn }

/-- A node leaves its list; the next node gives the new first offset. -/
def removeKeyPageNode (index kpn : Nat) : Call Unit := do
  let hent ← getEntry index
  assert (hent.head.isSome && hent.tail.isSome)
  let node ← reads fun world => world.nodes kpn
  match node.prev with
  | some before => LRUCache.setNode before fun other => { other with next := node.next }
  | none => do
      let offset ← reads fun world => node.next.bind fun next => (world.nodes next).kpoff
      setEntry index fun hent => { hent with head := node.next, offset := offset }
  let node ← reads fun world => world.nodes kpn
  match node.next with
  | some after => LRUCache.setNode after fun other => { other with prev := node.prev }
  | none => setEntry index fun hent => { hent with tail := node.prev }

end HashTable

/-- One entry of the undo log names the operation that reverts a change. -/
inductive UnwindBlock where
  | keyFlags (kp : Nat) (pageOff : Off) (flags : Int)
  | keyNextOffset (kp : Nat) (pageOff : Nat) (offset : Off)
  | keyPrevOffset (kp : Nat) (pageOff : Nat) (offset : Off)
  | keyFreePage (offset : Off)
  | valueFlags (pageOff : Off) (flags : Int)
  | valueFreePage (offset : Off)
  deriving DecidableEq, Repr

/-- The operation of one entry. -/
def UnwindBlock.undo (fails : Failures) : UnwindBlock → Call Code
  | keyFlags kp pageOff flags => KeyFile.writeFlags fails pageOff kp flags
  | keyNextOffset kp pageOff offset => KeyFile.writeNextOffset fails pageOff kp offset
  | keyPrevOffset kp pageOff offset => KeyFile.writePrevOffset fails pageOff kp offset
  | keyFreePage offset => KeyFile.freePage offset
  | valueFlags pageOff flags => ValueFile.writeFlags fails pageOff flags
  | valueFreePage offset => ValueFile.freePage offset

/-- The stack is undone from its top, and every step must succeed. -/
def executeUnwind (fails : Failures) : List UnwindBlock → Call Unit
  | [] => pure ()
  | block :: rest => do
      let retval ← block.undo fails
      assert (retval == .E_ok)
      executeUnwind fails rest

/-- A status other than `E_ok` undoes the stack. -/
def unwind (fails : Failures) (stack : List UnwindBlock) (status : Code) : Call Unit :=
  if status = .E_ok then pure () else executeUnwind fails stack

end SimpleNFast.Rdb

namespace SimpleNFast.Rdb.Locks

/-- A read-write lock counts its holders beside the lock of the system. -/
structure RWLock (Tid : Type) where
  cnt : Nat
  readers : Finset Tid
  writer : Option Tid
  deriving DecidableEq

namespace RWLock

variable {Tid : Type} [DecidableEq Tid]

/-- A new lock has no holder. -/
def new : RWLock Tid := ⟨0, ∅, none⟩

/-- A reader waits for the writer; the value `none` is the wait. -/
def rdlock (lock : RWLock Tid) (tid : Tid) : Option (RWLock Tid) :=
  if lock.writer = none then
    some { lock with cnt := lock.cnt + 1, readers := insert tid lock.readers }
  else none

/-- A writer waits for all holders; the value `none` is the wait. -/
def wrlock (lock : RWLock Tid) (tid : Tid) : Option (RWLock Tid) :=
  if lock.writer = none ∧ lock.readers = ∅ then
    some { lock with cnt := lock.cnt + 1, writer := some tid }
  else none

/-- The system lock drops its holder. -/
def unlock (lock : RWLock Tid) (tid : Tid) : RWLock Tid :=
  if lock.writer = some tid then { lock with writer := none }
  else { lock with readers := lock.readers.erase tid }

/-- The methods `rdunlock` and `wrunlock` have the same body. -/
def release (lock : RWLock Tid) (tid : Tid) : RWLock Tid :=
  if 0 < lock.cnt then { lock.unlock tid with cnt := lock.cnt - 1 } else lock

end RWLock

/-- A hash entry points to its lock while the lock is in use; the pool keeps the others. -/
structure HashTable (Tid : Type) (htsize : Nat) where
  rwlock : Fin htsize → Option (RWLock Tid)
  pool : List (RWLock Tid)

/-- A guard names its bucket and its mode. -/
structure Op (htsize : Nat) where
  index : Fin htsize
  exclusive : Bool
  deriving DecidableEq, Repr

namespace HashTable

variable {Tid : Type} [DecidableEq Tid] {htsize : Nat}

/-- This is `RWLockPool::get`. -/
def poolGet (table : HashTable Tid htsize) : RWLock Tid × List (RWLock Tid) :=
  match table.pool with
  | [] => (RWLock.new, [])
  | lock :: rest => (lock, rest)

/-- The first user of a bucket takes a lock from the pool. -/
def ensureLock (table : HashTable Tid htsize) (index : Fin htsize) : HashTable Tid htsize :=
  match table.rwlock index with
  | some _ => table
  | none =>
      ⟨Function.update table.rwlock index (some table.poolGet.1), table.poolGet.2⟩

/-- The wait for the bucket lock ends when the lock lets the thread in. -/
def acquire (table : HashTable Tid htsize) (op : Op htsize) (tid : Tid) :
    Option (HashTable Tid htsize) :=
  match table.rwlock op.index with
  | none => none
  | some lock =>
      (if op.exclusive then lock.wrlock tid else lock.rdlock tid).map fun taken =>
        { table with rwlock := Function.update table.rwlock op.index (some taken) }

/-- The last reader and every writer return the lock to the pool. -/
def release (table : HashTable Tid htsize) (op : Op htsize) (tid : Tid) : HashTable Tid htsize :=
  match table.rwlock op.index with
  | none => table
  | some lock =>
      let left := lock.release tid
      if op.exclusive = true ∨ left.cnt = 0 then
        ⟨Function.update table.rwlock op.index none, table.pool ++ [left]⟩
      else { table with rwlock := Function.update table.rwlock op.index (some left) }

end HashTable

/-- The places of a thread in one guarded operation. -/
inductive Pc where
  | outside
  | entered
  | waiting
  | locked
  | working
  | leaving
  | unlocking
  | unlocked
  deriving DecidableEq, Repr

/-- A thread runs its operations one after another. -/
structure Thread (htsize : Nat) where
  ops : List (Op htsize)
  pc : Pc

/-- The table mutex, the table and the threads form the state. -/
structure State (Tid : Type) (htsize : Nat) where
  mutex : Option Tid
  table : HashTable Tid htsize
  threads : Tid → Thread htsize

variable {Tid : Type} [DecidableEq Tid] {htsize : Nat}

/-- The thread moves to another place. -/
def State.goto (state : State Tid htsize) (tid : Tid) (pc : Pc) : State Tid htsize :=
  { state with threads := Function.update state.threads tid ⟨(state.threads tid).ops, pc⟩ }

/-- One step of a thread; the value `none` means that it is blocked or has finished. -/
def step (state : State Tid htsize) (tid : Tid) : Option (State Tid htsize) :=
  match (state.threads tid).ops, (state.threads tid).pc with
  | [], _ => none
  | _ :: _, .outside =>
      if state.mutex = none then some ({ state with mutex := some tid }.goto tid .entered) else none
  | op :: _, .entered =>
      some ({ state with table := state.table.ensureLock op.index }.goto tid .waiting)
  | op :: _, .waiting =>
      (state.table.acquire op tid).map fun table => { state with table := table }.goto tid .locked
  | _ :: _, .locked => some ({ state with mutex := none }.goto tid .working)
  | _ :: _, .working => some (state.goto tid .leaving)
  | _ :: _, .leaving =>
      if state.mutex = none then some ({ state with mutex := some tid }.goto tid .unlocking) else none
  | op :: _, .unlocking =>
      some ({ state with table := state.table.release op tid }.goto tid .unlocked)
  | _ :: rest, .unlocked =>
      some { state with
        mutex := none
        threads := Function.update state.threads tid ⟨rest, .outside⟩ }

/-- The table starts without locks and every thread at its first operation. -/
def start (workload : Tid → List (Op htsize)) : State Tid htsize :=
  ⟨none, ⟨fun _ => none, []⟩, fun tid => ⟨workload tid, .outside⟩⟩

/-- Some thread moves. -/
def Moves (state next : State Tid htsize) : Prop := ∃ tid, step state tid = some next

/-- A state is reachable when the threads can arrive there in some order of their steps. -/
def Reachable (workload : Tid → List (Op htsize)) (state : State Tid htsize) : Prop :=
  Relation.ReflTransGen Moves (start workload) state

/-- A thread is unfinished while it has operations left. -/
def Unfinished (state : State Tid htsize) (tid : Tid) : Prop := (state.threads tid).ops ≠ []

/-- Some thread is unfinished and every unfinished thread is blocked. -/
def Deadlock (state : State Tid htsize) : Prop :=
  (∃ tid, Unfinished state tid) ∧ ∀ tid, Unfinished state tid → step state tid = none

end SimpleNFast.Rdb.Locks
