/-
This file models how `Rdb::close` waits for the operations that run beside it.
-/

import Mathlib.Data.Finset.Card
import Mathlib.Logic.Function.Basic
import Mathlib.Tactic

namespace SimpleNFast.Rdb.Closing

/-- The places of one call of `get`, `set` or `remove`. -/
inductive OpPc where
  | start
  | incrementing
  | incremented
  | counted
  | guarded
  | decrementing
  | decremented
  | lingering
  | finished
  | aborted
  deriving DecidableEq, Repr

/-- The places of the call of `close`. -/
inductive ClosePc where
  | start
  | opened
  | checking
  | deletingValueFile
  | deletingKeyFile
  | deletingCache
  | deletingHashTable
  | deleted
  | tryAgain
  | closed
  deriving DecidableEq, Repr

/-- The mutexes belong to an operation or to `close`. -/
inductive Party (Tid : Type) where
  | op (tid : Tid)
  | close
  deriving DecidableEq, Repr

/-- The members of `Rdb` that the calls share and the place of each call. -/
structure State (Tid : Type) where
  opCount : Int
  opMutex : Option (Party Tid)
  openMutex : Option (Party Tid)
  isOpened : Bool
  hashTable : Bool
  ops : Tid → OpPc
  closing : ClosePc

variable {Tid : Type} [DecidableEq Tid]

def State.goto (state : State Tid) (tid : Tid) (pc : OpPc) : State Tid :=
  { state with ops := Function.update state.ops tid pc }

/-- One step of an operation; the wait for its bucket lock only delays a step. -/
def opStep (state : State Tid) (tid : Tid) : Option (State Tid) :=
  match state.ops tid with
  | .start =>
      if state.opMutex = none then
        some ({ state with opMutex := some (.op tid) }.goto tid .incrementing)
      else none
  | .incrementing => some ({ state with opCount := state.opCount + 1 }.goto tid .incremented)
  | .incremented => some ({ state with opMutex := none }.goto tid .counted)
  | .counted => some (state.goto tid (if state.hashTable then .guarded else .aborted))
  | .guarded =>
      if state.opMutex = none then
        some ({ state with opMutex := some (.op tid) }.goto tid .decrementing)
      else none
  | .decrementing => some ({ state with opCount := state.opCount - 1 }.goto tid .decremented)
  | .decremented => some ({ state with opMutex := none }.goto tid .lingering)
  | .lingering => some (state.goto tid .finished)
  | .finished => none
  | .aborted => none

/-- One step of `close`. -/
def closeStep (state : State Tid) : Option (State Tid) :=
  match state.closing with
  | .start =>
      if state.openMutex = none then
        some { state with openMutex := some .close, closing := .opened }
      else none
  | .opened =>
      if state.isOpened = false then some { state with openMutex := none, closing := .closed }
      else if state.opMutex = none then
        some { state with opMutex := some .close, closing := .checking }
      else none
  | .checking =>
      if 0 < state.opCount then
        some { state with openMutex := none, opMutex := none, closing := .tryAgain }
      else some { state with closing := .deletingValueFile }
  | .deletingValueFile => some { state with closing := .deletingKeyFile }
  | .deletingKeyFile => some { state with closing := .deletingCache }
  | .deletingCache => some { state with closing := .deletingHashTable }
  | .deletingHashTable => some { state with hashTable := false, isOpened := false, closing := .deleted }
  | .deleted => some { state with openMutex := none, opMutex := none, closing := .closed }
  | .tryAgain => none
  | .closed => none

/-- The database is open and no call has begun. -/
def start : State Tid := ⟨0, none, none, true, true, fun _ => .start, .start⟩

/-- An operation or `close` moves. -/
def Moves (state next : State Tid) : Prop :=
  (∃ tid, opStep state tid = some next) ∨ closeStep state = some next

def Reachable (state : State Tid) : Prop := Relation.ReflTransGen Moves start state

/-- The call of `close` found no operation and deletes the members. -/
def ClosePc.deletes : ClosePc → Bool
  | .deletingValueFile | .deletingKeyFile | .deletingCache | .deletingHashTable => true
  | _ => false

/-- The operation holds its guard at these places. -/
def OpPc.holdsGuard : OpPc → Bool
  | .guarded | .decrementing | .decremented | .lingering => true
  | _ => false

/-- The operation stands between its increment and its decrement at these places; an aborted one
never reaches its decrement. -/
def OpPc.between : OpPc → Bool
  | .incremented | .counted | .guarded | .decrementing | .aborted => true
  | _ => false

/-- The next step of the operation uses the hash table. -/
def Dereferences (state : State Tid) (tid : Tid) : Prop :=
  (state.ops tid = .counted ∧ state.hashTable = true) ∨ state.ops tid = .guarded ∨
    state.ops tid = .lingering

/-- No operation holds a guard, is counted, or will use the hash table later. -/
def Safe (state : State Tid) : Prop :=
  ∀ tid, (state.ops tid).holdsGuard = false ∧ (state.ops tid).between = false ∧
    ∀ later, Relation.ReflTransGen Moves state later → ¬ Dereferences later tid

end SimpleNFast.Rdb.Closing
