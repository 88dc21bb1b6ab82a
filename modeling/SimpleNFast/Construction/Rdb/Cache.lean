/-
This file models the page pool of `pagemgr.cpp` and the LRU cache of `cache.cpp`, and states what the cache is for: a
list of pages in the order of their last use.
-/

import SimpleNFast.Construction.Rdb.DbFiles
import SimpleNFast.Library.LinkedList

namespace SimpleNFast.Rdb
open Program

namespace PageMgr

/-- The pool hands out the top of its stack and keeps the next unused page below it. -/
def get : Call (Option Nat) := do
  let stack ← reads World.nextFreePage
  let free ← reads World.numOfFreePages
  match stack with
  | [] => pure none
  | addr :: rest =>
      if free = 0 then pure none
      else do
        modifies fun world =>
          { world with
            pages := Function.update world.pages addr (KeyPage.zero world.kpSize)
            numOfFreePages := world.numOfFreePages - 1
            nextFreePage :=
              if rest = [] ∧ (addr + 1) * world.kpSize < world.poolSize then [addr + 1] else rest }
        pure (some addr)

/-- A page of the pool goes back on the stack. -/
def free (addr : Nat) : Call Unit := do
  let kpSize ← reads World.kpSize
  let poolSize ← reads World.poolSize
  assert (decide (addr * kpSize < poolSize))
  modifies fun world =>
    { world with
      nextFreePage := addr :: world.nextFreePage
      numOfFreePages := world.numOfFreePages + 1 }

end PageMgr

namespace LRUCache

def setNode (id : Nat) (change : KeyPageNode → KeyPageNode) : Call Unit :=
  modifies fun world =>
    { world with nodes := Function.update world.nodes id (change (world.nodes id)) }

def setCNode (id : Nat) (change : CNode → CNode) : Call Unit :=
  modifies fun world =>
    { world with cnodes := Function.update world.cnodes id (change (world.cnodes id)) }

/-- The page that `removeLast` would evict. -/
def lastPage (world : World) : Eviction :=
  match world.tail with
  | none => ⟨none, false, false, false⟩
  | some cn =>
      match (world.cnodes cn).kpn with
      | none => ⟨none, false, false, false⟩
      | some kpn =>
          match (world.nodes kpn).kp, (world.nodes kpn).kpoff with
          | some addr, some offset =>
              ⟨some (world.pages addr).hash, (world.cnodes cn).next == none,
                (world.nodes kpn).prev == none && (world.nodes kpn).next == none,
                world.idx[offset / world.kpSize]? == some (world.pages addr)⟩
          | _, _ => ⟨none, false, false, false⟩

/-- The key page node of an evicted cache node loses its page and its offset. -/
def detach (cn : Nat) : Call Unit := do
  let kpn ← reads fun world => (world.cnodes cn).kpn
  match kpn with
  | none => pure ()
  | some id => do
      let kp ← reads fun world => (world.nodes id).kp
      match kp with
      | none => pure ()
      | some addr => PageMgr.free addr
      setNode id fun node => { node with kp := none, kpoff := none, cnode := none }
      setCNode cn fun cnode => { cnode with kpn := none }

/-- The tail leaves the list together with its page. -/
def removeLast : Call (Option Nat) := do
  reports lastPage
  let tail ← reads World.tail
  match tail with
  | none => pure none
  | some cn => do
      let prev ← reads fun world => (world.cnodes cn).prev
      match prev with
      | some before => do
          setCNode before fun cnode => { cnode with next := none }
          modifies fun world => { world with tail := some before }
      | none => modifies fun world => { world with head := none, tail := none }
      detach cn
      setCNode cn fun cnode => { cnode with prev := none, next := none }
      modifies fun world => { world with num := world.num - 1 }
      pure (some cn)

/-- A full cache reuses its last node. -/
def getCacheNode : Call (Option Nat) := do
  let num ← reads World.num
  let max ← reads World.max
  if num ≥ max then removeLast
  else do
    let cn ← reads World.cnodeCount
    modifies fun world =>
      { world with
        cnodeCount := cn + 1
        cnodes := Function.update world.cnodes cn ⟨none, none, none⟩ }
    pure (some cn)

/-- A cache node enters at the head. -/
def add (cn : Nat) : Call Unit := do
  let head ← reads World.head
  setCNode cn fun cnode => { cnode with prev := none, next := head }
  match head with
  | some first => setCNode first fun cnode => { cnode with prev := some cn }
  | none => modifies fun world => { world with tail := some cn }
  modifies fun world => { world with head := some cn, num := world.num + 1 }

/-- A cache node leaves the list; the number of nodes stays as it is. -/
def freeCNode (cn : Nat) : Call Unit := do
  let node ← reads fun world => world.cnodes cn
  match node.prev with
  | some before => setCNode before fun cnode => { cnode with next := node.next }
  | none => do
      modifies fun world => { world with head := node.next }
      match node.next with
      | some first => setCNode first fun cnode => { cnode with prev := none }
      | none => pure ()
  let node ← reads fun world => world.cnodes cn
  match node.next with
  | some after => setCNode after fun cnode => { cnode with prev := node.prev }
  | none => do
      modifies fun world => { world with tail := node.prev }
      match node.prev with
      | some last => setCNode last fun cnode => { cnode with next := none }
      | none => pure ()

/-- A page of the pool is filled from the file unless the offset is -1. -/
def getPage (fails : Failures) (offset : Off) : Call (Code × Option Nat) := do
  let kp ← PageMgr.get
  match kp, offset with
  | none, _ => pure (.E_no_memory, none)
  | some addr, none => pure (.E_ok, some addr)
  | some addr, some place => do
      let read ← KeyFile.read fails (some place)
      match read with
      | .ok page => do
          modifies fun world => { world with pages := Function.update world.pages addr page }
          pure (.E_ok, some addr)
      | .error code => do
          PageMgr.free addr
          pure (code, some addr)

/-- A loaded page, its node and its cache node point to each other. -/
def attach (kpn cn addr : Nat) (offset : Off) : Call Unit := do
  setNode kpn fun _ => ⟨some addr, offset, some cn, none, none⟩
  setCNode cn fun cnode => { cnode with kpn := some kpn }
  add cn

/-- A new key page node with its page. -/
def get (fails : Failures) (offset : Off) : Call (Code × Nat) := do
  let cnode ← getCacheNode
  match cnode with
  | none => pure (.E_no_memory, 0)
  | some cn => do
      let kpn ← reads World.nodeCount
      modifies fun world => { world with nodeCount := kpn + 1 }
      let page ← getPage fails offset
      match page with
      | (.E_ok, some addr) => do
          attach kpn cn addr offset
          pure (.E_ok, kpn)
      | (code, _) => pure (code, kpn)

/-- A key page node without a page gets it again and loses its links. -/
def update (fails : Failures) (kpn : Nat) (offset : Off) : Call Code := do
  let cnode ← getCacheNode
  match cnode with
  | none => pure .E_no_memory
  | some cn => do
      let page ← getPage fails offset
      match page with
      | (.E_ok, some addr) => do
          attach kpn cn addr offset
          pure .E_ok
      | (code, _) => pure code

/-- A used node moves to the head; the tail pointer stays as it is. -/
def touch (kpn : Nat) : Call Unit := do
  let node ← reads fun world => world.nodes kpn
  match node.kp, node.cnode with
  | some _, some cn => do
      let cnode ← reads fun world => world.cnodes cn
      match cnode.prev with
      | none => pure ()
      | some before => do
          setCNode before fun other => { other with next := cnode.next }
          match cnode.next with
          | some after => setCNode after fun other => { other with prev := some before }
          | none => pure ()
          let head ← reads World.head
          setCNode cn fun other => { other with prev := none, next := head }
          match head with
          | none => stops .crashed
          | some first => do
              setCNode first fun other => { other with prev := some cn }
              modifies fun world => { world with head := some cn }
  | _, _ => pure ()

/-- A key page node leaves the cache with its page. -/
def free (kpn : Nat) : Call Unit := do
  let node ← reads fun world => world.nodes kpn
  match node.cnode with
  | none => pure ()
  | some cn => do
      freeCNode cn
      match node.kp with
      | some addr => PageMgr.free addr
      | none => pure ()
      setNode kpn fun other => { other with kp := none, kpoff := none, cnode := none }

end LRUCache

open LinkedList

/-- The calls on the cache. -/
inductive CacheCall where
  | get (fails : Failures) (offset : Off)
  | update (fails : Failures) (node : Nat) (offset : Off)
  | touch (node : Nat)
  | free (node : Nat)

/-- The nodes that are valid are those that were returned and not freed; a clock tells when each was used. -/
structure CacheState where
  world : World
  valid : List Nat
  lastUse : Nat → Nat
  clock : Nat

namespace CacheCall

def valid (state : CacheState) : CacheCall → Prop
  | .get _ _ => True
  | .update _ node _ => node ∈ state.valid
  | .touch node => node ∈ state.valid
  | .free node => node ∈ state.valid

/-- A call returns the node that it has used. -/
def perform : CacheCall → Call (Option Nat)
  | .get fails offset => do
      let (code, node) ← LRUCache.get fails offset
      pure (if code = .E_ok then some node else none)
  | .update fails node offset => do
      let code ← LRUCache.update fails node offset
      pure (if code = .E_ok then some node else none)
  | .touch node => do
      LRUCache.touch node
      pure (some node)
  | .free node => do
      LRUCache.free node
      pure none

/-- The valid nodes after a call; a node without a cache node is not freed. -/
def validAfter (state : CacheState) (used : Option Nat) : CacheCall → List Nat
  | .get _ _ => used.toList ++ state.valid
  | .free node => if (state.world.nodes node).cnode = none then state.valid else state.valid.filter (· ≠ node)
  | _ => state.valid

end CacheCall

def CacheState.after (state : CacheState) (call : CacheCall) (used : Option Nat) (world : World) : CacheState where
  world := world
  valid := call.validAfter state used
  lastUse := used.elim state.lastUse fun node => Function.update state.lastUse node (state.clock + 1)
  clock := state.clock + 1

/-- A new cache has no nodes. -/
structure NewCache (world : World) : Prop where
  num : world.num = 0
  head : world.head = none
  tail : world.tail = none
  max : 1 ≤ world.max
  nodes : ∀ node, (world.nodes node).cnode = none

/-- The states after allowed calls on valid nodes. -/
inductive CacheRun (allowed : CacheState → CacheCall → Prop) : CacheState → Prop where
  | new {world : World} (new : NewCache world) : CacheRun allowed ⟨world, [], fun _ => 0, 0⟩
  | call {state : CacheState} (before : CacheRun allowed state) {call : CacheCall} (valid : call.valid state)
      (meant : allowed state call) {used : Option Nat} {world : World}
      (ran : (call.perform state.world).result = .ok (used, world)) : CacheRun allowed (state.after call used world)

/-- The cache nodes stand in a list with both links, the most recently used one first. -/
structure IsLruList (state : CacheState) (list : List Nat) : Prop where
  head : state.world.head = list.head?
  tail : state.world.tail = list.getLast?
  joined : Joined id (fun cid => (state.world.cnodes cid).prev) (fun cid => (state.world.cnodes cid).next) none none list
  distinct : list.Nodup
  num : state.world.num = list.length
  bounded : state.world.num ≤ state.world.max
  owned : ∀ cid ∈ list, ∃ node ∈ state.valid,
    (state.world.cnodes cid).kpn = some node ∧ (state.world.nodes node).cnode = some cid
  recent : list.Pairwise fun first second => ∀ one two, (state.world.cnodes first).kpn = some one →
    (state.world.cnodes second).kpn = some two → state.lastUse two < state.lastUse one

/-- The node that was not used for the longest time loses its page, and all other nodes stay. -/
def GivesUpOldest (state : CacheState) (later : World) : Prop :=
  ∃ victim ∈ state.valid, (state.world.nodes victim).cnode ≠ none ∧ (later.nodes victim).kp = none ∧
    ∀ other ∈ state.valid, other ≠ victim → later.nodes other = state.world.nodes other ∧
      ((state.world.nodes other).cnode ≠ none → state.lastUse victim < state.lastUse other)

/-- A call that needs a place in a full cache takes it from the node that was not used for the longest time. -/
def EvictsOldest (state : CacheState) : Prop :=
  state.world.max ≤ state.world.num → ∀ fails offset reply later,
    (LRUCache.get fails offset state.world).result = .ok (reply, later) → GivesUpOldest state later

/-- The calls that keep the list: a cached node is not freed, the last of several nodes is not touched, and a node is
updated when it is not cached or gives up its place in a full cache. -/
def KeepsList (state : CacheState) : CacheCall → Prop
  | .get _ _ => True
  | .update _ node _ => ∀ cid, (state.world.nodes node).cnode = some cid →
      state.world.max ≤ state.world.num ∧ state.world.tail = some cid
  | .touch node => ∀ cid, (state.world.nodes node).cnode = some cid → (state.world.nodes node).kp ≠ none →
      state.world.tail = some cid → state.world.head = some cid
  | .free node => (state.world.nodes node).cnode = none

end SimpleNFast.Rdb
