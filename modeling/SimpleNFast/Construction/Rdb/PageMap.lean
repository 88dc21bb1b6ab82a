/-
This file states what a key page is for, a finite map from keys to offsets of values, and when its tree is balanced.
-/

import SimpleNFast.Construction.Rdb.DbStruct

namespace SimpleNFast.Rdb

/-- A key page changes by insertions and removals. -/
inductive PageOp where
  | put (key : Bytes) (voff : Off)
  | remove (key : Bytes)
  deriving DecidableEq, Repr

/-- One operation changes the page and drops the index that it returns. -/
def PageOp.apply (page : KeyPage) : PageOp → KeyPage
  | put key voff => (page.put key voff).1
  | remove key => (page.remove key).1

/-- A sequence of operations starts from an empty page. -/
def pageAfter (kpSize : Nat) (ops : List PageOp) : KeyPage :=
  ops.foldl PageOp.apply (KeyPage.init kpSize)

/-- The calls on a key page. -/
inductive PageCall where
  | put (key : Bytes) (voff : Off)
  | get (key : Bytes)
  | remove (key : Bytes)
  deriving DecidableEq, Repr

namespace PageCall

/-- A call returns the page after it and the index of a record. -/
def run (page : KeyPage) : PageCall → KeyPage × Slot
  | .put key voff => page.put key voff
  | .get key => (page, page.get key)
  | .remove key => page.remove key

/-- A record is put only while the page counts fewer records than it has. -/
def allowed (page : KeyPage) : PageCall → Prop
  | .put _ _ => page.vcount < page.keys.length
  | _ => True

instance (page : KeyPage) (call : PageCall) : Decidable (call.allowed page) := by
  cases call <;> unfold allowed <;> infer_instance

end PageCall

abbrev OffMap := Bytes → Option Off

/-- The map after a call. -/
def OffMap.after (map : OffMap) : PageCall → OffMap
  | .put key voff => Function.update map key (some voff)
  | .get _ => map
  | .remove key => Function.update map key none

/-- The states of a page and of the map that it stands for after the calls so far. -/
inductive PageRun (kpSize : Nat) : KeyPage → OffMap → Prop where
  | init : PageRun kpSize (KeyPage.init kpSize) fun _ => none
  | call {page : KeyPage} {map : OffMap} (before : PageRun kpSize page map) (call : PageCall)
      (allowed : call.allowed page) : PageRun kpSize (call.run page).1 (map.after call)

/-- The slots that are reached from a slot, in the order of the tree. -/
inductive Reached (page : KeyPage) : Slot → List Nat → Prop where
  | nil : Reached page none []
  | node {index : Nat} {lower upper : List Nat} (inside : index < page.keys.length)
      (left : Reached page (page.leftOf (some index)) lower)
      (right : Reached page (page.rightOf (some index)) upper) :
      Reached page (some index) (lower ++ index :: upper)

/-- The slots in use form one search tree, in which no slot is reached twice. -/
structure IsSearchTree (page : KeyPage) (order : List Nat) : Prop where
  reached : Reached page page.root order
  distinct : order.Nodup
  inuse : ∀ index, index ∈ order ↔ index < page.keys.length ∧ (page.krec (some index)).flags = .inuse
  ascending : order.Pairwise fun first second =>
    keycmp (page.krec (some first)).key (page.krec (some second)).key = .lt

/-- A slot holds a key with its offset. -/
def KeyPage.HoldsAt (page : KeyPage) (slot : Slot) (key : Bytes) (voff : Off) : Prop :=
  ∃ index, slot = some index ∧ index < page.keys.length ∧ (page.krec slot).flags = .inuse ∧
    (page.krec slot).key = key ∧ (page.krec slot).voff = voff

/-- A page is a finite map. -/
structure IsPageMap (capacity : Nat) (page : KeyPage) (map : OffMap) : Prop where
  length : page.keys.length = capacity
  tree : ∃ order, IsSearchTree page order ∧ page.vcount = order.length
  freeCount : (page.getFreeCount : Int) = capacity - page.vcount
  absent : ∀ key, page.get key = none ↔ map key = none
  present : ∀ key voff, map key = some voff → page.HoldsAt (page.get key) key voff
  placed : ∀ key voff, page.vcount < capacity → (page.put key voff).1.HoldsAt (page.put key voff).2 key voff

/-- The tree at a slot has this height, its records store their heights, and no two subtrees differ by two. -/
inductive Balanced (page : KeyPage) : Slot → Nat → Prop where
  | nil : Balanced page none 0
  | node {index left right : Nat} (leftPart : Balanced page (page.leftOf (some index)) left)
      (rightPart : Balanced page (page.rightOf (some index)) right)
      (stored : (page.krec (some index)).height = 1 + max left right) (closeLeft : left ≤ right + 1)
      (closeRight : right ≤ left + 1) : Balanced page (some index) (1 + max left right)

def KeyPage.IsBalanced (page : KeyPage) : Prop := ∃ height, Balanced page page.root height

/-- A subtree keeps its height or is lower by one, or two of its heights differ by two and no rotation fits. -/
inductive Effect where
  | kept
  | lowered
  | stuck
  deriving DecidableEq, Repr

/-- The effect on a node follows from the effect on its child. -/
def Effect.over (child node : Effect) : Effect := if child = .lowered then node else child

namespace KeyPage

/-- The left child becomes lower; a right child that leans neither way has no rotation. -/
def leftLowered (page : KeyPage) (slot : Slot) : Effect :=
  if page.balanceFactor slot = 1 then .lowered
  else if page.balanceFactor slot = 0 then .kept
  else if page.balanceFactor (page.rightOf slot) = 0 then .stuck
  else .lowered

/-- The right child becomes lower; a left child that leans neither way has no rotation. -/
def rightLowered (page : KeyPage) (slot : Slot) : Effect :=
  if page.balanceFactor slot = -1 then .lowered
  else if page.balanceFactor slot = 0 then .kept
  else if page.balanceFactor (page.leftOf slot) = 0 then .stuck
  else .lowered

/-- The way of `removeMax`. -/
def maxEffect : Nat → KeyPage → Slot → Effect
  | 0, _, _ => .kept
  | _ + 1, _, none => .kept
  | fuel + 1, page, some index =>
      match page.rightOf (some index) with
      | none => .lowered
      | some next => (maxEffect fuel page (some next)).over (page.rightLowered (some index))

/-- The way of `remove`. -/
def removeEffect : Nat → KeyPage → Slot → Bytes → Effect
  | 0, _, _, _ => .kept
  | _ + 1, _, none, _ => .kept
  | fuel + 1, page, some index, key =>
      match keycmp key (page.krec (some index)).key with
      | .lt => (removeEffect fuel page (page.leftOf (some index)) key).over (page.leftLowered (some index))
      | .eq =>
          match page.leftOf (some index), page.rightOf (some index) with
          | none, _ => .lowered
          | _, none => .lowered
          | left, _ => (maxEffect fuel page left).over (page.leftLowered (some index))
      | .gt => (removeEffect fuel page (page.rightOf (some index)) key).over (page.rightLowered (some index))

end KeyPage

/-- A removal meets a node that it cannot balance. -/
def PageOp.Stuck (page : KeyPage) : PageOp → Prop
  | .put _ _ => False
  | .remove key => page.removeEffect page.depthBound page.root key = .stuck

instance (page : KeyPage) (op : PageOp) : Decidable (op.Stuck page) := by
  cases op <;> unfold PageOp.Stuck <;> infer_instance

end SimpleNFast.Rdb
