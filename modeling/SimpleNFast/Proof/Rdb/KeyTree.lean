import SimpleNFast.Proof.Rdb.StoredHeight

namespace SimpleNFast.Rdb
open BinaryTree

/-- One record of the tree with the slot that stores it. -/
structure Cell where
  slot : Nat
  key : Bytes
  voff : Off
  deriving DecidableEq, Repr

/-- The root link of a tree is the slot of its first cell. -/
def rootSlot : BinaryTree Cell → Slot
  | .nil => none
  | .node cell _ _ => some cell.slot

@[simp] theorem rootSlot_nil : rootSlot .nil = none := rfl

@[simp] theorem rootSlot_node (cell : Cell) (left right : BinaryTree Cell) :
    rootSlot (.node cell left right) = some cell.slot := rfl

/-- The slots of a tree in the order of its cells. -/
def slots (tree : BinaryTree Cell) : List Nat := tree.toList.map Cell.slot

@[simp] theorem slots_nil : slots .nil = [] := rfl

@[simp] theorem slots_node (cell : Cell) (left right : BinaryTree Cell) :
    slots (.node cell left right) = slots left ++ cell.slot :: slots right := by
  simp [slots]

theorem length_slots (tree : BinaryTree Cell) : (slots tree).length = tree.numNodes := by
  rw [slots, List.length_map, length_toList]

theorem slots_balanceTree (tree : BinaryTree Cell) : slots (balanceTree tree) = slots tree := by
  rw [slots, toList_balanceTree, slots]

/-- The record of a cell up to its stored height. -/
def Linked (keys : List KeyRec) (cell : Cell) (left right : Slot) : Prop :=
  ∃ height, keys[cell.slot]? = some ⟨.inuse, height, left, right, cell.key, cell.voff⟩

theorem Linked.congr {keys next : List KeyRec} {cell : Cell} {left right : Slot}
    (linked : Linked keys cell left right) (same : next[cell.slot]? = keys[cell.slot]?) :
    Linked next cell left right := by
  obtain ⟨height, read⟩ := linked
  exact ⟨height, same.trans read⟩

/-- The record array stores every cell of the tree with its links and its height. -/
def Holds (keys : List KeyRec) : BinaryTree Cell → Prop
  | .nil => True
  | .node cell left right =>
      keys[cell.slot]? = some ⟨.inuse, storedHeight (.node cell left right),
        rootSlot left, rootSlot right, cell.key, cell.voff⟩ ∧
      Holds keys left ∧ Holds keys right

theorem Holds.linked {keys : List KeyRec} {cell : Cell} {left right : BinaryTree Cell}
    (held : Holds keys (.node cell left right)) :
    Linked keys cell (rootSlot left) (rootSlot right) := ⟨_, held.1⟩

/-- The representation reads only the slots of the tree. -/
theorem Holds.congr {keys next : List KeyRec} {tree : BinaryTree Cell} (held : Holds keys tree)
    (same : ∀ index ∈ slots tree, next[index]? = keys[index]?) : Holds next tree := by
  induction tree with
  | nil => trivial
  | node cell left right leftCongr rightCongr =>
      obtain ⟨root, leftHeld, rightHeld⟩ := held
      refine ⟨(same cell.slot (by simp)).trans root, leftCongr leftHeld ?_,
        rightCongr rightHeld ?_⟩
      · intro index member
        exact same index (by simp [member])
      · intro index member
        exact same index (by simp [member])

/-- A cell of the tree stands in its slot as a record in use. -/
theorem Holds.record {keys : List KeyRec} {tree : BinaryTree Cell} (held : Holds keys tree)
    {cell : Cell} (member : cell ∈ tree.toList) :
    ∃ record, keys[cell.slot]? = some record ∧ record.flags = .inuse ∧
      record.key = cell.key ∧ record.voff = cell.voff := by
  induction tree with
  | nil => simp at member
  | node value left right leftRecord rightRecord =>
      simp only [toList_node, List.mem_append, List.mem_cons] at member
      rcases member with inside | same | inside
      · exact leftRecord held.2.1 inside
      · subst same
        exact ⟨_, held.1, rfl, rfl, rfl⟩
      · exact rightRecord held.2.2 inside

/-- A change keeps the header and every record outside the named slots. -/
structure Frame (changed : List Nat) (page next : KeyPage) : Prop where
  flags : next.flags = page.flags
  root : next.root = page.root
  hash : next.hash = page.hash
  poff : next.poff = page.poff
  noff : next.noff = page.noff
  length : next.keys.length = page.keys.length
  outside : ∀ index, index ∉ changed → next.keys[index]? = page.keys[index]?

theorem Frame.refl (changed : List Nat) (page : KeyPage) : Frame changed page page :=
  ⟨rfl, rfl, rfl, rfl, rfl, rfl, fun _ _ => rfl⟩

theorem Frame.trans {first second third : KeyPage} {changed : List Nat}
    (before : Frame changed first second) (after : Frame changed second third) :
    Frame changed first third where
  flags := after.flags.trans before.flags
  root := after.root.trans before.root
  hash := after.hash.trans before.hash
  poff := after.poff.trans before.poff
  noff := after.noff.trans before.noff
  length := after.length.trans before.length
  outside index fresh := (after.outside index fresh).trans (before.outside index fresh)

theorem Frame.mono {page next : KeyPage} {changed more : List Nat}
    (frame : Frame changed page next) (subset : changed ⊆ more) : Frame more page next :=
  { frame with outside := fun index fresh => frame.outside index fun member => fresh (subset member) }

theorem Frame.linked {page next : KeyPage} {changed : List Nat} {cell : Cell} {left right : Slot}
    (frame : Frame changed page next) (linked : Linked page.keys cell left right)
    (fresh : cell.slot ∉ changed) : Linked next.keys cell left right :=
  linked.congr (frame.outside cell.slot fresh)

theorem Frame.holds {page next : KeyPage} {changed : List Nat} {tree : BinaryTree Cell}
    (frame : Frame changed page next) (held : Holds page.keys tree)
    (disjoint : ∀ index ∈ slots tree, index ∉ changed) : Holds next.keys tree :=
  held.congr fun index member => frame.outside index (disjoint index member)

namespace KeyPage

theorem krec_some {page : KeyPage} {index : Nat} {record : KeyRec}
    (read : page.keys[index]? = some record) : page.krec (some index) = record := by
  simp [krec, List.getD_eq_getElem?_getD, read]

theorem getElem?_setRec (page : KeyPage) (index other : Nat) (change : KeyRec → KeyRec) :
    (page.setRec (some index) change).keys[other]? =
      if index = other then (page.keys[other]?).map change else page.keys[other]? := by
  simp only [setRec, List.getElem?_modify]
  split <;> simp

theorem setRec_frame (page : KeyPage) (index : Nat) (change : KeyRec → KeyRec) :
    Frame [index] page (page.setRec (some index) change) where
  flags := rfl
  root := rfl
  hash := rfl
  poff := rfl
  noff := rfl
  length := by simp [setRec]
  outside other fresh := by
    rw [getElem?_setRec, if_neg]
    intro same
    exact fresh (by simp [same])

/-- The height of a represented child is its stored height. -/
theorem heightOf_root {page : KeyPage} {tree : BinaryTree Cell} (held : Holds page.keys tree) :
    page.heightOf (rootSlot tree) = storedHeight tree := by
  cases tree with
  | nil => rfl
  | node cell left right => simp [rootSlot, heightOf, krec_some held.1]

theorem leftOf_linked {page : KeyPage} {cell : Cell} {left right : Slot}
    (linked : Linked page.keys cell left right) : page.leftOf (some cell.slot) = left := by
  obtain ⟨height, read⟩ := linked
  simp [leftOf, krec_some read]

theorem rightOf_linked {page : KeyPage} {cell : Cell} {left right : Slot}
    (linked : Linked page.keys cell left right) : page.rightOf (some cell.slot) = right := by
  obtain ⟨height, read⟩ := linked
  simp [rightOf, krec_some read]

theorem key_linked {page : KeyPage} {cell : Cell} {left right : Slot}
    (linked : Linked page.keys cell left right) :
    (page.krec (some cell.slot)).key = cell.key := by
  obtain ⟨height, read⟩ := linked
  simp [krec_some read]

/-- A new left link changes only its record. -/
theorem setLeft_linked {page : KeyPage} {cell : Cell} {left right : Slot} (child : Slot)
    (linked : Linked page.keys cell left right) :
    Linked (page.setLeft (some cell.slot) child).keys cell child right := by
  obtain ⟨height, read⟩ := linked
  exact ⟨height, by simp [setLeft, getElem?_setRec, read]⟩

/-- A new right link changes only its record. -/
theorem setRight_linked {page : KeyPage} {cell : Cell} {left right : Slot} (child : Slot)
    (linked : Linked page.keys cell left right) :
    Linked (page.setRight (some cell.slot) child).keys cell left child := by
  obtain ⟨height, read⟩ := linked
  exact ⟨height, by simp [setRight, getElem?_setRec, read]⟩

theorem height_frame (page : KeyPage) (index : Nat) :
    Frame [index] page (page.height (some index)) := setRec_frame page index _

@[simp] theorem height_vcount (page : KeyPage) (slot : Slot) :
    (page.height slot).vcount = page.vcount := by
  cases slot <;> rfl

@[simp] theorem setLeft_vcount (page : KeyPage) (slot child : Slot) :
    (page.setLeft slot child).vcount = page.vcount := by
  cases slot <;> rfl

@[simp] theorem setRight_vcount (page : KeyPage) (slot child : Slot) :
    (page.setRight slot child).vcount = page.vcount := by
  cases slot <;> rfl

theorem setLeft_frame (page : KeyPage) (index : Nat) (child : Slot) :
    Frame [index] page (page.setLeft (some index) child) := setRec_frame page index _

theorem setRight_frame (page : KeyPage) (index : Nat) (child : Slot) :
    Frame [index] page (page.setRight (some index) child) := setRec_frame page index _

/-- The stored height completes the representation of a linked root. -/
theorem height_holds {page : KeyPage} {cell : Cell} {left right : BinaryTree Cell}
    (linked : Linked page.keys cell (rootSlot left) (rootSlot right))
    (leftHeld : Holds page.keys left) (rightHeld : Holds page.keys right)
    (distinct : (slots (.node cell left right)).Nodup) :
    Holds (page.height (some cell.slot)).keys (.node cell left right) := by
  have frame := height_frame page cell.slot
  simp only [slots_node, List.nodup_append, List.nodup_cons, List.mem_cons, forall_eq_or_imp,
    ne_eq] at distinct
  refine ⟨?_, frame.holds leftHeld ?_, frame.holds rightHeld ?_⟩
  · obtain ⟨old, read⟩ := linked
    have leftLink : page.leftOf (some cell.slot) = rootSlot left := leftOf_linked ⟨old, read⟩
    have rightLink : page.rightOf (some cell.slot) = rootSlot right := rightOf_linked ⟨old, read⟩
    simp only [height, getElem?_setRec, if_true, read, Option.map_some, leftLink, rightLink,
      heightOf_root leftHeld, heightOf_root rightHeld, storedHeight]
  · intro index member same
    exact (distinct.2.2 index member).1 (by simpa using same)
  · intro index member same
    have equal : index = cell.slot := by simpa using same
    exact distinct.2.1.1 (equal ▸ member)

end KeyPage

/-- The result represents the tree and changes only the named slots. -/
structure Settles (changed : List Nat) (page : KeyPage) (result : KeyPage × Slot)
    (tree : BinaryTree Cell) : Prop where
  root : result.2 = rootSlot tree
  held : Holds result.1.keys tree
  frame : Frame changed page result.1
  vcount : result.1.vcount = page.vcount

namespace KeyPage

/-- A left rotation of the records is a left rotation of the tree. -/
theorem rotateLeft_settles {page : KeyPage} {cell pivot : Cell}
    {left inner right : BinaryTree Cell}
    (linked : Linked page.keys cell (rootSlot left) (some pivot.slot))
    (pivotLinked : Linked page.keys pivot (rootSlot inner) (rootSlot right))
    (leftHeld : Holds page.keys left) (innerHeld : Holds page.keys inner)
    (rightHeld : Holds page.keys right)
    (distinct : (slots (.node cell left (.node pivot inner right))).Nodup) :
    Settles [cell.slot, pivot.slot] page (page.rotateLeft (some cell.slot))
      (.node pivot (.node cell left inner) right) := by
  have apart := distinct
  simp only [slots_node, List.nodup_append, List.nodup_cons, List.mem_append, List.mem_cons,
    ne_eq] at apart
  let first := page.setRight (some cell.slot) (rootSlot inner)
  let second := first.setLeft (some pivot.slot) (some cell.slot)
  let third := second.height (some cell.slot)
  have shape : page.rotateLeft (some cell.slot) =
      (third.height (some pivot.slot), some pivot.slot) := by
    simp only [rotateLeft, rightOf_linked linked, leftOf_linked pivotLinked]
    rfl
  have firstFrame : Frame [cell.slot, pivot.slot] page first :=
    (setRight_frame page cell.slot _).mono (by simp)
  have secondFrame : Frame [cell.slot, pivot.slot] page second :=
    firstFrame.trans ((setLeft_frame first pivot.slot _).mono (by simp))
  have thirdFrame : Frame [cell.slot, pivot.slot] page third :=
    secondFrame.trans ((height_frame second cell.slot).mono (by simp))
  have cellLinked : Linked second.keys cell (rootSlot left) (rootSlot inner) :=
    (setLeft_frame first pivot.slot _).linked (setRight_linked _ linked) (by grind)
  have pivotSecond : Linked second.keys pivot (some cell.slot) (rootSlot right) :=
    setLeft_linked _ ((setRight_frame page cell.slot _).linked pivotLinked (by grind))
  have lowered : Holds third.keys (.node cell left inner) :=
    height_holds cellLinked (secondFrame.holds leftHeld (by grind))
      (secondFrame.holds innerHeld (by grind)) (by
        simp only [slots_node, List.nodup_append, List.nodup_cons]
        grind)
  have pivotThird : Linked third.keys pivot (some cell.slot) (rootSlot right) :=
    (height_frame second cell.slot).linked pivotSecond (by grind)
  rw [shape]
  exact ⟨rfl, height_holds pivotThird lowered (thirdFrame.holds rightHeld (by grind)) (by
      simp only [slots_node, List.nodup_append, List.nodup_cons]
      grind),
    thirdFrame.trans ((height_frame third pivot.slot).mono (by simp)), rfl⟩

/-- A right rotation of the records is a right rotation of the tree. -/
theorem rotateRight_settles {page : KeyPage} {cell pivot : Cell}
    {left inner right : BinaryTree Cell}
    (linked : Linked page.keys cell (some pivot.slot) (rootSlot right))
    (pivotLinked : Linked page.keys pivot (rootSlot left) (rootSlot inner))
    (leftHeld : Holds page.keys left) (innerHeld : Holds page.keys inner)
    (rightHeld : Holds page.keys right)
    (distinct : (slots (.node cell (.node pivot left inner) right)).Nodup) :
    Settles [cell.slot, pivot.slot] page (page.rotateRight (some cell.slot))
      (.node pivot left (.node cell inner right)) := by
  have apart := distinct
  simp only [slots_node, List.nodup_append, List.nodup_cons, List.mem_append, List.mem_cons,
    ne_eq] at apart
  let first := page.setLeft (some cell.slot) (rootSlot inner)
  let second := first.setRight (some pivot.slot) (some cell.slot)
  let third := second.height (some cell.slot)
  have shape : page.rotateRight (some cell.slot) =
      (third.height (some pivot.slot), some pivot.slot) := by
    simp only [rotateRight, leftOf_linked linked, rightOf_linked pivotLinked]
    rfl
  have firstFrame : Frame [cell.slot, pivot.slot] page first :=
    (setLeft_frame page cell.slot _).mono (by simp)
  have secondFrame : Frame [cell.slot, pivot.slot] page second :=
    firstFrame.trans ((setRight_frame first pivot.slot _).mono (by simp))
  have thirdFrame : Frame [cell.slot, pivot.slot] page third :=
    secondFrame.trans ((height_frame second cell.slot).mono (by simp))
  have cellLinked : Linked second.keys cell (rootSlot inner) (rootSlot right) :=
    (setRight_frame first pivot.slot _).linked (setLeft_linked _ linked) (by grind)
  have pivotSecond : Linked second.keys pivot (rootSlot left) (some cell.slot) :=
    setRight_linked _ ((setLeft_frame page cell.slot _).linked pivotLinked (by grind))
  have lowered : Holds third.keys (.node cell inner right) :=
    height_holds cellLinked (secondFrame.holds innerHeld (by grind))
      (secondFrame.holds rightHeld (by grind)) (by
        simp only [slots_node, List.nodup_append, List.nodup_cons]
        grind)
  have pivotThird : Linked third.keys pivot (rootSlot left) (some cell.slot) :=
    (height_frame second cell.slot).linked pivotSecond (by grind)
  rw [shape]
  exact ⟨rfl, height_holds pivotThird (thirdFrame.holds leftHeld (by grind)) lowered (by
      simp only [slots_node, List.nodup_append, List.nodup_cons]
      grind),
    thirdFrame.trans ((height_frame third pivot.slot).mono (by simp)), rfl⟩

theorem balanceFactor_root {page : KeyPage} {tree : BinaryTree Cell} (held : Holds page.keys tree) :
    page.balanceFactor (rootSlot tree) = Rdb.balanceFactor tree := by
  cases tree with
  | nil => rfl
  | node cell left right =>
      rw [rootSlot_node, balanceFactor, leftOf_linked held.linked, rightOf_linked held.linked,
        heightOf_root held.2.1, heightOf_root held.2.2, balanceFactor_node]

/-- The double rotation of the records lifts the left child of the right child. -/
theorem rotateRightLeft_settles {page : KeyPage} {cell pivot middle : Cell}
    {left first second last : BinaryTree Cell}
    (held : Holds page.keys (.node cell left (.node pivot (.node middle first second) last)))
    (distinct : (slots (.node cell left (.node pivot (.node middle first second) last))).Nodup) :
    Settles [cell.slot, pivot.slot, middle.slot] page (page.rotateRightLeft (some cell.slot))
      (.node middle (.node cell left first) (.node pivot second last)) := by
  have apart := distinct
  simp only [slots_node, List.nodup_append, List.nodup_cons, List.mem_append, List.mem_cons,
    ne_eq] at apart
  have pivotHeld := held.2.2
  have inner := rotateRight_settles pivotHeld.linked pivotHeld.2.1.linked pivotHeld.2.1.2.1
    pivotHeld.2.1.2.2 pivotHeld.2.2 (by
      simp only [slots_node, List.nodup_append, List.nodup_cons]
      grind)
  let turned := page.rotateRight (some pivot.slot)
  let relinked := turned.1.setRight (some cell.slot) (some middle.slot)
  have shape : page.rotateRightLeft (some cell.slot) = relinked.rotateLeft (some cell.slot) := by
    simp only [rotateRightLeft, rightOf_linked held.linked, rootSlot_node]
    rw [inner.root]
    rfl
  have turnedFrame : Frame [cell.slot, pivot.slot, middle.slot] page turned.1 :=
    inner.frame.mono (by simp)
  have relinkedFrame := turnedFrame.trans
    ((setRight_frame turned.1 cell.slot (some middle.slot)).mono (by simp))
  have cellLinked : Linked relinked.keys cell (rootSlot left) (some middle.slot) :=
    setRight_linked _ (inner.frame.linked held.linked (by grind))
  have middleHeld : Holds relinked.keys (.node middle first (.node pivot second last)) :=
    (setRight_frame turned.1 cell.slot _).holds inner.held (by
      simp only [slots_node]
      grind)
  have outer := rotateLeft_settles cellLinked middleHeld.linked
    (relinkedFrame.holds held.2.1 (by grind)) middleHeld.2.1 middleHeld.2.2 (by
      simp only [slots_node, List.nodup_append, List.nodup_cons]
      grind)
  rw [shape]
  exact ⟨outer.root, outer.held, relinkedFrame.trans (outer.frame.mono (by simp)),
    outer.vcount.trans inner.vcount⟩

/-- The double rotation of the records lifts the right child of the left child. -/
theorem rotateLeftRight_settles {page : KeyPage} {cell pivot middle : Cell}
    {right first second last : BinaryTree Cell}
    (held : Holds page.keys (.node cell (.node pivot first (.node middle second last)) right))
    (distinct : (slots (.node cell (.node pivot first (.node middle second last)) right)).Nodup) :
    Settles [cell.slot, pivot.slot, middle.slot] page (page.rotateLeftRight (some cell.slot))
      (.node middle (.node pivot first second) (.node cell last right)) := by
  have apart := distinct
  simp only [slots_node, List.nodup_append, List.nodup_cons, List.mem_append, List.mem_cons,
    ne_eq] at apart
  have pivotHeld := held.2.1
  have inner := rotateLeft_settles pivotHeld.linked pivotHeld.2.2.linked pivotHeld.2.1
    pivotHeld.2.2.2.1 pivotHeld.2.2.2.2 (by
      simp only [slots_node, List.nodup_append, List.nodup_cons]
      grind)
  let turned := page.rotateLeft (some pivot.slot)
  let relinked := turned.1.setLeft (some cell.slot) (some middle.slot)
  have shape : page.rotateLeftRight (some cell.slot) = relinked.rotateRight (some cell.slot) := by
    simp only [rotateLeftRight, leftOf_linked held.linked, rootSlot_node]
    rw [inner.root]
    rfl
  have turnedFrame : Frame [cell.slot, pivot.slot, middle.slot] page turned.1 :=
    inner.frame.mono (by simp)
  have relinkedFrame := turnedFrame.trans
    ((setLeft_frame turned.1 cell.slot (some middle.slot)).mono (by simp))
  have cellLinked : Linked relinked.keys cell (some middle.slot) (rootSlot right) :=
    setLeft_linked _ (inner.frame.linked held.linked (by grind))
  have middleHeld : Holds relinked.keys (.node middle (.node pivot first second) last) :=
    (setLeft_frame turned.1 cell.slot _).holds inner.held (by
      simp only [slots_node]
      grind)
  have outer := rotateRight_settles cellLinked middleHeld.linked middleHeld.2.1 middleHeld.2.2
    (relinkedFrame.holds held.2.2 (by grind)) (by
      simp only [slots_node, List.nodup_append, List.nodup_cons]
      grind)
  rw [shape]
  exact ⟨outer.root, outer.held, relinkedFrame.trans (outer.frame.mono (by simp)),
    outer.vcount.trans inner.vcount⟩

/-- The balance step of the records is the balance step of the tree. -/
theorem balanceTree_settles {page : KeyPage} {tree : BinaryTree Cell}
    (held : Holds page.keys tree) (distinct : (slots tree).Nodup)
    (fits : tree.numNodes ≤ slotLimit) :
    Settles (slots tree) page (page.balanceTree (rootSlot tree)) (Rdb.balanceTree tree) := by
  cases tree with
  | nil => exact ⟨rfl, trivial, Frame.refl _ _, rfl⟩
  | node cell left right =>
      have still : Settles (slots (.node cell left right)) page (page, some cell.slot)
          (.node cell left right) := ⟨rfl, held, Frame.refl _ _, rfl⟩
      have factor : page.balanceFactor (some cell.slot) =
          Rdb.balanceFactor (.node cell left right) := balanceFactor_root held
      simp only [balanceTree, Rdb.balanceTree, rootSlot_node, factor, leftOf_linked held.linked,
        rightOf_linked held.linked, balanceFactor_root held.2.1, balanceFactor_root held.2.2]
      split_ifs with leans single double tilts double single
      · cases right with
        | nil => simp at single
        | node pivot inner outer =>
            have turned := rotateLeft_settles held.linked held.2.2.linked held.2.1 held.2.2.2.1
              held.2.2.2.2 distinct
            exact { turned with frame := turned.frame.mono (by simp) }
      · obtain ⟨first, middle, second, pivot, last, rfl⟩ := rightLeft_pivot fits leans double
        have turned := rotateRightLeft_settles held distinct
        exact { turned with frame := turned.frame.mono (by simp) }
      · exact still
      · obtain ⟨first, pivot, second, middle, last, rfl⟩ := leftRight_pivot fits tilts double
        have turned := rotateLeftRight_settles held distinct
        exact { turned with frame := turned.frame.mono (by simp) }
      · cases left with
        | nil => simp at single
        | node pivot outer inner =>
            have turned := rotateRight_settles held.linked held.2.1.linked held.2.1.2.1
              held.2.1.2.2 held.2.2 distinct
            exact { turned with frame := turned.frame.mono (by simp) }
      · exact still
      · exact still

end KeyPage

end SimpleNFast.Rdb
