import SimpleNFast.Proof.Rdb.KeyTree

namespace SimpleNFast.Rdb
open BinaryTree

/-- The search compares its key with the key of each cell. -/
def keyOrder (key : Bytes) (cell : Cell) : Ordering := keycmp key cell.key

/-- A new record takes the free slot of the page, if there is one. -/
def offered (free : Slot) (key : Bytes) (voff : Off) : Option Cell :=
  free.map fun slot => ⟨slot, key, voff⟩

/-- An update of a present key changes only its value offset. -/
def revalue (voff : Off) (cell : Cell) : Cell := { cell with voff := voff }

/-- A moved record keeps the slot of the record it replaces. -/
def relocate (cell source : Cell) : Cell := { source with slot := cell.slot }

/-- The tree after an insertion. -/
abbrev insertTree (free : Slot) (key : Bytes) (voff : Off) (tree : BinaryTree Cell) :
    BinaryTree Cell :=
  tree.insert balanceTree (keyOrder key) (offered free key voff) (revalue voff)

/-- The tree after the removal of its largest key. -/
abbrev removeMaxTree (tree : BinaryTree Cell) : BinaryTree Cell := tree.removeMax balanceTree

/-- The tree after a removal. -/
abbrev removeTree (key : Bytes) (tree : BinaryTree Cell) : BinaryTree Cell :=
  tree.remove balanceTree (keyOrder key) relocate

/-- An insertion of an absent key takes the free slot. -/
theorem slots_insertTree (free : Slot) (key : Bytes) (voff : Off) (tree : BinaryTree Cell) :
    (slots (insertTree free key voff tree)).Perm
      ((tree.find (keyOrder key)).elim free.toList (fun _ => []) ++ slots tree) := by
  have offer : (offered free key voff).map Cell.slot = free := by
    cases free <;> rfl
  have places := @perm_map_insert _ _ _ (keyOrder key) toList_balanceTree tree
    (offered free key voff) (revalue voff) Cell.slot (fun _ => rfl)
  rw [offer] at places
  exact places

/-- The slots after an insertion are distinct and fit when those before and the free one do. -/
theorem insertTree_room {free : Slot} (key : Bytes) (voff : Off) {tree : BinaryTree Cell}
    (distinct : (slots tree ++ free.toList).Nodup)
    (fits : tree.numNodes + free.toList.length ≤ slotLimit) :
    (slots (insertTree free key voff tree)).Nodup ∧
      (insertTree free key voff tree).numNodes ≤ slotLimit := by
  have places := slots_insertTree free key voff tree
  simp only [← length_slots] at *
  rw [places.nodup_iff, places.length_eq]
  cases tree.find (keyOrder key) with
  | none =>
      simp only [Option.elim_none, List.length_append]
      refine ⟨List.nodup_append_comm.1 distinct, ?_⟩
      omega
  | some cell =>
      simp only [Option.elim_some, List.nil_append]
      exact ⟨(List.nodup_append.1 distinct).1, by omega⟩

/-- A removal gives up exactly the slot it names. -/
theorem slots_removeTree (key : Bytes) (tree : BinaryTree Cell) :
    (slots tree).Perm
      (((tree.removed (keyOrder key)).map Cell.slot).toList ++ slots (removeTree key tree)) :=
  perm_map_remove toList_balanceTree relocate Cell.slot (fun _ _ => rfl)

theorem slots_removeMaxTree {tree : BinaryTree Cell} {top : Cell}
    (largest : tree.maximum = some top) :
    slots tree = slots (removeMaxTree tree) ++ [top.slot] := by
  rw [slots, toList_removeMax toList_balanceTree largest]
  simp [slots, removeMaxTree]

/-- The result of a recursive change represents the tree and names the slot. -/
structure Updates (changed : List Nat) (page : KeyPage) (result : KeyPage.Change)
    (tree : BinaryTree Cell) (idx : Slot) (vcount : Int) : Prop where
  root : result.2.1 = rootSlot tree
  held : Holds result.1.keys tree
  frame : Frame changed page result.1
  idx : result.2.2 = idx
  vcount : result.1.vcount = vcount

/-- A change after a frame keeps the frame. -/
theorem Updates.after {changed inner : List Nat} {page start : KeyPage} {result : KeyPage.Change}
    {tree : BinaryTree Cell} {idx : Slot} {vcount : Int}
    (later : Updates inner start result tree idx vcount) (frame : Frame changed page start)
    (within : inner ⊆ changed) :
    Updates changed page result tree idx vcount :=
  { later with frame := frame.trans (later.frame.mono within) }

namespace KeyPage

/-- The height and the balance of a linked root complete a change below it. -/
theorem settle_updates {page : KeyPage} {cell : Cell} {left right : BinaryTree Cell} (idx : Slot)
    (linked : Linked page.keys cell (rootSlot left) (rootSlot right))
    (leftHeld : Holds page.keys left) (rightHeld : Holds page.keys right)
    (distinct : (slots (.node cell left right)).Nodup)
    (fits : (BinaryTree.node cell left right).numNodes ≤ slotLimit) :
    Updates (slots (.node cell left right)) page (settle page (some cell.slot) idx)
      (Rdb.balanceTree (.node cell left right)) idx page.vcount := by
  have measured := height_holds linked leftHeld rightHeld distinct
  have balanced := balanceTree_settles measured distinct fits
  have frame := (height_frame page cell.slot).mono
    (show [cell.slot] ⊆ slots (.node cell left right) by simp)
  exact ⟨balanced.root, balanced.held, frame.trans balanced.frame, rfl,
    balanced.vcount.trans (height_vcount _ _)⟩

/-- A child that takes its parent's place is settled again. -/
theorem settle_held {page : KeyPage} {tree : BinaryTree Cell} (idx : Slot)
    (held : Holds page.keys tree) (distinct : (slots tree).Nodup)
    (fits : tree.numNodes ≤ slotLimit) :
    Updates (slots tree) page (settle page (rootSlot tree) idx) (Rdb.balanceTree tree) idx
      page.vcount := by
  cases tree with
  | nil => exact ⟨rfl, trivial, Frame.refl _ _, rfl, rfl⟩
  | node cell left right =>
      exact settle_updates idx held.linked held.2.1 held.2.2 distinct fits

/-- A changed left child is linked and settled at its parent. -/
theorem setLeft_updates {page : KeyPage} {cell : Cell} {left right : BinaryTree Cell}
    {child : Slot} (idx : Slot) (linked : Linked page.keys cell child (rootSlot right))
    (leftHeld : Holds page.keys left) (rightHeld : Holds page.keys right)
    (distinct : (slots (.node cell left right)).Nodup)
    (fits : (BinaryTree.node cell left right).numNodes ≤ slotLimit) :
    Updates (slots (.node cell left right)) page
      (settle (page.setLeft (some cell.slot) (rootSlot left)) (some cell.slot) idx)
      (Rdb.balanceTree (.node cell left right)) idx page.vcount := by
  have frame := setLeft_frame page cell.slot (rootSlot left)
  have apart := distinct
  simp only [slots_node, List.nodup_append, List.nodup_cons, List.mem_cons] at apart
  have settled := settle_updates idx (setLeft_linked _ linked)
    (frame.holds leftHeld (by grind)) (frame.holds rightHeld (by grind)) distinct fits
  rw [setLeft_vcount] at settled
  exact settled.after (frame.mono (by simp)) (List.Subset.refl _)

/-- A changed right child is linked and settled at its parent. -/
theorem setRight_updates {page : KeyPage} {cell : Cell} {left right : BinaryTree Cell}
    {child : Slot} (idx : Slot) (linked : Linked page.keys cell (rootSlot left) child)
    (leftHeld : Holds page.keys left) (rightHeld : Holds page.keys right)
    (distinct : (slots (.node cell left right)).Nodup)
    (fits : (BinaryTree.node cell left right).numNodes ≤ slotLimit) :
    Updates (slots (.node cell left right)) page
      (settle (page.setRight (some cell.slot) (rootSlot right)) (some cell.slot) idx)
      (Rdb.balanceTree (.node cell left right)) idx page.vcount := by
  have frame := setRight_frame page cell.slot (rootSlot right)
  have apart := distinct
  simp only [slots_node, List.nodup_append, List.nodup_cons, List.mem_cons] at apart
  have settled := settle_updates idx (setRight_linked _ linked)
    (frame.holds leftHeld (by grind)) (frame.holds rightHeld (by grind)) distinct fits
  rw [setRight_vcount] at settled
  exact settled.after (frame.mono (by simp)) (List.Subset.refl _)

/-- A free slot holds a free record. -/
theorem getFree_some {page : KeyPage} {index : Nat} (free : page.getFree = some index) :
    ∃ record, page.keys[index]? = some record ∧ record.flags = .free := by
  obtain ⟨inside, isFree, -⟩ := List.findIdx?_eq_some_iff_getElem.1 free
  exact ⟨page.keys[index], List.getElem?_eq_getElem inside, by simpa using isFree⟩

/-- The free slot is not a slot of a represented tree. -/
theorem getFree_fresh {page : KeyPage} {tree : BinaryTree Cell} (held : Holds page.keys tree)
    (distinct : (slots tree).Nodup) : (slots tree ++ page.getFree.toList).Nodup := by
  cases free : page.getFree with
  | none => simpa using distinct
  | some index =>
      obtain ⟨record, read, isFree⟩ := getFree_some free
      simp only [Option.toList_some, List.nodup_append, List.nodup_singleton, List.mem_singleton,
        forall_eq, true_and]
      refine ⟨distinct, fun slot member same => ?_⟩
      obtain ⟨cell, inside, rfl⟩ := List.mem_map.1 member
      obtain ⟨stored, storedRead, inUse, -, -⟩ := held.record inside
      rw [same, read] at storedRead
      cases storedRead
      rw [isFree] at inUse
      cases inUse

/-- A new record stands alone in the free slot. -/
theorem getKeyRecord_some {page : KeyPage} {index : Nat} (free : page.getFree = some index)
    (key : Bytes) (voff : Off) :
    Holds (page.getKeyRecord key voff).1.keys (.node ⟨index, key, voff⟩ .nil .nil) ∧
      Frame [index] page (page.getKeyRecord key voff).1 ∧
      (page.getKeyRecord key voff).1.vcount = toShort (page.vcount + 1) ∧
      (page.getKeyRecord key voff).2 = some index := by
  obtain ⟨record, read, -⟩ := getFree_some free
  simp only [getKeyRecord, free]
  refine ⟨⟨?_, trivial, trivial⟩, ?_, trivial, trivial⟩
  · change (page.setRec (some index) _).keys[index]? = _
    rw [getElem?_setRec, if_pos rfl, read]
    rfl
  · exact { setRec_frame page index _ with }

/-- The recursive insertion into the records is the insertion into the tree. -/
theorem putAt_updates {page : KeyPage} {tree : BinaryTree Cell} {fuel : Nat} (key : Bytes)
    (voff : Off) (deep : tree.height < fuel) (held : Holds page.keys tree)
    (distinct : (slots tree ++ page.getFree.toList).Nodup)
    (fits : tree.numNodes + page.getFree.toList.length ≤ slotLimit) :
    Updates (slots (insertTree page.getFree key voff tree)) page
      (putAt fuel page (rootSlot tree) key voff) (insertTree page.getFree key voff tree)
      (((tree.find (keyOrder key)).map Cell.slot).or page.getFree)
      ((tree.find (keyOrder key)).elim
        (page.getFree.elim page.vcount fun _ => toShort (page.vcount + 1)) fun _ => page.vcount) := by
  induction tree generalizing fuel with
  | nil =>
      cases fuel with
      | zero => simp [BinaryTree.height] at deep
      | succ fuel =>
          cases free : page.getFree with
          | none =>
              simp only [putAt, rootSlot_nil, getKeyRecord, free, insertTree, BinaryTree.insert,
                offered, Option.map_none, Option.elim_none, find, Option.none_or]
              exact ⟨rfl, trivial, Frame.refl _ _, rfl, rfl⟩
          | some index =>
              obtain ⟨alone, frame, count, place⟩ := getKeyRecord_some free key voff
              have balanced := balanceTree_settles alone (by simp) (by simp [slotLimit])
              simp only [putAt, rootSlot_nil, place]
              refine ⟨balanced.root, balanced.held, (frame.trans balanced.frame).mono ?_, rfl,
                balanced.vcount.trans count⟩
              simp [insertTree, BinaryTree.insert, offered, slots_balanceTree]
  | node cell left right leftPut rightPut =>
      cases fuel with
      | zero => simp at deep
      | succ fuel =>
          have apart := distinct
          simp only [slots_node, List.nodup_append, List.nodup_cons, List.mem_append,
            List.mem_cons, ne_eq] at apart
          have room := insertTree_room key voff distinct fits
          simp only [BinaryTree.height, BinaryTree.numNodes] at deep fits
          simp only [putAt, rootSlot_node, key_linked held.linked, leftOf_linked held.linked,
            rightOf_linked held.linked, insertTree, BinaryTree.insert, find] at room ⊢
          cases side : keycmp key cell.key with
          | lt =>
              simp only [keyOrder, side, slots_balanceTree, numNodes_balanceTree] at room ⊢
              have below := @leftPut fuel (by omega) held.2.1 (by
                simp only [List.nodup_append]
                grind) (by omega)
              have newApart := room.1
              simp only [slots_node, List.nodup_append, List.nodup_cons, List.mem_cons,
                ne_eq] at newApart
              have settled := setLeft_updates (putAt fuel page (rootSlot left) key voff).2.2
                (below.frame.linked held.linked (by grind)) below.held
                (below.frame.holds held.2.2 (by grind)) room.1 room.2
              rw [← below.root, below.vcount] at settled
              rw [← below.idx]
              exact settled.after (below.frame.mono (by simp)) (List.Subset.refl _)
          | eq =>
              simp only [keyOrder, side, slots_balanceTree, numNodes_balanceTree] at room ⊢
              have frame := setRec_frame page cell.slot fun record => { record with voff := voff }
              have linked : Linked (page.setRec (some cell.slot) fun record =>
                  { record with voff := voff }).keys (revalue voff cell) (rootSlot left)
                  (rootSlot right) := by
                refine ⟨storedHeight (.node cell left right), ?_⟩
                change (page.setRec (some cell.slot) _).keys[cell.slot]? = _
                rw [getElem?_setRec, if_pos rfl, held.1]
                rfl
              exact (settle_updates (some cell.slot) linked (frame.holds held.2.1 (by grind))
                (frame.holds held.2.2 (by grind)) room.1 room.2).after
                (frame.mono (by simp [revalue])) (List.Subset.refl _)
          | gt =>
              simp only [keyOrder, side, slots_balanceTree, numNodes_balanceTree] at room ⊢
              have below := @rightPut fuel (by omega) held.2.2 (by
                simp only [List.nodup_append]
                grind) (by omega)
              have newApart := room.1
              simp only [slots_node, List.nodup_append, List.nodup_cons, List.mem_cons,
                ne_eq] at newApart
              have settled := setRight_updates (putAt fuel page (rootSlot right) key voff).2.2
                (below.frame.linked held.linked (by grind))
                (below.frame.holds held.2.1 (by grind)) below.held room.1 room.2
              rw [← below.root, below.vcount] at settled
              rw [← below.idx]
              exact settled.after (below.frame.mono (by simp)) (List.Subset.refl _)

end KeyPage

end SimpleNFast.Rdb
