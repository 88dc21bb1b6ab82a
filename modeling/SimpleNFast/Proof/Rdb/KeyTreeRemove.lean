import SimpleNFast.Proof.Rdb.KeyTreeUpdate

namespace SimpleNFast.Rdb
open BinaryTree

/-- The result of a removal represents the tree without the given cell and frees its slot. -/
structure Removes (page : KeyPage) (result : KeyPage.Change) (before after : BinaryTree Cell)
    (gone : Option Cell) : Prop extends
    Updates (slots before) page result after (gone.map Cell.slot)
      (gone.elim page.vcount fun _ => toShort (page.vcount - 1)) where
  freed : ∀ cell, gone = some cell → result.1.keys[cell.slot]? = some KeyRec.init

/-- A removal below a node is a removal from the node when the node settles outside the freed slot. -/
theorem Removes.settled {page : KeyPage} {below result : KeyPage.Change}
    {inner outer whole node final : BinaryTree Cell} {gone : Option Cell}
    (removed : Removes page below inner outer gone)
    (later : Updates (slots node) below.1 result final below.2.2 below.1.vcount)
    (part : slots inner ⊆ slots whole) (within : slots node ⊆ slots whole)
    (fresh : ∀ cell, gone = some cell → cell.slot ∉ slots node) :
    Removes page result whole final gone where
  root := later.root
  held := later.held
  frame := (removed.frame.mono part).trans (later.frame.mono within)
  idx := later.idx.trans removed.idx
  vcount := later.vcount.trans removed.vcount
  freed cell same := (later.frame.outside _ (fresh cell same)).trans (removed.freed cell same)

theorem slots_removeTree_subset (key : Bytes) (tree : BinaryTree Cell) :
    slots (removeTree key tree) ⊆ slots tree := fun _ member =>
  (slots_removeTree key tree).symm.subset (List.mem_append_right _ member)

/-- The tree after a removal has distinct slots and lacks the freed one. -/
theorem removeTree_distinct (key : Bytes) {tree : BinaryTree Cell} (distinct : (slots tree).Nodup) :
    (slots (removeTree key tree)).Nodup ∧
      ∀ cell, tree.removed (keyOrder key) = some cell → cell.slot ∉ slots (removeTree key tree) := by
  have apart := (slots_removeTree key tree).nodup_iff.1 distinct
  refine ⟨(List.nodup_append.1 apart).2.1, ?_⟩
  intro cell gone inside
  simp only [gone, Option.map_some, Option.toList_some, List.singleton_append,
    List.nodup_cons] at apart
  exact apart.1 inside

theorem numNodes_removeTree (key : Bytes) (tree : BinaryTree Cell) :
    (removeTree key tree).numNodes + (tree.removed (keyOrder key)).toList.length =
      tree.numNodes := by
  have same := (slots_removeTree key tree).length_eq
  rw [List.length_append, length_slots, length_slots] at same
  cases gone : tree.removed (keyOrder key) <;> simp_all; omega

namespace KeyPage

/-- The freed record leaves its place to the child. -/
theorem unlink_removes {page : KeyPage} {cell : Cell} {child whole : BinaryTree Cell}
    (inside : (page.keys[cell.slot]?).isSome) (held : Holds page.keys child)
    (distinct : (cell.slot :: slots child).Nodup) (fits : child.numNodes ≤ slotLimit)
    (within : cell.slot :: slots child ⊆ slots whole) :
    Removes page (unlink page (some cell.slot) (rootSlot child)) whole
      (Rdb.balanceTree child) (some cell) := by
  obtain ⟨fresh, distinctChild⟩ := List.nodup_cons.1 distinct
  have frame : Frame [cell.slot] page (page.freeKeyRecord (some cell.slot)) :=
    { setRec_frame page cell.slot (fun _ => KeyRec.init) with }
  have settled := settle_held (some cell.slot) (frame.holds held (by grind)) distinctChild fits
  refine { settled.after (frame.mono ?_) ?_ with freed := ?_ }
  · intro index member
    exact within (by simp_all)
  · intro index member
    exact within (List.mem_cons_of_mem _ member)
  · rintro other same
    cases same
    rw [unlink, settled.frame.outside cell.slot fresh]
    obtain ⟨record, read⟩ := Option.isSome_iff_exists.1 inside
    change (page.setRec (some cell.slot) _).keys[cell.slot]? = _
    rw [getElem?_setRec, if_pos rfl, read]
    rfl

/-- The walk along the right links finds the largest cell. -/
theorem maxKey_maximum {page : KeyPage} {tree : BinaryTree Cell} {fuel : Nat}
    (deep : tree.height ≤ fuel) (held : Holds page.keys tree) :
    maxKey fuel page (rootSlot tree) = tree.maximum.map Cell.slot := by
  induction tree generalizing fuel with
  | nil => cases fuel <;> rfl
  | node cell left right leftMax rightMax =>
      cases fuel with
      | zero => simp [BinaryTree.height] at deep
      | succ fuel =>
          simp only [BinaryTree.height] at deep
          cases right with
          | nil => simp only [rootSlot_node, maxKey, rightOf_linked held.linked, rootSlot_nil, maximum,
              Option.map_some]
          | node next inner outer =>
              rw [maximum]
              · simpa only [rootSlot_node, maxKey, rightOf_linked held.linked] using
                  rightMax (by omega) held.2.2
              · simp

/-- The removal of the largest record is the removal of the largest cell. -/
theorem removeMax_removes {page : KeyPage} {tree : BinaryTree Cell} {fuel : Nat}
    (deep : tree.height < fuel) (held : Holds page.keys tree) (distinct : (slots tree).Nodup)
    (fits : tree.numNodes ≤ slotLimit) :
    Removes page (removeMax fuel page (rootSlot tree)) tree (removeMaxTree tree)
      tree.maximum := by
  induction tree generalizing fuel with
  | nil =>
      cases fuel with
      | zero => simp at deep
      | succ fuel => exact { settle_held none held distinct fits with freed := by simp [maximum] }
  | node cell left right leftMax rightMax =>
      cases fuel with
      | zero => simp at deep
      | succ fuel =>
          have apart := distinct
          simp only [slots_node, List.nodup_append, List.nodup_cons, List.mem_cons, ne_eq] at apart
          simp only [BinaryTree.height, BinaryTree.numNodes] at deep fits
          cases right with
          | nil =>
              simp only [removeMax, rootSlot_node, rightOf_linked held.linked, rootSlot_nil,
                leftOf_linked held.linked, removeMaxTree, BinaryTree.removeMax, maximum]
              refine unlink_removes (by rw [held.1]; rfl) held.2.1 ?_ (by omega) ?_
              · simp only [List.nodup_cons]
                grind
              · simp only [slots_node]
                grind
          | node next inner outer =>
              have below := @rightMax fuel (by omega) held.2.2 apart.2.1.2 (by omega)
              cases largest : (BinaryTree.node next inner outer).maximum with
              | none => simp [maximum_eq_none] at largest
              | some top =>
                  have parts := slots_removeMaxTree largest
                  have counted := congrArg List.length parts
                  rw [List.length_append, length_slots, length_slots, List.length_singleton] at counted
                  rw [largest] at below
                  simp only [parts, List.nodup_append, List.mem_append, List.mem_singleton] at apart
                  have distinctNode : (slots (.node cell left
                      (removeMaxTree (.node next inner outer)))).Nodup := by
                    simp only [slots_node, List.nodup_append, List.nodup_cons]
                    grind
                  have later := setRight_updates (removeMax fuel page (some next.slot)).2.2
                    (below.frame.linked held.linked (by grind))
                    (below.frame.holds held.2.1 (by grind)) below.held distinctNode (by
                      rw [BinaryTree.numNodes]
                      omega)
                  rw [← below.root] at later
                  have shape : removeMax (fuel + 1) page (rootSlot (.node cell left
                      (.node next inner outer))) = settle
                      ((removeMax fuel page (some next.slot)).1.setRight (some cell.slot)
                        (removeMax fuel page (some next.slot)).2.1) (some cell.slot)
                      (removeMax fuel page (some next.slot)).2.2 := by
                    simp only [rootSlot_node, removeMax, rightOf_linked held.linked]
                  rw [shape, maximum, largest, removeMaxTree, BinaryTree.removeMax]
                  · refine below.settled later ?_ ?_ ?_
                    · grind [slots_node]
                    · rw [slots_node, slots_node cell left (.node next inner outer), parts]
                      grind
                    · intro other same
                      cases same
                      rw [slots_node]
                      grind
                  · simp
                  · simp

/-- A node with two children takes over the largest cell of its left side. -/
theorem replaceByMax_removes {page : KeyPage} {cell top : Cell} {left right : BinaryTree Cell}
    {fuel : Nat} (deep : left.height < fuel) (held : Holds page.keys (.node cell left right))
    (distinct : (slots (.node cell left right)).Nodup)
    (fits : (BinaryTree.node cell left right).numNodes ≤ slotLimit)
    (largest : left.maximum = some top) :
    Removes page (replaceByMax fuel page (some cell.slot)) (.node cell left right)
      (Rdb.balanceTree (.node (relocate cell top) (removeMaxTree left) right)) (some top) := by
  have apart := distinct
  simp only [slots_node, List.nodup_append, List.nodup_cons, List.mem_cons, ne_eq] at apart
  have parts := slots_removeMaxTree largest
  have counted := congrArg List.length parts
  rw [List.length_append, length_slots, length_slots, List.length_singleton] at counted
  have source : page.krec (maxKey fuel page (rootSlot left)) = page.krec (some top.slot) := by
    rw [maxKey_maximum (by omega) held.2.1, largest, Option.map_some]
  have topInside : top ∈ left.toList := by
    rw [toList_removeMax toList_balanceTree largest]
    simp
  obtain ⟨record, read, -, keySame, voffSame⟩ := held.2.1.record topInside
  let moved := page.setRec (some cell.slot) fun old =>
    { old with key := top.key, voff := top.voff }
  have frame : Frame [cell.slot] page moved := setRec_frame page cell.slot _
  have linked : Linked moved.keys (relocate cell top) (rootSlot left) (rootSlot right) := by
    refine ⟨storedHeight (.node cell left right), ?_⟩
    change moved.keys[cell.slot]? = _
    rw [getElem?_setRec, if_pos rfl, held.1]
    rfl
  have below := removeMax_removes deep (frame.holds held.2.1 (by grind)) apart.1 (by
    rw [BinaryTree.numNodes] at fits
    omega)
  rw [largest] at below
  have movedLeft : moved.leftOf (some (relocate cell top).slot) = rootSlot left :=
    leftOf_linked linked
  have shape : replaceByMax fuel page (some cell.slot) = settle
      ((removeMax fuel moved (rootSlot left)).1.setLeft (some cell.slot)
        (removeMax fuel moved (rootSlot left)).2.1) (some cell.slot)
      (removeMax fuel moved (rootSlot left)).2.2 := by
    simp only [replaceByMax, leftOf_linked held.linked, source, krec_some read, keySame, voffSame]
    rw [← movedLeft]
    rfl
  simp only [parts, List.nodup_append, List.mem_append, List.mem_singleton] at apart
  have distinctNode : (slots (.node (relocate cell top) (removeMaxTree left) right)).Nodup := by
    simp only [slots_node, relocate, List.nodup_append, List.nodup_cons]
    grind
  have outside : (relocate cell top).slot ∉ slots left := by
    rw [parts, relocate]
    grind
  have later := setLeft_updates (removeMax fuel moved (rootSlot left)).2.2
    (below.frame.linked linked outside) below.held
    (below.frame.holds (frame.holds held.2.2 (by grind)) (by
      rw [parts]
      grind)) distinctNode (by
      rw [BinaryTree.numNodes] at fits ⊢
      omega)
  rw [← below.root] at later
  rw [shape]
  have settled : Removes moved _ (.node cell left right) _ _ := below.settled later (by grind [slots_node]) (by
      rw [slots_node, slots_node cell left right, parts, relocate]
      grind) (by
      intro other same
      cases same
      rw [slots_node, relocate]
      grind)
  exact { settled with frame := (frame.mono (by simp)).trans settled.frame }

/-- The recursive removal from the records is the removal from the tree. -/
theorem removeAt_removes {page : KeyPage} {tree : BinaryTree Cell} {fuel : Nat} (key : Bytes)
    (deep : tree.height < fuel) (held : Holds page.keys tree) (distinct : (slots tree).Nodup)
    (fits : tree.numNodes ≤ slotLimit) :
    Removes page (removeAt fuel page (rootSlot tree) key) tree (removeTree key tree)
      (tree.removed (keyOrder key)) := by
  induction tree generalizing fuel with
  | nil =>
      cases fuel with
      | zero => simp at deep
      | succ fuel =>
          exact ⟨⟨rfl, trivial, Frame.refl _ _, rfl, rfl⟩, by simp [removed]⟩
  | node cell left right leftRemove rightRemove =>
      cases fuel with
      | zero => simp at deep
      | succ fuel =>
          have apart := distinct
          simp only [slots_node, List.nodup_append, List.nodup_cons, List.mem_cons, ne_eq] at apart
          have room := removeTree_distinct key distinct
          have inside := slots_removeTree_subset key (.node cell left right)
          have small := fits
          have bounded : (removeTree key (.node cell left right)).numNodes ≤ slotLimit :=
            (numNodes_removeTree key _ ▸ Nat.le_add_right _ _).trans fits
          simp only [BinaryTree.height, BinaryTree.numNodes] at deep fits
          simp only [removeTree, BinaryTree.remove, removed, rootSlot_node, removeAt,
            key_linked held.linked, leftOf_linked held.linked, rightOf_linked held.linked]
            at room inside bounded ⊢
          cases side : keycmp key cell.key with
          | lt =>
              simp only [keyOrder, side, slots_balanceTree, numNodes_balanceTree] at room inside bounded ⊢
              have below := @leftRemove fuel (by omega) held.2.1 apart.1 (by omega)
              have later := setLeft_updates (removeAt fuel page (rootSlot left) key).2.2
                (below.frame.linked held.linked (by grind)) below.held
                (below.frame.holds held.2.2 (by grind)) room.1 bounded
              rw [← below.root] at later
              exact below.settled later (by grind [slots_node]) inside room.2
          | gt =>
              simp only [keyOrder, side, slots_balanceTree, numNodes_balanceTree] at room inside bounded ⊢
              have below := @rightRemove fuel (by omega) held.2.2 apart.2.1.2 (by omega)
              have later := setRight_updates (removeAt fuel page (rootSlot right) key).2.2
                (below.frame.linked held.linked (by grind))
                (below.frame.holds held.2.1 (by grind)) below.held room.1 bounded
              rw [← below.root] at later
              exact below.settled later (by grind [slots_node]) inside room.2
          | eq =>
              simp only [keyOrder, side]
              cases left with
              | nil =>
                  exact unlink_removes (by rw [held.1]; rfl) held.2.2 (by grind)
                    (by omega) (by grind [slots_node])
              | node leftCell leftLeft leftRight =>
                  cases right with
                  | nil =>
                      exact unlink_removes (by rw [held.1]; rfl) held.2.1 (by grind)
                        (by omega) (by grind [slots_node])
                  | node rightCell rightLeft rightRight =>
                      cases largest : (BinaryTree.node leftCell leftLeft leftRight).maximum with
                      | none => simp [maximum_eq_none] at largest
                      | some top =>
                          simp only [rootSlot_node, largest]
                          exact replaceByMax_removes (by omega) held distinct small largest

end KeyPage

end SimpleNFast.Rdb
