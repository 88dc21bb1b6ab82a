import SimpleNFast.Proof.Rdb.KeyTreeRemove
import SimpleNFast.Construction.Rdb.PageMap

namespace SimpleNFast.Rdb
open BinaryTree

instance : Std.TransCmp keycmp := by
  unfold keycmp
  infer_instance

/-- Two keys compare equal exactly when they have the same bytes. -/
theorem keycmp_eq_iff {first second : Bytes} : keycmp first second = .eq ↔ first = second := by
  constructor
  · intro equal
    exact Std.LawfulEqOrd.eq_of_compare (compareLex_eq_eq.1 equal).2
  · rintro rfl
    exact Std.ReflCmp.compare_self

/-- The keys of a page stand in ascending order. -/
def Ascending (cells : List Cell) : Prop :=
  cells.Pairwise fun first second => keycmp first.key second.key = .lt

/-- Ascending keys can be searched for any key. -/
theorem Ascending.searchable {cells : List Cell} (ascending : Ascending cells) (key : Bytes) :
    Searchable (keyOrder key) cells := by
  refine List.Pairwise.imp ?_ ascending
  intro first second below
  cases side : keyOrder key first with
  | gt => exact Or.inl rfl
  | eq => exact Or.inr (Std.TransCmp.lt_of_eq_of_lt side below)
  | lt => exact Or.inr (Std.TransCmp.lt_trans side below)

/-- The cells around a key stay in order when a cell with that key stands between them. -/
theorem Ascending.around {cells : List Cell} (ascending : Ascending cells) (key : Bytes)
    (middle : List Cell) (single : middle.length ≤ 1) (same : ∀ cell ∈ middle, cell.key = key) :
    Ascending (lower (keyOrder key) cells ++ middle ++ upper (keyOrder key) cells) := by
  have below : ∀ cell ∈ lower (keyOrder key) cells, keycmp cell.key key = .lt := by
    intro cell member
    have side := (List.mem_filter.1 member).2
    exact Std.OrientedCmp.gt_iff_lt.1 (by simpa [keyOrder] using side)
  have above : ∀ cell ∈ upper (keyOrder key) cells, keycmp key cell.key = .lt := by
    intro cell member
    simpa [keyOrder] using (List.mem_filter.1 member).2
  have lowerPart : Ascending (lower (keyOrder key) cells) := ascending.filter _
  have upperPart : Ascending (upper (keyOrder key) cells) := ascending.filter _
  have middlePart : Ascending middle := by
    rcases middle with _ | ⟨cell, _ | ⟨other, rest⟩⟩
    · exact List.Pairwise.nil
    · exact List.pairwise_singleton _ _
    · simp at single
  refine List.pairwise_append.2 ⟨List.pairwise_append.2 ⟨lowerPart, middlePart, ?_⟩, upperPart, ?_⟩
  · intro first left second right
    rw [same second right]
    exact below first left
  · intro first left second right
    rcases List.mem_append.1 left with inLower | inMiddle
    · exact Std.TransCmp.lt_trans (below first inLower) (above second right)
    · rw [same first inMiddle]
      exact above second right

/-- The tree represents the page and accounts for all of its records. -/
structure TreePage (page : KeyPage) (tree : BinaryTree Cell) : Prop where
  root : page.root = rootSlot tree
  held : Holds page.keys tree
  distinct : (slots tree).Nodup
  ascending : Ascending tree.toList
  free : ∀ index, index ∉ slots tree → ∀ record, page.keys[index]? = some record → record.flags = .free
  vcount : page.vcount = toShort tree.numNodes
  fits : page.keys.length ≤ slotLimit

/-- An empty page is represented by the empty tree. -/
theorem treePage_init {kpSize : Nat} (fits : numOfKeysInPage kpSize ≤ slotLimit) :
    TreePage (KeyPage.init kpSize) .nil where
  root := rfl
  held := trivial
  distinct := by simp
  ascending := List.Pairwise.nil
  free index _ record read := by
    have zero := List.eq_of_mem_replicate (List.mem_of_getElem? read)
    rw [zero]
    rfl
  vcount := rfl
  fits := by simpa [KeyPage.init, KeyPage.zero] using fits

namespace KeyPage

theorem put_keys (page : KeyPage) (key : Bytes) (voff : Off) :
    (page.put key voff).1.keys = (putAt page.depthBound page page.root key voff).1.keys := rfl

theorem put_vcount (page : KeyPage) (key : Bytes) (voff : Off) :
    (page.put key voff).1.vcount = (putAt page.depthBound page page.root key voff).1.vcount := rfl

theorem remove_keys (page : KeyPage) (key : Bytes) :
    (page.remove key).1.keys = (removeAt page.depthBound page page.root key).1.keys := rfl

theorem remove_vcount (page : KeyPage) (key : Bytes) :
    (page.remove key).1.vcount = (removeAt page.depthBound page page.root key).1.vcount := rfl

end KeyPage

namespace TreePage

variable {page : KeyPage} {tree : BinaryTree Cell}

theorem slot_lt (represented : TreePage page tree) {index : Nat} (member : index ∈ slots tree) :
    index < page.keys.length := by
  obtain ⟨cell, inside, rfl⟩ := List.mem_map.1 member
  obtain ⟨record, read, -⟩ := represented.held.record inside
  exact (List.getElem?_eq_some_iff.1 read).1

/-- The records of the tree and the free slot fit into the page. -/
theorem room (represented : TreePage page tree) :
    tree.numNodes + page.getFree.toList.length ≤ page.keys.length := by
  rw [← length_slots, ← List.length_append, ← List.length_range (n := page.keys.length)]
  apply List.Subperm.length_le
  apply (KeyPage.getFree_fresh represented.held represented.distinct).subperm
  intro index member
  rcases List.mem_append.1 member with old | new
  · exact List.mem_range.2 (represented.slot_lt old)
  · obtain ⟨record, read, -⟩ := KeyPage.getFree_some (Option.mem_toList.1 new)
    exact List.mem_range.2 (List.getElem?_eq_some_iff.1 read).1

theorem deep (represented : TreePage page tree) : tree.height < page.depthBound := by
  have bounded := BinaryTree.height_le_numNodes tree
  have roomy := represented.room
  rw [KeyPage.depthBound]
  omega

/-- A page has no free slot exactly when its tree fills it. -/
theorem getFree_eq_none_iff (represented : TreePage page tree) :
    page.getFree = none ↔ tree.numNodes = page.keys.length := by
  have roomy := represented.room
  constructor
  · intro full
    apply le_antisymm (by omega)
    rw [← length_slots, ← List.length_range (n := page.keys.length)]
    apply List.Subperm.length_le
    apply List.nodup_range.subperm
    intro index member
    have inside := List.mem_range.1 member
    by_contra outside
    have isFree := represented.free index outside _ (List.getElem?_eq_getElem inside)
    have noneFree := List.findIdx?_eq_none_iff.1 full _ (List.getElem_mem inside)
    simp [isFree] at noneFree
  · intro full
    cases free : page.getFree with
    | none => rfl
    | some index =>
        rw [free, full] at roomy
        simp at roomy

/-- The loop of `get` is the search in the tree. -/
theorem getAt_find {fuel : Nat} (key : Bytes) (deep : tree.height < fuel)
    (held : Holds page.keys tree) :
    KeyPage.getAt fuel page (rootSlot tree) key = (tree.find (keyOrder key)).map Cell.slot := by
  induction tree generalizing fuel with
  | nil =>
      cases fuel with
      | zero => simp at deep
      | succ fuel => rfl
  | node cell left right leftGet rightGet =>
      cases fuel with
      | zero => simp at deep
      | succ fuel =>
          simp only [BinaryTree.height] at deep
          simp only [rootSlot_node, KeyPage.getAt, KeyPage.key_linked held.linked,
            KeyPage.leftOf_linked held.linked, KeyPage.rightOf_linked held.linked, find, keyOrder]
          cases keycmp key cell.key with
          | lt => exact leftGet (by omega) held.2.1
          | eq => rfl
          | gt => exact rightGet (by omega) held.2.2

/-- The page finds the slot of the cell with the key. -/
theorem get_eq (represented : TreePage page tree) (key : Bytes) :
    page.get key = (tree.find (keyOrder key)).map Cell.slot := by
  rw [KeyPage.get, represented.root]
  exact getAt_find key represented.deep represented.held

theorem find_eq_some_iff (represented : TreePage page tree) (key : Bytes) (cell : Cell) :
    tree.find (keyOrder key) = some cell ↔ cell ∈ tree.toList ∧ cell.key = key := by
  rw [BinaryTree.find_eq_some_iff (represented.ascending.searchable key), keyOrder, keycmp_eq_iff]
  constructor
  · rintro ⟨member, same⟩
    exact ⟨member, same.symm⟩
  · rintro ⟨member, same⟩
    exact ⟨member, same.symm⟩

/-- An insertion into the page is an insertion into the tree. -/
theorem put_updates (represented : TreePage page tree) (key : Bytes) (voff : Off) :
    Updates (slots (insertTree page.getFree key voff tree)) page
      (KeyPage.putAt page.depthBound page page.root key voff)
      (insertTree page.getFree key voff tree)
      (((tree.find (keyOrder key)).map Cell.slot).or page.getFree)
      ((tree.find (keyOrder key)).elim
        (page.getFree.elim page.vcount fun _ => toShort (page.vcount + 1)) fun _ => page.vcount) := by
  have fits := represented.fits
  have roomy := represented.room
  rw [represented.root]
  exact KeyPage.putAt_updates key voff represented.deep represented.held
    (KeyPage.getFree_fresh represented.held represented.distinct) (by omega)

theorem toShort_succ (count : Nat) : toShort (toShort count + 1) = toShort (count + 1 : Nat) := by
  simp [toShort]

theorem toShort_pred (count : Nat) : toShort (toShort (count + 1 : Nat) - 1) = toShort count := by
  simp [toShort]

/-- The page after an insertion is represented by the tree after it. -/
theorem put (represented : TreePage page tree) (key : Bytes) (voff : Off) :
    TreePage (page.put key voff).1 (insertTree page.getFree key voff tree) where
  root := (represented.put_updates key voff).root
  held := (represented.put_updates key voff).held
  distinct := (insertTree_room key voff
    (KeyPage.getFree_fresh represented.held represented.distinct)
    (represented.room.trans represented.fits)).1
  ascending := by
    rw [toList_insert toList_balanceTree (represented.ascending.searchable key)]
    apply represented.ascending.around
    · cases (((tree.find (keyOrder key)).map (revalue voff)).or
        (offered page.getFree key voff)) <;> simp
    · intro cell member
      cases found : tree.find (keyOrder key) with
      | some old =>
          rw [found, Option.map_some, Option.some_or, Option.toList_some, List.mem_singleton] at member
          rw [member]
          exact ((represented.find_eq_some_iff key old).1 found).2
      | none =>
          cases free : page.getFree with
          | none => simp [found, free, offered] at member
          | some index =>
              simp only [found, free, offered, Option.map_none, Option.map_some, Option.none_or,
                Option.toList_some, List.mem_singleton] at member
              rw [member]
  free index outside record read := by
    rw [KeyPage.put_keys, (represented.put_updates key voff).frame.outside index outside] at read
    apply represented.free index _ record read
    intro inside
    apply outside
    exact (slots_insertTree page.getFree key voff tree).symm.subset (List.mem_append_right _ inside)
  vcount := by
    have counted := (slots_insertTree page.getFree key voff tree).length_eq
    rw [List.length_append, length_slots, length_slots] at counted
    rw [KeyPage.put_vcount, (represented.put_updates key voff).vcount, counted, represented.vcount]
    cases tree.find (keyOrder key) with
    | some cell => rw [Option.elim_some, Option.elim_some, List.length_nil, Nat.zero_add]
    | none =>
        rw [Option.elim_none, Option.elim_none]
        cases page.getFree with
        | none => rw [Option.elim_none, Option.toList_none, List.length_nil, Nat.zero_add]
        | some index =>
            rw [Option.elim_some, Option.toList_some, List.length_singleton, toShort_succ, Nat.add_comm]
  fits := by
    rw [KeyPage.put_keys, (represented.put_updates key voff).frame.length]
    exact represented.fits

/-- A removal from the page is a removal from the tree. -/
theorem remove_removes (represented : TreePage page tree) (key : Bytes) :
    Removes page (KeyPage.removeAt page.depthBound page page.root key) tree (removeTree key tree)
      (tree.removed (keyOrder key)) := by
  have fits := represented.fits
  have roomy := represented.room
  rw [represented.root]
  exact KeyPage.removeAt_removes key represented.deep represented.held represented.distinct
    (by omega)

/-- The page after a removal is represented by the tree after it. -/
theorem remove (represented : TreePage page tree) (key : Bytes) :
    TreePage (page.remove key).1 (removeTree key tree) where
  root := (represented.remove_removes key).root
  held := (represented.remove_removes key).held
  distinct := (removeTree_distinct key represented.distinct).1
  ascending := by
    have keys := map_toList_remove toList_balanceTree (represented.ascending.searchable key)
      relocate Cell.key (fun _ _ => rfl)
    have around := represented.ascending.around key [] (by simp) (by simp)
    rw [List.append_nil] at around
    rw [Ascending, ← List.pairwise_map (R := fun first second => keycmp first second = .lt)] at around ⊢
    rwa [keys]
  free index outside record read := by
    by_cases old : index ∈ slots tree
    · have left := (slots_removeTree key tree).subset old
      rcases List.mem_append.1 left with gone | kept
      · obtain ⟨cell, removed, rfl⟩ := Option.map_eq_some_iff.1 (Option.mem_toList.1 gone)
        have freed := (represented.remove_removes key).freed cell removed
        rw [KeyPage.remove_keys, freed] at read
        cases read
        rfl
      · exact absurd kept outside
    · rw [KeyPage.remove_keys, (represented.remove_removes key).frame.outside index old] at read
      exact represented.free index old record read
  vcount := by
    have counted := numNodes_removeTree key tree
    rw [KeyPage.remove_vcount, (represented.remove_removes key).vcount, represented.vcount, ← counted]
    cases tree.removed (keyOrder key) with
    | none => rw [Option.elim_none, Option.toList_none, List.length_nil, Nat.add_zero]
    | some cell => rw [Option.elim_some, Option.toList_some, List.length_singleton, toShort_pred]
  fits := by
    rw [KeyPage.remove_keys, (represented.remove_removes key).frame.length]
    exact represented.fits

end TreePage

/-- Every operation keeps a page represented. -/
theorem PageOp.apply_treePage {page : KeyPage} {tree : BinaryTree Cell}
    (represented : TreePage page tree) (op : PageOp) : ∃ next, TreePage (op.apply page) next := by
  cases op with
  | put key voff => exact ⟨_, represented.put key voff⟩
  | remove key => exact ⟨_, represented.remove key⟩

/-- Every sequence of operations keeps a page represented. -/
theorem foldl_treePage {page : KeyPage} {tree : BinaryTree Cell} (represented : TreePage page tree)
    (ops : List PageOp) : ∃ next, TreePage (ops.foldl PageOp.apply page) next := by
  induction ops generalizing page tree with
  | nil => exact ⟨tree, represented⟩
  | cons op rest restKeeps =>
      obtain ⟨next, step⟩ := op.apply_treePage represented
      exact restKeeps step

/-- A removal gives up the slot of its key exactly when the record has at most one child. -/
theorem removed_slot_iff {page : KeyPage} {tree : BinaryTree Cell} {key : Bytes} {cell : Cell}
    (held : Holds page.keys tree) (distinct : (slots tree).Nodup)
    (found : tree.find (keyOrder key) = some cell) :
    (tree.removed (keyOrder key)).map Cell.slot = some cell.slot ↔
      page.leftOf (some cell.slot) = none ∨ page.rightOf (some cell.slot) = none := by
  induction tree with
  | nil => simp [find] at found
  | node value left right leftSlot rightSlot =>
      have apart := distinct
      simp only [slots_node, List.nodup_append, List.nodup_cons, List.mem_cons, ne_eq] at apart
      simp only [find, removed] at found ⊢
      cases side : keyOrder key value with
      | lt =>
          simp only [side] at found ⊢
          exact leftSlot held.2.1 apart.1 found
      | gt =>
          simp only [side] at found ⊢
          exact rightSlot held.2.2 apart.2.1.2 found
      | eq =>
          simp only [side, Option.some.injEq] at found ⊢
          subst found
          rw [KeyPage.leftOf_linked held.linked, KeyPage.rightOf_linked held.linked]
          cases left with
          | nil => simp
          | node leftCell leftLeft leftRight =>
              cases right with
              | nil => simp
              | node rightCell rightLeft rightRight =>
                  cases largest : (BinaryTree.node leftCell leftLeft leftRight).maximum with
                  | none => simp [maximum_eq_none] at largest
                  | some top =>
                      have inside : top.slot ∈ slots (.node leftCell leftLeft leftRight) := by
                        rw [slots_removeMaxTree largest]
                        simp
                      have other := apart.2.2 top.slot inside value.slot (Or.inl rfl)
                      simpa [largest] using other

/-- The index that `remove` returns is the one `get` returned exactly when the record of the key
has at most one child. -/
theorem remove_index_iff_one_child (kpSize : Nat) (ops : List PageOp) (key : Bytes)
    (fits : numOfKeysInPage kpSize ≤ slotLimit)
    (present : (pageAfter kpSize ops).get key ≠ none) :
    ((pageAfter kpSize ops).remove key).2 = (pageAfter kpSize ops).get key ↔
      (pageAfter kpSize ops).leftOf ((pageAfter kpSize ops).get key) = none ∨
        (pageAfter kpSize ops).rightOf ((pageAfter kpSize ops).get key) = none := by
  obtain ⟨tree, represented⟩ := foldl_treePage (treePage_init fits) ops
  change TreePage (pageAfter kpSize ops) tree at represented
  have removal : ((pageAfter kpSize ops).remove key).2 =
      (tree.removed (keyOrder key)).map Cell.slot := (represented.remove_removes key).idx
  rw [represented.get_eq key] at present ⊢
  rw [removal]
  cases found : tree.find (keyOrder key) with
  | none => simp [found] at present
  | some cell =>
      rw [Option.map_some]
      exact removed_slot_iff represented.held represented.distinct found

/-- The page with the keys `a`, `b` and `c` has `b` at its root. -/
def threeKeys : List PageOp :=
  [.put [97] (some 0), .put [98] (some 256), .put [99] (some 512)]

/-- The key `a` has no child in that page. -/
theorem remove_index_iff_one_child_leaf :
    ((pageAfter 1024 threeKeys).remove [97]).2 = (pageAfter 1024 threeKeys).get [97] :=
  (remove_index_iff_one_child 1024 threeKeys [97] (by decide) (by decide)).2 (by decide)

/-- The removal of `b` gives up the slot of `a`. -/
theorem remove_index_two_children :
    (pageAfter 1024 threeKeys).get [98] = some 1 ∧
      ((pageAfter 1024 threeKeys).remove [98]).2 = some 0 := by
  decide

end SimpleNFast.Rdb
