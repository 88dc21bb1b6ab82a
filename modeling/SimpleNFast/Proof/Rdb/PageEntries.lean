import SimpleNFast.Proof.Rdb.KeyPage

namespace SimpleNFast.Rdb
open BinaryTree

/-- The records in use, each as its key and its value offset. -/
def KeyPage.entries (page : KeyPage) : Multiset (Bytes × Off) :=
  ((page.keys.filter fun record => record.flags == .inuse).map fun record =>
    (record.key, record.voff) : List (Bytes × Off))

/-- The entries without a key. -/
def without (key : Bytes) (entries : Multiset (Bytes × Off)) : Multiset (Bytes × Off) :=
  entries.filter fun entry => entry.1 ≠ key

def Cell.entry (cell : Cell) : Bytes × Off := (cell.key, cell.voff)

/-- The cells beside a key are those with another key. -/
theorem beside_eq_without (key : Bytes) (cells : List Cell) :
    (((lower (keyOrder key) cells ++ upper (keyOrder key) cells).map Cell.entry : List (Bytes × Off)) :
      Multiset (Bytes × Off)) = without key (cells.map Cell.entry : List (Bytes × Off)) := by
  induction cells with
  | nil => rfl
  | cons cell rest restBeside =>
      simp only [lower, upper, without, keyOrder, List.map_append, ← Multiset.coe_add, List.filter_cons,
        List.map_cons, ← Multiset.cons_coe] at restBeside ⊢
      rw [Multiset.filter_cons]
      cases side : keycmp key cell.key with
      | lt =>
          have other : cell.key ≠ key := by
            intro same
            rw [same, keycmp_eq_iff.2 rfl] at side
            simp at side
          rw [← restBeside]
          simp [Cell.entry, other, ← Multiset.cons_coe]
      | gt =>
          have other : cell.key ≠ key := by
            intro same
            rw [same, keycmp_eq_iff.2 rfl] at side
            simp at side
          rw [← restBeside]
          simp [Cell.entry, other, ← Multiset.cons_coe, ← Multiset.singleton_add, add_assoc]
      | eq =>
          have same := keycmp_eq_iff.1 side
          rw [← restBeside]
          simp [Cell.entry, same]

namespace TreePage

variable {page : KeyPage} {tree : BinaryTree Cell}

/-- The slots of the tree are the places of the records in use. -/
theorem slots_perm (represented : TreePage page tree) :
    (slots tree).Perm ((List.range page.keys.length).filter fun index =>
      (page.krec (some index)).flags == .inuse) := by
  apply (List.perm_ext_iff_of_nodup represented.distinct (List.nodup_range.filter _)).2
  intro index
  simp only [List.mem_filter, List.mem_range, beq_iff_eq]
  constructor
  · intro member
    obtain ⟨cell, inside, rfl⟩ := List.mem_map.1 member
    obtain ⟨record, read, inuse, -⟩ := represented.held.record inside
    rw [KeyPage.krec_some read]
    exact ⟨represented.slot_lt member, inuse⟩
  · rintro ⟨inside, inuse⟩
    by_contra outside
    have read : page.keys[index]? = some page.keys[index] := List.getElem?_eq_getElem inside
    have free := represented.free index outside _ read
    rw [KeyPage.krec_some read, free] at inuse
    cases inuse

/-- The entries of a page are the cells of its tree. -/
theorem entries_eq (represented : TreePage page tree) :
    page.entries = (tree.toList.map Cell.entry : List (Bytes × Off)) := by
  have all : page.keys = (List.range page.keys.length).map fun index => page.krec (some index) := by
    apply List.ext_getElem?
    intro index
    by_cases inside : index < page.keys.length
    · have read : page.keys[index]? = some page.keys[index] := List.getElem?_eq_getElem inside
      rw [List.getElem?_map, List.getElem?_range inside, read, Option.map_some, KeyPage.krec_some read]
    · rw [List.getElem?_eq_none (by omega), List.getElem?_eq_none (by simp; omega)]
  have listed : (slots tree).map (fun index =>
      ((page.krec (some index)).key, (page.krec (some index)).voff)) = tree.toList.map Cell.entry := by
    rw [slots, List.map_map]
    apply List.map_congr_left
    intro cell member
    obtain ⟨record, read, -, sameKey, sameOff⟩ := represented.held.record member
    simp only [Function.comp_apply, KeyPage.krec_some read, sameKey, sameOff, Cell.entry]
  rw [← listed, KeyPage.entries]
  conv_lhs => rw [all]
  rw [List.filter_map, List.map_map]
  exact Multiset.coe_eq_coe.2 (represented.slots_perm.symm.map _)

/-- No key stands in two entries of a page. -/
theorem entries_nodup (represented : TreePage page tree) :
    (page.entries.map Prod.fst).Nodup := by
  rw [represented.entries_eq, Multiset.map_coe, List.map_map, Multiset.coe_nodup, List.nodup_map_iff_inj_on]
  · intro first firstIn second secondIn same
    have one := (represented.find_eq_some_iff first.key first).2 ⟨firstIn, rfl⟩
    have two := (represented.find_eq_some_iff first.key second).2 ⟨secondIn, same.symm⟩
    rw [one] at two
    exact Option.some.inj two
  · exact List.Nodup.of_map Cell.slot represented.distinct

theorem card_entries (represented : TreePage page tree) : page.entries.card = tree.numNodes := by
  rw [represented.entries_eq, Multiset.coe_card, List.length_map, length_toList]

/-- A removal drops the entry of its key. -/
theorem entries_remove (represented : TreePage page tree) (key : Bytes) :
    (page.remove key).1.entries = without key page.entries := by
  rw [(represented.remove key).entries_eq, represented.entries_eq, ← beside_eq_without]
  congr 1
  exact map_toList_remove toList_balanceTree (represented.ascending.searchable key) relocate
    Cell.entry (fun _ _ => rfl)

/-- An insertion that found a place adds its entry. -/
theorem entries_put (represented : TreePage page tree) (key : Bytes) (voff : Off)
    (placed : (page.put key voff).2 ≠ none) :
    (page.put key voff).1.entries = (key, voff) ::ₘ without key page.entries := by
  have index : (page.put key voff).2 =
      ((tree.find (keyOrder key)).map Cell.slot).or page.getFree :=
    (represented.put_updates key voff).idx
  rw [index] at placed
  rw [(represented.put key voff).entries_eq, represented.entries_eq, ← beside_eq_without,
    toList_insert toList_balanceTree (represented.ascending.searchable key), List.map_append,
    List.map_append, List.map_append, ← Multiset.coe_add, ← Multiset.coe_add, ← Multiset.coe_add,
    ← Multiset.singleton_add, add_assoc, add_left_comm]
  congr 1
  cases found : tree.find (keyOrder key) with
  | some cell =>
      have same := ((represented.find_eq_some_iff key cell).1 found).2
      simp [Cell.entry, revalue, same]
  | none =>
      cases free : page.getFree with
      | none => simp [found, free] at placed
      | some slot => simp [offered, Cell.entry]

end TreePage

/-- The largest number of records that `kp_vcount` can count. -/
def countLimit : Nat := 32767

theorem toShort_small {count : Nat} (small : count ≤ countLimit) : toShort count = count := by
  unfold countLimit at small
  unfold toShort
  rw [Int.bmod_eq_of_le]
  · omega
  · omega

/-- A sound page has the given number of records and a tree that represents it. -/
structure Sound (capacity : Nat) (page : KeyPage) : Prop where
  length : page.keys.length = capacity
  tree : ∃ tree, TreePage page tree

namespace Sound

variable {capacity : Nat} {page : KeyPage}

/-- The header fields that link a page do not matter for its tree. -/
theorem header (sound : Sound capacity page) (flags : Int) (hash : Nat) (poff noff : Off) :
    Sound capacity { page with flags := flags, hash := hash, poff := poff, noff := noff } := by
  obtain ⟨tree, represented⟩ := sound.tree
  exact ⟨sound.length, tree, { represented with }⟩

theorem init {kpSize : Nat} (fits : numOfKeysInPage kpSize ≤ slotLimit) :
    Sound (numOfKeysInPage kpSize) (KeyPage.init kpSize) where
  length := by simp [KeyPage.init, KeyPage.zero]
  tree := ⟨.nil, treePage_init fits⟩

theorem entries_nodup (sound : Sound capacity page) : (page.entries.map Prod.fst).Nodup := by
  obtain ⟨tree, represented⟩ := sound.tree
  exact represented.entries_nodup

theorem card_le (sound : Sound capacity page) : page.entries.card ≤ capacity := by
  obtain ⟨tree, represented⟩ := sound.tree
  have roomy := represented.room
  rw [represented.card_entries, ← sound.length]
  omega

/-- The count of a page wraps around. -/
theorem vcount_eq (sound : Sound capacity page) : page.vcount = toShort page.entries.card := by
  obtain ⟨tree, represented⟩ := sound.tree
  rw [represented.card_entries, represented.vcount]

/-- A page with few entries counts them. -/
theorem vcount (sound : Sound capacity page) (counted : page.entries.card ≤ countLimit) :
    page.vcount = page.entries.card := by
  rw [sound.vcount_eq, toShort_small counted]

/-- A page does not find a key exactly when no entry has it. -/
theorem get_eq_none (sound : Sound capacity page) {key : Bytes} :
    page.get key = none ↔ ∀ entry ∈ page.entries, entry.1 ≠ key := by
  obtain ⟨tree, represented⟩ := sound.tree
  rw [represented.get_eq, Option.map_eq_none_iff, represented.entries_eq, Option.eq_none_iff_forall_ne_some]
  simp only [ne_eq, represented.find_eq_some_iff, Multiset.mem_coe, List.mem_map, not_and,
    forall_exists_index, and_imp, forall_apply_eq_imp_iff₂, Cell.entry]

/-- A page finds a key in the record of its entry. -/
theorem get_eq_some (sound : Sound capacity page) {key : Bytes} {index : Nat}
    (found : page.get key = some index) :
    (key, (page.krec (some index)).voff) ∈ page.entries := by
  obtain ⟨tree, represented⟩ := sound.tree
  rw [represented.get_eq] at found
  obtain ⟨cell, located, rfl⟩ := Option.map_eq_some_iff.1 found
  obtain ⟨member, rfl⟩ := (represented.find_eq_some_iff _ cell).1 located
  obtain ⟨record, read, -, -, sameOff⟩ := represented.held.record member
  rw [KeyPage.krec_some read, sameOff, represented.entries_eq]
  exact Multiset.mem_coe.2 (List.mem_map_of_mem (f := Cell.entry) member)

/-- The removal of a key finds it exactly when a search does. -/
theorem remove_eq_none (sound : Sound capacity page) {key : Bytes} :
    (page.remove key).2 = none ↔ page.get key = none := by
  obtain ⟨tree, represented⟩ := sound.tree
  have index : (page.remove key).2 = (tree.removed (keyOrder key)).map Cell.slot :=
    (represented.remove_removes key).idx
  rw [index, represented.get_eq, Option.map_eq_none_iff, Option.map_eq_none_iff]
  exact removed_eq_none_iff (keyOrder key) tree

theorem remove (sound : Sound capacity page) (key : Bytes) : Sound capacity (page.remove key).1 := by
  obtain ⟨tree, represented⟩ := sound.tree
  refine ⟨?_, _, represented.remove key⟩
  rw [KeyPage.remove_keys, (represented.remove_removes key).frame.length]
  exact sound.length

theorem entries_remove (sound : Sound capacity page) (key : Bytes) :
    (page.remove key).1.entries = without key page.entries := by
  obtain ⟨tree, represented⟩ := sound.tree
  exact represented.entries_remove key

theorem put (sound : Sound capacity page) (key : Bytes) (voff : Off) :
    Sound capacity (page.put key voff).1 := by
  obtain ⟨tree, represented⟩ := sound.tree
  refine ⟨?_, _, represented.put key voff⟩
  rw [KeyPage.put_keys, (represented.put_updates key voff).frame.length]
  exact sound.length

theorem entries_put (sound : Sound capacity page) (key : Bytes) (voff : Off)
    (placed : (page.put key voff).2 ≠ none) :
    (page.put key voff).1.entries = (key, voff) ::ₘ without key page.entries := by
  obtain ⟨tree, represented⟩ := sound.tree
  exact represented.entries_put key voff placed

/-- A page with room finds a place. -/
theorem put_placed (sound : Sound capacity page) (key : Bytes) (voff : Off)
    (room : page.entries.card < capacity) : (page.put key voff).2 ≠ none := by
  obtain ⟨tree, represented⟩ := sound.tree
  have index : (page.put key voff).2 =
      ((tree.find (keyOrder key)).map Cell.slot).or page.getFree :=
    (represented.put_updates key voff).idx
  rw [index]
  intro nowhere
  have full := represented.getFree_eq_none_iff.1 (Option.or_eq_none_iff.1 nowhere).2
  rw [represented.card_entries] at room
  rw [full, sound.length] at room
  exact lt_irrefl _ room

end Sound

/-- An insertion keeps the header of a page. -/
theorem Sound.put_header {capacity : Nat} {page : KeyPage} (sound : Sound capacity page) (key : Bytes)
    (voff : Off) :
    (page.put key voff).1.flags = page.flags ∧ (page.put key voff).1.hash = page.hash ∧
      (page.put key voff).1.poff = page.poff ∧ (page.put key voff).1.noff = page.noff := by
  obtain ⟨tree, represented⟩ := sound.tree
  have frame := (represented.put_updates key voff).frame
  exact ⟨frame.flags, frame.hash, frame.poff, frame.noff⟩

/-- A removal keeps the header of a page. -/
theorem Sound.remove_header {capacity : Nat} {page : KeyPage} (sound : Sound capacity page)
    (key : Bytes) :
    (page.remove key).1.flags = page.flags ∧ (page.remove key).1.hash = page.hash ∧
      (page.remove key).1.poff = page.poff ∧ (page.remove key).1.noff = page.noff := by
  obtain ⟨tree, represented⟩ := sound.tree
  have frame := (represented.remove_removes key).frame
  exact ⟨frame.flags, frame.hash, frame.poff, frame.noff⟩

@[simp] theorem entries_init (kpSize : Nat) : (KeyPage.init kpSize).entries = 0 := by
  simp [KeyPage.entries, KeyPage.init, KeyPage.zero, KeyRec.zero]

end SimpleNFast.Rdb
