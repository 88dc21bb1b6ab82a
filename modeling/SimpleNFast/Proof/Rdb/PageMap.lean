import SimpleNFast.Construction.Rdb.PageMap
import SimpleNFast.Proof.Rdb.PageEntries

namespace SimpleNFast.Rdb
open BinaryTree

namespace TreePage

variable {page : KeyPage} {tree : BinaryTree Cell}

/-- The slots of a subtree are reached from its root. -/
theorem reached_of_holds {part : BinaryTree Cell} (held : Holds page.keys part)
    (inside : ∀ index ∈ slots part, index < page.keys.length) : Reached page (rootSlot part) (slots part) := by
  induction part with
  | nil => exact Reached.nil
  | node cell left right leftReached rightReached =>
      rw [slots_node] at inside ⊢
      refine Reached.node (inside cell.slot (by simp)) ?_ ?_
      · rw [KeyPage.leftOf_linked held.linked]
        exact leftReached held.2.1 fun index member => inside index (by simp [member])
      · rw [KeyPage.rightOf_linked held.linked]
        exact rightReached held.2.2 fun index member => inside index (by simp [member])

theorem mem_slots_iff (represented : TreePage page tree) (index : Nat) :
    index ∈ slots tree ↔ index < page.keys.length ∧ (page.krec (some index)).flags = .inuse := by
  rw [represented.slots_perm.mem_iff, List.mem_filter, List.mem_range, beq_iff_eq]

/-- The keys along the slots are those of the cells. -/
theorem slots_ascending (represented : TreePage page tree) :
    (slots tree).Pairwise fun first second =>
      keycmp (page.krec (some first)).key (page.krec (some second)).key = .lt := by
  rw [slots, List.pairwise_map]
  refine List.Pairwise.imp_of_mem ?_ represented.ascending
  intro first second firstIn secondIn below
  obtain ⟨one, readOne, -, keyOne, -⟩ := represented.held.record firstIn
  obtain ⟨two, readTwo, -, keyTwo, -⟩ := represented.held.record secondIn
  rwa [KeyPage.krec_some readOne, KeyPage.krec_some readTwo, keyOne, keyTwo]

theorem isSearchTree (represented : TreePage page tree) : IsSearchTree page (slots tree) where
  reached := by
    rw [represented.root]
    exact reached_of_holds represented.held fun index member => represented.slot_lt member
  distinct := represented.distinct
  inuse := represented.mem_slots_iff
  ascending := represented.slots_ascending

/-- The free records are those that are not in use. -/
theorem freeCount (represented : TreePage page tree) :
    page.getFreeCount + tree.numNodes = page.keys.length := by
  have used : (page.keys.countP fun record => record.flags == .inuse) = tree.numNodes := by
    rw [← represented.card_entries, KeyPage.entries, Multiset.coe_card, List.length_map, List.countP_eq_length_filter]
  have others : (fun record : KeyRec => decide ¬((record.flags == .free) = true)) =
      fun record => record.flags == .inuse := by
    funext record
    cases record.flags <;> rfl
  rw [← used, KeyPage.getFreeCount, List.length_eq_countP_add_countP fun record : KeyRec => record.flags == .free,
    others]

theorem holdsAt (represented : TreePage page tree) {cell : Cell} (member : cell ∈ tree.toList) :
    page.HoldsAt (some cell.slot) cell.key cell.voff := by
  obtain ⟨record, read, inuse, sameKey, sameOff⟩ := represented.held.record member
  rw [KeyPage.HoldsAt, KeyPage.krec_some read]
  exact ⟨cell.slot, rfl, represented.slot_lt (List.mem_map_of_mem member), inuse, sameKey, sameOff⟩

/-- The record of a key that was put holds it in the slot that is returned. -/
theorem put_holdsAt (represented : TreePage page tree) {key : Bytes} {voff : Off}
    (placed : (page.put key voff).2 ≠ none) : (page.put key voff).1.HoldsAt (page.put key voff).2 key voff := by
  have index : (page.put key voff).2 = ((tree.find (keyOrder key)).map Cell.slot).or page.getFree :=
    (represented.put_updates key voff).idx
  have cells := @toList_insert _ _ (keyOrder key) toList_balanceTree tree
    (represented.ascending.searchable key) (offered page.getFree key voff) (revalue voff)
  have after := represented.put key voff
  rw [index] at placed ⊢
  cases found : tree.find (keyOrder key) with
  | some cell =>
      have same := ((represented.find_eq_some_iff key cell).1 found).2
      rw [found] at cells
      have member : revalue voff cell ∈ (insertTree page.getFree key voff tree).toList := by
        rw [cells]
        simp
      subst same
      exact after.holdsAt member
  | none =>
      cases free : page.getFree with
      | none => simp [found, free] at placed
      | some slot =>
          rw [found, free] at cells
          have member : ⟨slot, key, voff⟩ ∈ (insertTree page.getFree key voff tree).toList := by
            rw [free, cells]
            simp [offered]
          exact after.holdsAt member

end TreePage

/-- A page with the entries of a map. -/
structure RepresentsPage (capacity : Nat) (page : KeyPage) (map : OffMap) : Prop where
  sound : Sound capacity page
  entries : ∀ key voff, map key = some voff ↔ (key, voff) ∈ page.entries

namespace RepresentsPage

variable {capacity : Nat} {page : KeyPage} {map : OffMap}

theorem vcount (represented : RepresentsPage capacity page map) (few : capacity ≤ countLimit) :
    page.vcount = page.entries.card :=
  represented.sound.vcount (represented.sound.card_le.trans few)

theorem absent (represented : RepresentsPage capacity page map) (key : Bytes) :
    page.get key = none ↔ map key = none := by
  rw [represented.sound.get_eq_none, Option.eq_none_iff_forall_ne_some]
  constructor
  · intro none voff found
    exact none (key, voff) ((represented.entries key voff).1 found) rfl
  · rintro none ⟨other, voff⟩ member rfl
    exact none voff ((represented.entries other voff).2 member)

/-- The slot of a present key holds it. -/
theorem present (represented : RepresentsPage capacity page map) {key : Bytes} {voff : Off}
    (found : map key = some voff) : page.HoldsAt (page.get key) key voff := by
  obtain ⟨tree, held⟩ := represented.sound.tree
  have member := (represented.entries key voff).1 found
  rw [held.entries_eq, Multiset.mem_coe, List.mem_map] at member
  obtain ⟨cell, inside, same⟩ := member
  cases same
  rw [held.get_eq, (held.find_eq_some_iff cell.key cell).2 ⟨inside, rfl⟩]
  exact held.holdsAt inside

theorem placed (represented : RepresentsPage capacity page map) (few : capacity ≤ countLimit) (key : Bytes) (voff : Off)
    (room : page.vcount < capacity) : (page.put key voff).2 ≠ none := by
  rw [represented.vcount few] at room
  exact represented.sound.put_placed key voff (by omega)

/-- A call that is allowed keeps the entries those of the map. -/
theorem call (represented : RepresentsPage capacity page map) (few : capacity ≤ countLimit) (call : PageCall)
    (allowed : call.allowed page) : RepresentsPage capacity (call.run page).1 (map.after call) := by
  have sound := represented.sound
  cases call with
  | put key voff =>
      change page.vcount < page.keys.length at allowed
      rw [sound.length] at allowed
      refine ⟨sound.put key voff, fun other off => ?_⟩
      change Function.update map key (some voff) other = some off ↔ _
      rw [PageCall.run, sound.entries_put key voff (represented.placed few key voff allowed), Multiset.mem_cons, without,
        Multiset.mem_filter, ← represented.entries, Function.update_apply]
      by_cases same : other = key
      · simp [same, eq_comm]
      · simp [same]
  | get key => exact represented
  | remove key =>
      refine ⟨sound.remove key, fun other off => ?_⟩
      change Function.update map key none other = some off ↔ _
      rw [PageCall.run, sound.entries_remove, without, Multiset.mem_filter, ← represented.entries, Function.update_apply]
      by_cases same : other = key
      · simp [same]
      · simp [same]

theorem isPageMap (represented : RepresentsPage capacity page map) (few : capacity ≤ countLimit) :
    IsPageMap capacity page map where
  length := represented.sound.length
  tree := by
    obtain ⟨tree, held⟩ := represented.sound.tree
    refine ⟨slots tree, held.isSearchTree, ?_⟩
    rw [represented.vcount few, held.card_entries, length_slots]
  freeCount := by
    obtain ⟨tree, held⟩ := represented.sound.tree
    have parts := held.freeCount
    rw [represented.sound.length] at parts
    rw [represented.vcount few, held.card_entries]
    omega
  absent := represented.absent
  present _ _ found := represented.present found
  placed key voff room := by
    obtain ⟨tree, held⟩ := represented.sound.tree
    exact held.put_holdsAt (represented.placed few key voff room)

end RepresentsPage

theorem PageRun.represents {kpSize : Nat} (few : numOfKeysInPage kpSize ≤ countLimit) {page : KeyPage} {map : OffMap}
    (run : PageRun kpSize page map) : RepresentsPage (numOfKeysInPage kpSize) page map := by
  induction run with
  | init =>
      refine ⟨Sound.init (few.trans (by decide)), fun key voff => ?_⟩
      rw [entries_init]
      simp
  | call before call allowed represented => exact represented.call few call allowed

/-- A key page of at most 127 records is a finite map after any calls. -/
theorem keyPage_isPageMap (kpSize : Nat) (few : numOfKeysInPage kpSize ≤ 127) {page : KeyPage} {map : OffMap}
    (run : PageRun kpSize page map) : IsPageMap (numOfKeysInPage kpSize) page map :=
  (run.represents (few.trans (by decide))).isPageMap (few.trans (by decide))

/-- A page of fifteen records with one key. -/
theorem keyPage_isPageMap_oneKey : IsPageMap 15 ((KeyPage.init 1024).put [97] (some 0)).1
    (Function.update (fun _ => none) [97] (some (some 0))) :=
  keyPage_isPageMap 1024 (by decide) (PageRun.init.call (.put [97] (some 0)) (by decide))

end SimpleNFast.Rdb
