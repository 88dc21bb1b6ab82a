import SimpleNFast.Proof.Rdb.Geometry

namespace SimpleNFast.Rdb
open FreeStack LinkedList

/-- What links a page to its neighbours. -/
def links (item : Nat × KeyPage) : Nat × Off × Off := (item.1, item.2.poff, item.2.noff)

theorem joined_links {chain : Chain} :
    Joined Prod.fst (fun item => item.2.poff) (fun item => item.2.noff) none none chain ↔
      Joined Prod.fst (fun link : Nat × Off × Off => link.2.1) (fun link => link.2.2) none none
        (chain.map links) := by
  rw [joined_map]
  rfl

theorem without_absent {key : Bytes} {entries : Multiset (Bytes × Off)}
    (absent : ∀ entry ∈ entries, entry.1 ≠ key) : without key entries = entries :=
  Multiset.filter_eq_self.2 absent

namespace Geometry

variable {strict : Prop} {kpSize htSize : Nat} {idx later : List KeyPage} {stack : List Nat}
  {chains : Nat → Chain} {bucket target : Nat} {item : Nat × KeyPage} {fresh : Chain}

/-- The pages of a bucket change in their places and keep their links. -/
theorem refresh (geometry : Geometry strict kpSize htSize idx stack chains)
    (same : fresh.map links = (chains bucket).map links)
    (filled : ∀ item ∈ fresh, Filled kpSize later bucket item)
    (length : later.length = idx.length)
    (others : ∀ spot, spot * kpSize ∉ pageOffsets chains bucket → later[spot]? = idx[spot]?) :
    Geometry strict kpSize htSize later stack (Function.update chains bucket fresh) := by
  apply geometry.rewrite _ filled _ length others
  · have offsets := congrArg (List.map Prod.fst) same
    rwa [List.map_map, List.map_map] at offsets
  · rw [joined_links, same, ← joined_links]
    exact geometry.joined bucket

/-- Another page at one place. -/
theorem filled_set (geometry : Geometry strict kpSize htSize idx stack chains) {page : KeyPage}
    (there : (chains bucket)[target]? = some item) (filled : Filled kpSize later bucket (item.1, page))
    (same : ∀ spot, spot ≠ item.1 / kpSize → later[spot]? = idx[spot]?) :
    ∀ other ∈ (chains bucket).set target (item.1, page), Filled kpSize later bucket other := by
  intro other member
  obtain ⟨spot, found⟩ := List.mem_iff_getElem?.1 member
  rw [List.getElem?_set] at found
  split at found
  · split at found
    · cases found
      exact filled
    · cases found
  · rename_i differs
    have old := geometry.filled bucket other (List.mem_of_getElem? found)
    refine { old with stored := ?_ }
    rw [same]
    · exact old.stored
    · intro together
      exact differs (geometry.separate bucket bucket target spot item other there found together.symm).2

/-- The place of a page is one of its bucket. -/
theorem own_place (geometry : Geometry strict kpSize htSize idx stack chains)
    (member : item ∈ chains bucket) : item.1 / kpSize * kpSize ∈ pageOffsets chains bucket := by
  rw [geometry.offset_div member]
  exact Multiset.mem_coe.2 (List.mem_map_of_mem member)

theorem place_lt (geometry : Geometry strict kpSize htSize idx stack chains)
    (member : item ∈ chains bucket) : item.1 / kpSize < idx.length := by
  obtain ⟨index, bound, same⟩ := geometry.aligned member
  rw [← same, geometry.index_div]
  exact bound

/-- A page of a bucket is written, and the chain shows it. -/
theorem placed (geometry : Geometry strict kpSize htSize idx stack chains) {key : Bytes} {voff : Off}
    (there : (chains bucket)[target]? = some item)
    (room : item.2.entries.card < numOfKeysInPage kpSize) (counted : item.2.entries.card < countLimit)
    (absent : ∀ entry ∈ item.2.entries, entry.1 ≠ key) :
    Geometry strict kpSize htSize
      (PagedFile.writeAt (KeyPage.zero kpSize) idx (item.1 / kpSize) (item.2.put key voff).1) stack
      (replaced chains bucket target (item.1, (item.2.put key voff).1)) := by
  have member := List.mem_of_getElem? there
  have old := geometry.filled bucket item member
  have inside := geometry.place_lt member
  obtain ⟨flags, hash, poff, noff⟩ := old.sound.put_header key voff
  have entries := old.sound.entries_put key voff (old.sound.put_placed key voff room)
  rw [without_absent absent] at entries
  have written := PagedFile.getElem?_writeAt (KeyPage.zero kpSize) idx (item.2.put key voff).1 inside.le
  have length := PagedFile.length_writeAt (KeyPage.zero kpSize) idx (item.2.put key voff).1 inside.le
  rw [Nat.max_eq_left inside] at length
  apply geometry.refresh _ _ length
  · intro spot foreign
    rw [written, if_neg]
    rintro rfl
    exact foreign (geometry.own_place member)
  · rw [List.map_set]
    have same : links (item.1, (item.2.put key voff).1) = links item := by
      rw [links, poff, noff, links]
    rw [same]
    apply List.ext_getElem?
    intro spot
    rw [List.getElem?_set]
    split
    · rename_i here
      subst here
      rw [List.getElem?_map, there, Option.map_some, if_pos]
      rw [List.length_map]
      exact (List.getElem?_eq_some_iff.1 there).1
    · rfl
  · apply geometry.filled_set there
    · refine ⟨hash.trans old.hash, flags.trans old.flags, old.sound.put key voff, ?_, ?_, ?_⟩
      · rw [entries]
        exact Multiset.cons_ne_zero
      · rw [entries, Multiset.card_cons]
        exact counted
      · exact ⟨_, by rw [written, if_pos rfl], old.sound.put key voff, Twin.refl _⟩
    · intro spot differs
      rw [written, if_neg differs]

/-- The new last page of a chain. -/
def lastPage (kpSize bucket : Nat) (last : Off) (key : Bytes) (voff : Off) : KeyPage :=
  ({ KeyPage.init kpSize with hash := bucket, poff := last }.put key voff).1

theorem lastPage_filled (geometry : Geometry strict kpSize htSize idx stack chains) (bucket : Nat)
    (last : Off) (key : Bytes) (voff : Off) :
    Sound (numOfKeysInPage kpSize) (lastPage kpSize bucket last key voff) ∧
      ({ KeyPage.init kpSize with hash := bucket, poff := last }.put key voff).2 ≠ none ∧
      (lastPage kpSize bucket last key voff).entries = {(key, voff)} ∧
      (lastPage kpSize bucket last key voff).flags = 0 ∧
      (lastPage kpSize bucket last key voff).hash = bucket ∧
      (lastPage kpSize bucket last key voff).poff = last ∧
      (lastPage kpSize bucket last key voff).noff = none := by
  have start := (Sound.init geometry.fits).header 0 bucket last none
  have empty : KeyPage.entries { KeyPage.init kpSize with
      flags := 0, hash := bucket, poff := last, noff := none } = 0 := entries_init kpSize
  have placed : ({ KeyPage.init kpSize with hash := bucket, poff := last }.put key voff).2 ≠ none := by
    apply start.put_placed key voff
    rw [empty, Multiset.card_zero]
    have large := geometry.large
    unfold minKeyPageSize at large
    unfold numOfKeysInPage keyPageHdrSize
    omega
  have header := start.put_header key voff
  refine ⟨start.put key voff, placed, ?_, header.1, header.2.1, header.2.2.1, header.2.2.2⟩
  exact (start.entries_put key voff placed).trans
    (congrArg (fun entries => (key, voff) ::ₘ without key entries) empty)

/-- The chain with its new last page is linked. -/
theorem joined_linkLast (geometry : Geometry strict kpSize htSize idx stack chains) {offset : Nat}
    {page : KeyPage} (new : offset ∉ (chains bucket).map Prod.fst)
    (poff : page.poff = (chains bucket).getLast?.map Prod.fst) (noff : page.noff = none) :
    Joined Prod.fst (fun item => item.2.poff) (fun item => item.2.noff) none none
      (linkLast (chains bucket) offset ++ [(offset, page)]) := by
  have last : (chains bucket).getLast?.map Prod.fst ≠ some offset := by
    intro same
    apply new
    obtain ⟨item, final, named⟩ := Option.map_eq_some_iff.1 same
    rw [← named]
    exact List.mem_map_of_mem (List.mem_of_getLast? final)
  have whole : linkLast (chains bucket) offset ++ [(offset, page)] =
      (chains bucket ++ [(offset, page)]).map fun item => (item.1, { item.2 with
        noff := if (chains bucket).getLast?.map Prod.fst = some item.1 then some offset
          else item.2.noff }) := by
    rw [List.map_append, List.map_singleton, if_neg last]
    rfl
  rw [whole, joined_map]
  apply (geometry.joined bucket).append (geometry.distinct bucket)
  · rw [Option.or_none]
    exact poff
  · simp only [Function.comp_apply, if_neg last]
    exact noff
  · intro other member
    rfl
  · intro other member
    rfl

/-- A bucket gets a new last page, and its old last page points to it. -/
theorem extended (geometry : Geometry strict kpSize htSize idx stack chains) {key : Bytes} {voff : Off}
    {index : Nat} {rest : List Nat} (inside : bucket < htSize)
    (taken : FreeStack.take kpSize stack = some (index * kpSize, rest))
    (length : later.length = max idx.length (index + 1))
    (reads : ∀ spot, later[spot]? = if spot = index then
        some (lastPage kpSize bucket ((chains bucket).getLast?.map Prod.fst) key voff)
      else if (chains bucket).getLast?.map Prod.fst = some (spot * kpSize) then
        idx[spot]?.map fun page => { page with noff := some (index * kpSize) }
      else idx[spot]?) :
    Geometry strict kpSize htSize later rest (Function.update chains bucket
      (linkLast (chains bucket) (index * kpSize) ++
        [(index * kpSize, lastPage kpSize bucket ((chains bucket).getLast?.map Prod.fst) key voff)])) := by
  obtain ⟨unused, -⟩ := geometry.taken_unused taken
  have new : index * kpSize ∉ (chains bucket).map Prod.fst := by
    intro member
    apply unused
    obtain ⟨item, own, named⟩ := List.mem_map.1 member
    rw [← named]
    exact geometry.mem_offsets own
  obtain ⟨sound, -, entries, flags, hash, poff, noff⟩ :=
    geometry.lastPage_filled bucket ((chains bucket).getLast?.map Prod.fst) key voff
  apply geometry.grow inside taken _ _ (geometry.joined_linkLast new poff noff) length
  · intro spot differs foreign
    rw [reads, if_neg differs, if_neg]
    intro final
    apply foreign
    obtain ⟨item, member, named⟩ := Option.map_eq_some_iff.1 final
    rw [← named]
    exact Multiset.mem_coe.2 (List.mem_map_of_mem (List.mem_of_getLast? member))
  · rw [List.map_append, linkLast, List.map_map]
    rfl
  · intro item member
    rcases List.mem_append.1 member with linked | fresh
    · obtain ⟨old, own, rfl⟩ := List.mem_map.1 linked
      have filled := geometry.filled bucket old own
      obtain ⟨disk, read, diskSound, twin⟩ := filled.stored
      have differs : old.1 / kpSize ≠ index := by
        rintro rfl
        rw [geometry.offset_div own] at new
        exact new (List.mem_map_of_mem own)
      refine ⟨filled.hash, filled.flags, filled.sound.header _ _ _ _, filled.entries, filled.counted, ?_⟩
      simp only [reads, if_neg differs, geometry.offset_div own, read, Option.map_some]
      split
      · exact ⟨_, rfl, diskSound.header _ _ _ _, twin.flags, twin.hash, twin.poff, rfl, twin.entries⟩
      · exact ⟨disk, rfl, diskSound, twin⟩
    · obtain rfl := List.mem_singleton.1 fresh
      refine ⟨hash, flags, sound, ?_, ?_, ?_⟩
      · rw [entries]
        exact Multiset.singleton_ne_zero _
      · rw [entries, Multiset.card_singleton]
        decide
      · refine ⟨_, ?_, sound, Twin.refl _⟩
        rw [geometry.index_div, reads, if_pos rfl]

/-- A page without the key keeps its entries and its header when it is stripped. -/
theorem strip_filled (geometry : Geometry strict kpSize htSize idx stack chains) {key : Bytes}
    (member : item ∈ chains bucket) (absent : item.2.get key = none) :
    Filled kpSize idx bucket (strip key item) := by
  have old := geometry.filled bucket item member
  obtain ⟨flags, hash, poff, noff⟩ := old.sound.remove_header key
  have entries : (item.2.remove key).1.entries = item.2.entries := by
    rw [old.sound.entries_remove key, without_absent (old.sound.get_eq_none.1 absent)]
  obtain ⟨disk, read, sound, twin⟩ := old.stored
  refine ⟨hash.trans old.hash, flags.trans old.flags, old.sound.remove key, ?_, ?_, disk, read, sound, ?_⟩
  · rw [strip, entries]
    exact old.entries
  · rw [strip, entries]
    exact old.counted
  · exact ⟨twin.flags.trans flags.symm, twin.hash.trans hash.symm, twin.poff.trans poff.symm,
      twin.noff.trans noff.symm, twin.entries.trans entries.symm⟩

/-- The pages around the one that has the key stay filled. -/
theorem stripped_filled (geometry : Geometry strict kpSize htSize idx stack chains) {key : Bytes}
    (before : ∀ earlier other, earlier < target → (chains bucket)[earlier]? = some other →
      other.2.get key = none) {spot : Nat} {other : Nat × KeyPage} (differs : spot ≠ target)
    (found : (stripped key (chains bucket) (target + 1))[spot]? = some other) :
    Filled kpSize idx bucket other := by
  rw [stripped_get] at found
  obtain ⟨old, there, rfl⟩ := Option.map_eq_some_iff.1 found
  have member := List.mem_of_getElem? there
  split
  · exact geometry.strip_filled member (before spot old (by omega) there)
  · exact geometry.filled bucket old member

theorem links_stripped (geometry : Geometry strict kpSize htSize idx stack chains) (key : Bytes)
    (bucket count : Nat) :
    (stripped key (chains bucket) count).map links = (chains bucket).map links := by
  apply List.ext_getElem?
  intro spot
  rw [List.getElem?_map, stripped_get, List.getElem?_map, Option.map_map]
  apply Option.map_congr
  intro item there
  have member := List.mem_of_getElem? there
  obtain ⟨-, -, poff, noff⟩ := (geometry.filled bucket item member).sound.remove_header key
  simp only [Function.comp_apply]
  split
  · simp only [strip, links, poff, noff]
  · rfl

theorem offsets_stripped (geometry : Geometry strict kpSize htSize idx stack chains) (key : Bytes)
    (bucket count : Nat) :
    (stripped key (chains bucket) count).map Prod.fst = (chains bucket).map Prod.fst := by
  have same := congrArg (List.map Prod.fst) (geometry.links_stripped key bucket count)
  rwa [List.map_map, List.map_map] at same

/-- A page of the stripped chain stands at the place of its old page. -/
theorem stripped_separate (geometry : Geometry strict kpSize htSize idx stack chains) {key : Bytes}
    {spot count : Nat} {other : Nat × KeyPage} (there : (chains bucket)[target]? = some item)
    (differs : spot ≠ target) (found : (stripped key (chains bucket) count)[spot]? = some other) :
    other.1 / kpSize ≠ item.1 / kpSize ∧ other.1 / kpSize * kpSize = other.1 := by
  have place := congrArg (fun offsets => offsets[spot]?) (geometry.offsets_stripped key bucket count)
  simp only [List.getElem?_map, found, Option.map_some] at place
  obtain ⟨old, original, named⟩ := Option.map_eq_some_iff.1 place.symm
  rw [← named]
  refine ⟨?_, geometry.offset_div (List.mem_of_getElem? original)⟩
  intro together
  exact differs (geometry.separate bucket bucket spot target old item original there together).2

/-- A key leaves a page with other keys, and the page is written. -/
theorem removed (geometry : Geometry strict kpSize htSize idx stack chains) {key : Bytes}
    (there : (chains bucket)[target]? = some item)
    (before : ∀ earlier other, earlier < target → (chains bucket)[earlier]? = some other →
      other.2.get key = none)
    (some : (item.2.remove key).1.entries ≠ 0) :
    Geometry strict kpSize htSize
      (PagedFile.writeAt (KeyPage.zero kpSize) idx (item.1 / kpSize) (item.2.remove key).1) stack
      (Function.update chains bucket (stripped key (chains bucket) (target + 1))) := by
  have member := List.mem_of_getElem? there
  have old := geometry.filled bucket item member
  have inside := geometry.place_lt member
  have written := PagedFile.getElem?_writeAt (KeyPage.zero kpSize) idx (item.2.remove key).1 inside.le
  have length := PagedFile.length_writeAt (KeyPage.zero kpSize) idx (item.2.remove key).1 inside.le
  rw [Nat.max_eq_left inside] at length
  apply geometry.refresh (geometry.links_stripped key bucket _) _ length
  · intro spot foreign
    rw [written, if_neg]
    rintro rfl
    exact foreign (geometry.own_place member)
  · intro other inChain
    obtain ⟨spot, found⟩ := List.mem_iff_getElem?.1 inChain
    by_cases here : spot = target
    · subst here
      rw [stripped_get, there, Option.map_some, if_pos (by omega)] at found
      cases found
      obtain ⟨flags, hash, -, -⟩ := old.sound.remove_header key
      refine ⟨hash.trans old.hash, flags.trans old.flags, old.sound.remove key, some, ?_, ?_⟩
      · rw [strip, old.sound.entries_remove key]
        exact (Multiset.card_le_card (Multiset.filter_le _ _)).trans old.counted
      · exact ⟨_, by rw [strip, written, if_pos rfl], old.sound.remove key, Twin.refl _⟩
    · have filled := geometry.stripped_filled before here found
      refine { filled with stored := ?_ }
      rw [written, if_neg (geometry.stripped_separate there here found).1]
      exact filled.stored

/-- The links around a page that left its chain. -/
theorem joined_bypass (geometry : Geometry strict kpSize htSize idx stack chains) {fresh : Chain}
    {entry : Nat × KeyPage} (same : fresh.map links = (chains bucket).map links)
    (there : fresh[target]? = some entry) :
    Joined Prod.fst (fun item => item.2.poff) (fun item => item.2.noff) none none
      ((fresh.map (bypass entry.2)).eraseIdx target) := by
  obtain ⟨bound, rfl⟩ := List.getElem?_eq_some_iff.1 there
  have split : fresh = fresh.take target ++ fresh[target] :: fresh.drop (target + 1) := by
    rw [List.getElem_cons_drop, List.take_append_drop]
  have joined : Joined Prod.fst (fun item => item.2.poff) (fun item => item.2.noff) none none
      (fresh.take target ++ fresh[target] :: fresh.drop (target + 1)) := by
    rw [← split, joined_links, same, ← joined_links]
    exact geometry.joined bucket
  have distinct : ((fresh.take target ++ fresh[target] :: fresh.drop (target + 1)).map Prod.fst).Nodup := by
    have offsets := congrArg (List.map Prod.fst) same
    rw [List.map_map, List.map_map] at offsets
    have equal : fresh.map Prod.fst = (chains bucket).map Prod.fst := offsets
    rw [← split, equal]
    exact geometry.distinct bucket
  rw [List.eraseIdx_map, joined_map, List.eraseIdx_eq_take_drop_succ]
  apply joined.unlink distinct
  · intro other member same
    cases same
  · intro other member same
    cases same
  · intro other member
    rfl
  · intro other member
    rfl

/-- The neighbours of a page are pages of its bucket. -/
theorem neighbours (geometry : Geometry strict kpSize htSize idx stack chains)
    (there : (chains bucket)[target]? = some item) :
    (∀ offset, item.2.poff = some offset → offset ∈ pageOffsets chains bucket) ∧
      ∀ offset, item.2.noff = some offset → offset ∈ pageOffsets chains bucket := by
  constructor
  · intro offset back
    cases target with
    | zero =>
        rw [(geometry.joined bucket).prev_head there] at back
        cases back
    | succ target =>
        rw [(geometry.joined bucket).prev_succ there] at back
        obtain ⟨other, found, rfl⟩ := Option.map_eq_some_iff.1 back
        exact Multiset.mem_coe.2 (List.mem_map_of_mem (List.mem_of_getElem? found))
  · intro offset ahead
    rw [(geometry.joined bucket).next_eq there, Option.or_none] at ahead
    obtain ⟨other, found, rfl⟩ := Option.map_eq_some_iff.1 ahead
    exact Multiset.mem_coe.2 (List.mem_map_of_mem (List.mem_of_getElem? found))

/-- A page that lost its last key leaves its chain, and its neighbours are linked to each other. -/
theorem unlinked (geometry : Geometry strict kpSize htSize idx stack chains) {key : Bytes}
    (there : (chains bucket)[target]? = some item)
    (before : ∀ earlier other, earlier < target → (chains bucket)[earlier]? = some other →
      other.2.get key = none)
    (length : later.length = idx.length)
    (flagged : ∀ page, later[item.1 / kpSize]? = some page → page.isDeleted = true)
    (reads : ∀ spot, spot ≠ item.1 / kpSize → later[spot]? = idx[spot]?.map fun page => { page with
      poff := if item.2.noff = some (spot * kpSize) then item.2.poff else page.poff
      noff := if item.2.poff = some (spot * kpSize) then item.2.noff else page.noff }) :
    Geometry strict kpSize htSize later (item.1 :: stack) (Function.update chains bucket
      (((stripped key (chains bucket) (target + 1)).map (bypass (item.2.remove key).1)).eraseIdx target)) := by
  have member := List.mem_of_getElem? there
  obtain ⟨bound, -⟩ := List.getElem?_eq_some_iff.1 there
  obtain ⟨-, -, poff, noff⟩ := (geometry.filled bucket item member).sound.remove_header key
  have entry : (stripped key (chains bucket) (target + 1))[target]? = some (strip key item) := by
    rw [stripped_get, there, Option.map_some, if_pos (by omega)]
  have split : (chains bucket).map Prod.fst = ((chains bucket).map Prod.fst).take target ++
      item.1 / kpSize * kpSize :: ((chains bucket).map Prod.fst).drop (target + 1) := by
    have inside : target < ((chains bucket).map Prod.fst).length := by
      rw [List.length_map]
      exact bound
    have here : ((chains bucket).map Prod.fst)[target] = item.1 := by
      apply Option.some.inj
      rw [← List.getElem?_eq_getElem inside, List.getElem?_map, there, Option.map_some]
    rw [geometry.offset_div member, ← here, List.getElem_cons_drop, List.take_append_drop]
  rw [← geometry.offset_div member]
  apply geometry.shrink split
  · rw [List.eraseIdx_map, ← List.eraseIdx_eq_take_drop_succ, ← geometry.offsets_stripped key bucket (target + 1),
      List.eraseIdx_map, List.map_map]
    rfl
  · intro other inChain
    obtain ⟨spot, differs, found⟩ := List.mem_eraseIdx_iff_getElem?.1 inChain
    rw [List.getElem?_map] at found
    obtain ⟨old, original, rfl⟩ := Option.map_eq_some_iff.1 found
    obtain ⟨apart, aligned⟩ := geometry.stripped_separate there differs original
    have filled := geometry.stripped_filled before differs original
    obtain ⟨disk, read, sound, twin⟩ := filled.stored
    refine ⟨filled.hash, filled.flags, filled.sound.header _ _ _ _, filled.entries, filled.counted, ?_⟩
    have fresh := reads _ apart
    rw [read, Option.map_some] at fresh
    refine ⟨_, fresh, sound.header _ _ _ _, twin.flags, twin.hash, ?_, ?_, twin.entries⟩
    · simp only [bypass, aligned, poff, noff, twin.poff]
    · simp only [bypass, aligned, poff, noff, twin.noff]
  · exact geometry.joined_bypass (geometry.links_stripped key bucket _) entry
  · exact flagged
  · exact length
  · intro spot foreign
    rw [reads]
    · have forward : item.2.noff ≠ some (spot * kpSize) :=
        fun same => foreign ((geometry.neighbours there).2 _ same)
      have backward : item.2.poff ≠ some (spot * kpSize) :=
        fun same => foreign ((geometry.neighbours there).1 _ same)
      simp only [forward, backward, if_false]
      exact Option.map_id'
    · rintro rfl
      exact foreign (geometry.own_place member)

end Geometry

end SimpleNFast.Rdb
