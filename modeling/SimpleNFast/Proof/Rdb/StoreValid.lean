import SimpleNFast.Proof.Rdb.Geometry
import SimpleNFast.Proof.Rdb.PageChange

namespace SimpleNFast.Rdb
open FreeStack LinkedList

/-- The records of all pages of a chain. -/
def chainRecords (chain : Chain) : Multiset (Bytes × Off) :=
  Multiset.join (chain.map fun item => item.2.entries : List (Multiset (Bytes × Off)))

theorem mem_chainRecords {chain : Chain} {entry : Bytes × Off} :
    entry ∈ chainRecords chain ↔ ∃ item ∈ chain, entry ∈ item.2.entries := by
  simp [chainRecords, Multiset.mem_join]

/-- The records of a page and those of the other pages. -/
theorem chainRecords_split {chain : Chain} {place : Nat} {item : Nat × KeyPage}
    (there : chain[place]? = some item) :
    ∃ rest, chainRecords chain = item.2.entries + rest ∧ chainRecords (chain.eraseIdx place) = rest ∧
      ∀ other, chainRecords (chain.set place other) = other.2.entries + rest := by
  obtain ⟨bound, rfl⟩ := List.getElem?_eq_some_iff.1 there
  refine ⟨chainRecords (chain.take place) + chainRecords (chain.drop (place + 1)), ?_, ?_, ?_⟩
  · have split : chain = chain.take place ++ chain[place] :: chain.drop (place + 1) := by
      rw [List.getElem_cons_drop, List.take_append_drop]
    conv_lhs => rw [split]
    simp only [chainRecords, List.map_append, List.map_cons, ← Multiset.coe_add, Multiset.join_add,
      ← Multiset.cons_coe, Multiset.join_cons]
    rw [add_left_comm]
  · rw [List.eraseIdx_eq_take_drop_succ]
    simp only [chainRecords, List.map_append, ← Multiset.coe_add, Multiset.join_add]
  · intro other
    rw [List.set_eq_take_append_cons_drop, if_pos bound]
    simp only [chainRecords, List.map_append, List.map_cons, ← Multiset.coe_add, Multiset.join_add,
      ← Multiset.cons_coe, Multiset.join_cons]
    rw [add_left_comm]

theorem chainRecords_congr {chain fresh : Chain}
    (same : fresh.map (fun item => item.2.entries) = chain.map fun item => item.2.entries) :
    chainRecords fresh = chainRecords chain := by
  rw [chainRecords, same, chainRecords]

/-- The records of each bucket of a store. -/
def Store.records (store : Store) : Records := fun bucket => chainRecords (store.chains bucket)

/-- The pages and the values of a store are in order. -/
structure Valid (strict : Prop) (store : Store) : Prop where
  table : 0 < store.htSize
  geometry : Geometry strict store.kpSize store.htSize store.idx store.keyFdp store.chains
  content : Content strict store.htSize store.db store.valueFdp store.records

/-- The store represents a finite map. -/
def Store.Holds (store : Store) (map : Bytes → Option Bytes) : Prop :=
  Represents store.htSize store.db store.records map

section Search

variable {store : Store} {key : Bytes} {place : Nat}

theorem Store.find_eq_none : store.find key = none ↔
    ∀ item ∈ store.chains (store.home key), item.2.get key = none := by
  simp [Store.find]

theorem Store.find_eq_some : store.find key = some place ↔
    (∃ item index, (store.chains (store.home key))[place]? = some item ∧ item.2.get key = some index) ∧
      ∀ earlier other, earlier < place → (store.chains (store.home key))[earlier]? = some other →
        other.2.get key = none := by
  rw [Store.find, List.findIdx?_eq_some_iff_getElem]
  constructor
  · rintro ⟨bound, hit, before⟩
    obtain ⟨index, found⟩ := Option.isSome_iff_exists.1 hit
    refine ⟨⟨_, index, List.getElem?_eq_getElem bound, found⟩, ?_⟩
    intro earlier other below there
    obtain ⟨inside, rfl⟩ := List.getElem?_eq_some_iff.1 there
    simpa using before earlier below
  · rintro ⟨⟨item, index, there, hit⟩, before⟩
    obtain ⟨bound, rfl⟩ := List.getElem?_eq_some_iff.1 there
    refine ⟨bound, by rw [hit]; rfl, ?_⟩
    intro earlier below
    simpa using before earlier _ below (List.getElem?_eq_getElem (below.trans bound))

theorem Store.room_eq_none : store.room key = none ↔
    ∀ item ∈ store.chains (store.home key), ¬ Roomy store.kpSize item.2 := by
  simp [Store.room, Roomy]

theorem Store.room_eq_some : store.room key = some place ↔
    (∃ item, (store.chains (store.home key))[place]? = some item ∧ Roomy store.kpSize item.2) ∧
      ∀ earlier other, earlier < place → (store.chains (store.home key))[earlier]? = some other →
        ¬ Roomy store.kpSize other.2 := by
  simp only [Store.room, List.findIdx?_eq_some_iff_getElem, decide_eq_true_eq, Roomy]
  constructor
  · rintro ⟨bound, hit, before⟩
    refine ⟨⟨_, List.getElem?_eq_getElem bound, hit⟩, ?_⟩
    intro earlier other below there
    obtain ⟨inside, rfl⟩ := List.getElem?_eq_some_iff.1 there
    exact before earlier below
  · rintro ⟨⟨item, there, hit⟩, before⟩
    obtain ⟨bound, rfl⟩ := List.getElem?_eq_some_iff.1 there
    refine ⟨bound, hit, ?_⟩
    intro earlier below
    exact before earlier _ below (List.getElem?_eq_getElem (below.trans bound))

theorem Store.item_eq {item : Nat × KeyPage} (there : (store.chains (store.home key))[place]? = some item) :
    store.item key place = item := by
  rw [Store.item, there, Option.getD_some]

end Search

namespace Valid

variable {strict : Prop} {store : Store} {key value : Bytes} {place : Nat} {item : Nat × KeyPage}
  {map : Bytes → Option Bytes}

theorem weaken (valid : Valid strict store) : Valid False store where
  table := valid.table
  geometry := { valid.geometry with pages := valid.geometry.pages.weaken }
  content := { valid.content with pages := valid.content.pages.weaken }

theorem mono {later : Prop} (valid : Valid strict store) (implies : later → strict) : Valid later store := by
  by_cases holds : later
  · rw [show later = strict from propext ⟨fun _ => implies holds, fun _ => holds⟩]
    exact valid
  · rw [eq_false holds]
    exact valid.weaken

theorem home_lt (valid : Valid strict store) (key : Bytes) : store.home key < store.htSize :=
  Nat.mod_lt _ valid.table

theorem sound (valid : Valid strict store) {bucket : Nat} (member : item ∈ store.chains bucket) :
    Sound (numOfKeysInPage store.kpSize) item.2 :=
  (valid.geometry.filled bucket item member).sound

/-- A key that is not found has no record. -/
theorem absent (valid : Valid strict store) (missing : store.find key = none) :
    ∀ entry ∈ store.records (store.home key), entry.1 ≠ key := by
  intro entry member
  obtain ⟨item, inside, recorded⟩ := mem_chainRecords.1 member
  exact (valid.sound inside).get_eq_none.1 (Store.find_eq_none.1 missing item inside) entry recorded

/-- A key that is found has a record with the offset of its value page. -/
theorem record (valid : Valid strict store) (found : store.find key = some place) :
    ∃ item index spot value, (store.chains (store.home key))[place]? = some item ∧
      item.2.get key = some index ∧ (item.2.krec (some index)).voff = some (spot * valuePageSize) ∧
      store.offset key place = spot * valuePageSize ∧
      (key, some (spot * valuePageSize)) ∈ item.2.entries ∧
      (key, some (spot * valuePageSize)) ∈ store.records (store.home key) ∧
      store.db[spot]? = some (ValuePage.init key value) ∧ rejected key = false ∧ rejected value = false := by
  obtain ⟨⟨item, index, there, hit⟩, -⟩ := Store.find_eq_some.1 found
  have member := List.mem_of_getElem? there
  have entry := (valid.sound member).get_eq_some hit
  have recorded : (key, (item.2.krec (some index)).voff) ∈ store.records (store.home key) :=
    mem_chainRecords.2 ⟨item, member, entry⟩
  obtain ⟨offset, value, voff, page, fineKey, fine⟩ := valid.content.live _ _ recorded
  change (item.2.krec (some index)).voff = some offset at voff
  rw [voff] at entry recorded
  obtain ⟨spot, -, rfl⟩ := valid.content.place_lt recorded
  rw [Content.offset_index] at page
  refine ⟨item, index, spot, value, there, hit, voff, ?_, entry, recorded, page, fineKey, fine⟩
  rw [Store.offset, Store.item_eq there, hit, voff, Option.getD_some]

/-- A key is found exactly when the map has it. -/
theorem find_iff (valid : Valid strict store) (holds : store.Holds map) :
    store.find key = none ↔ map key = none := by
  constructor
  · intro missing
    rw [Option.eq_none_iff_forall_ne_some]
    intro value some
    obtain ⟨offset, member, -⟩ := (holds key value).1 some
    exact valid.absent missing _ member rfl
  · intro empty
    cases found : store.find key with
    | none => rfl
    | some place =>
        obtain ⟨item, index, spot, value, -, -, -, -, -, member, page, -⟩ := valid.record found
        have some := (holds key value).2 ⟨spot * valuePageSize, member, by rw [Content.offset_index]; exact page⟩
        rw [empty] at some
        cases some

/-- A write over the value of a key. -/
theorem overwrite (valid : Valid strict store) (holds : store.Holds map)
    (found : store.find key = some place) (fine : rejected value = false) :
    Valid strict (store.writeValue (store.offset key place) (ValuePage.init key value)) ∧
      (store.writeValue (store.offset key place) (ValuePage.init key value)).Holds
        (Function.update map key (some value)) := by
  obtain ⟨item, index, spot, old, -, -, -, offset, -, member, page, -⟩ := valid.record found
  have inside := (List.getElem?_eq_some_iff.1 page).1
  have written := PagedFile.getElem?_writeAt ValuePage.zero store.db (ValuePage.init key value) inside.le
  have length := PagedFile.length_writeAt ValuePage.zero store.db (ValuePage.init key value) inside.le
  rw [Nat.max_eq_left inside] at length
  rw [offset, Store.writeValue, Content.offset_index]
  have same : ∀ other, other ≠ spot → (PagedFile.writeAt ValuePage.zero store.db spot
      (ValuePage.init key value))[other]? = store.db[other]? := by
    intro other differs
    rw [written, if_neg differs]
  constructor
  · exact ⟨valid.table, valid.geometry,
      valid.content.overwrite member fine (by rw [written, if_pos rfl]) length same⟩
  · exact valid.content.represents_overwrite holds member (by rw [written, if_pos rfl]) same

end Valid

/-- A new chain changes the records of its bucket only. -/
theorem Store.records_of_chains (store later : Store) {bucket : Nat} {fresh : Chain}
    (changed : later.chains = Function.update store.chains bucket fresh) :
    later.records = Function.update store.records bucket (chainRecords fresh) := by
  unfold Store.records
  rw [changed]
  exact Function.comp_update chainRecords store.chains bucket fresh

/-- The entries of a linked or bypassed page are those of the page. -/
theorem chainRecords_linkLast (chain : Chain) (offset : Nat) :
    chainRecords (linkLast chain offset) = chainRecords chain := by
  apply chainRecords_congr
  rw [linkLast, List.map_map]
  rfl

theorem chainRecords_append (chain : Chain) (item : Nat × KeyPage) :
    chainRecords (chain ++ [item]) = item.2.entries + chainRecords chain := by
  rw [chainRecords, List.map_append, List.map_singleton, ← Multiset.coe_add, Multiset.join_add, add_comm]
  simp [chainRecords]

namespace Valid

variable {strict : Prop} {store : Store} {key value : Bytes} {place target : Nat}
  {item : Nat × KeyPage} {map : Bytes → Option Bytes}

/-- A page with room counts its records right. -/
theorem roomy (valid : Valid strict store) {bucket : Nat} (member : item ∈ store.chains bucket) :
    Roomy store.kpSize item.2 ↔ item.2.entries.card < numOfKeysInPage store.kpSize := by
  have filled := valid.geometry.filled bucket item member
  rw [Roomy, filled.sound.vcount filled.counted]
  exact Nat.cast_lt

/-- The value page of a new key is written. -/
theorem taken (valid : Valid strict store) (holds : store.Holds map) (missing : store.find key = none)
    (fineKey : rejected key = false) (fine : rejected value = false) :
    ∃ index rest, FreeStack.take valuePageSize store.valueFdp = some (index * valuePageSize, rest) ∧
      index ≤ store.db.length ∧
      Content strict store.htSize
        (PagedFile.writeAt ValuePage.zero store.db index (ValuePage.init key value)) rest
        (Function.update store.records (store.home key)
          ((key, some (index * valuePageSize)) ::ₘ store.records (store.home key))) ∧
      Represents store.htSize
        (PagedFile.writeAt ValuePage.zero store.db index (ValuePage.init key value))
        (Function.update store.records (store.home key)
          ((key, some (index * valuePageSize)) ::ₘ store.records (store.home key)))
        (Function.update map key (some value)) := by
  obtain ⟨index, rest, top, -, reached, -⟩ := valid.content.pages.take (by decide)
  have written := PagedFile.getElem?_writeAt ValuePage.zero store.db (ValuePage.init key value) reached
  have length := PagedFile.length_writeAt ValuePage.zero store.db (ValuePage.init key value) reached
  have same : ∀ other, other ≠ index → (PagedFile.writeAt ValuePage.zero store.db index
      (ValuePage.init key value))[other]? = store.db[other]? := by
    intro other differs
    rw [written, if_neg differs]
  refine ⟨index, rest, top, reached, ?_, ?_⟩
  · exact valid.content.insert valid.table (valid.absent missing) fineKey fine top
      (by rw [written, if_pos rfl]) length same
  · exact valid.content.represents_insert holds (valid.absent missing) top
      (by rw [written, if_pos rfl]) same

/-- The records after a page got a new key. -/
theorem records_place (valid : Valid strict store) (missing : store.find key = none) {voff : Nat}
    (there : (store.chains (store.home key))[target]? = some item) (room : Roomy store.kpSize item.2) :
    chainRecords ((store.chains (store.home key)).set target (item.1, (item.2.put key (some voff)).1)) =
      (key, some voff) ::ₘ store.records (store.home key) := by
  have member := List.mem_of_getElem? there
  have sound := valid.sound member
  have none := Store.find_eq_none.1 missing item member
  obtain ⟨rest, before, -, after⟩ := chainRecords_split there
  rw [after, Store.records, before,
    sound.entries_put key (some voff) (sound.put_placed key _ ((valid.roomy member).1 room)),
    without_absent (sound.get_eq_none.1 none), Multiset.cons_add]

/-- The file after the new last page was written and linked. -/
theorem extend_reads {index : Nat} {page : KeyPage} {last : Off} (valid : Valid strict store)
    (reached : index ≤ store.idx.length) (bucket : Nat)
    (final : last = (store.chains bucket).getLast?.map Prod.fst)
    (unused : index * store.kpSize ∉ total store.htSize (pageOffsets store.chains)) (spot : Nat) :
    ((store.writeKeys (index * store.kpSize) page).patched last fun other =>
        { other with noff := some (index * store.kpSize) })[spot]? =
      if spot = index then some page
      else if last = some (spot * store.kpSize) then
        store.idx[spot]?.map fun other => { other with noff := some (index * store.kpSize) }
      else store.idx[spot]? := by
  have written := PagedFile.getElem?_writeAt (KeyPage.zero store.kpSize) store.idx page reached
  have positive := valid.geometry.positive
  cases last with
  | none =>
      simp only [Store.patched, Store.writeKeys, valid.geometry.index_div, written, reduceCtorEq, if_false]
  | some offset =>
      obtain ⟨item, member, named⟩ := Option.map_eq_some_iff.1 final.symm
      have own := List.mem_of_getLast? member
      have aligned := valid.geometry.offset_div own
      rw [named] at aligned
      simp only [Store.patched, Store.writeKeys, valid.geometry.index_div, List.getElem?_modify, written]
      by_cases new : spot = index
      · subst new
        have differs : offset / store.kpSize ≠ spot := by
          rintro rfl
          apply unused
          rw [aligned, ← named]
          exact valid.geometry.mem_offsets own
        simp [differs]
      · by_cases here : offset / store.kpSize = spot
        · have same : offset = spot * store.kpSize := by rw [← here, aligned]
          simp [new, same, Nat.mul_div_cancel _ positive]
        · have other : offset ≠ spot * store.kpSize := by
            rintro rfl
            exact here (Nat.mul_div_cancel _ positive)
          simp [new, here, other]

theorem extend_length {index : Nat} {page : KeyPage} {last : Off} {change : KeyPage → KeyPage}
    (valid : Valid strict store) (reached : index ≤ store.idx.length) :
    ((store.writeKeys (index * store.kpSize) page).patched last change).length =
      max store.idx.length (index + 1) := by
  have length := PagedFile.length_writeAt (KeyPage.zero store.kpSize) store.idx page reached
  cases last with
  | none => simp only [Store.patched, Store.writeKeys, valid.geometry.index_div, length]
  | some offset =>
      simp only [Store.patched, Store.writeKeys, valid.geometry.index_div, List.length_modify, length]

theorem place_eq {voff : Nat} (there : (store.chains (store.home key))[target]? = some item) :
    store.place key voff target = { store with
      idx := PagedFile.writeAt (KeyPage.zero store.kpSize) store.idx (item.1 / store.kpSize)
        (item.2.put key (some voff)).1
      chains := replaced store.chains (store.home key) target (item.1, (item.2.put key (some voff)).1) } := by
  simp only [Store.place, Store.item_eq there]
  rfl

theorem extend_eq {voff index : Nat} {rest : List Nat}
    (taken : FreeStack.take store.kpSize store.keyFdp = some (index * store.kpSize, rest)) :
    store.extend key voff = { store with
      keyFdp := rest
      idx := (store.writeKeys (index * store.kpSize) (Geometry.lastPage store.kpSize (store.home key)
          ((store.chains (store.home key)).getLast?.map Prod.fst) key (some voff))).patched
        ((store.chains (store.home key)).getLast?.map Prod.fst)
        fun other => { other with noff := some (index * store.kpSize) }
      chains := Function.update store.chains (store.home key)
        (linkLast (store.chains (store.home key)) (index * store.kpSize) ++
          [(index * store.kpSize, Geometry.lastPage store.kpSize (store.home key)
            ((store.chains (store.home key)).getLast?.map Prod.fst) key (some voff))]) } := by
  simp only [Store.extend, taken]
  rfl

/-- A page with room takes the record of a new key. -/
theorem geometry_place (valid : Valid strict store) (missing : store.find key = none) (voff : Nat)
    (there : (store.chains (store.home key))[target]? = some item) (room : Roomy store.kpSize item.2)
    (counted : item.2.entries.card < countLimit) :
    Geometry strict store.kpSize store.htSize
      (PagedFile.writeAt (KeyPage.zero store.kpSize) store.idx (item.1 / store.kpSize)
        (item.2.put key (some voff)).1) store.keyFdp
      (replaced store.chains (store.home key) target (item.1, (item.2.put key (some voff)).1)) := by
  have member := List.mem_of_getElem? there
  apply valid.geometry.placed there ((valid.roomy member).1 room) counted
  exact (valid.sound member).get_eq_none.1 (Store.find_eq_none.1 missing item member)

/-- A new last page takes the record of a new key. -/
theorem geometry_extend (valid : Valid strict store) (key : Bytes) (voff : Nat) {index : Nat} {rest : List Nat}
    (taken : FreeStack.take store.kpSize store.keyFdp = some (index * store.kpSize, rest)) :
    Geometry strict store.kpSize store.htSize (store.extend key voff).idx rest
      (store.extend key voff).chains := by
  obtain ⟨unused, reached⟩ := valid.geometry.taken_unused taken
  rw [extend_eq taken]
  apply valid.geometry.extended (valid.home_lt key) taken (valid.extend_length reached)
  intro spot
  exact valid.extend_reads reached (store.home key) rfl unused spot

theorem records_extend (valid : Valid strict store) (voff : Nat) {index : Nat} {rest : List Nat}
    (taken : FreeStack.take store.kpSize store.keyFdp = some (index * store.kpSize, rest)) :
    (store.extend key voff).records = Function.update store.records (store.home key)
      ((key, some voff) ::ₘ store.records (store.home key)) := by
  obtain ⟨-, -, entries, -⟩ := valid.geometry.lastPage_filled (store.home key)
    ((store.chains (store.home key)).getLast?.map Prod.fst) key (some voff)
  rw [extend_eq taken, Store.records_of_chains store _ rfl, chainRecords_append, chainRecords_linkLast, entries,
    Multiset.singleton_add]
  rfl

section Equations

variable {index : Nat} {rest : List Nat}
  (top : FreeStack.take valuePageSize store.valueFdp = some (index * valuePageSize, rest))
include top

/-- A new key finds a page with room. -/
theorem insert_place (room : store.room key = some target) :
    store.insert key value = { store.place key (index * valuePageSize) target with
      db := PagedFile.writeAt ValuePage.zero store.db index (ValuePage.init key value)
      valueFdp := rest } := by
  simp only [Store.insert, top, room, Store.writeValue, Content.offset_index]
  rfl

/-- A new key needs a new page. -/
theorem insert_extend (room : store.room key = none) :
    store.insert key value = { store.extend key (index * valuePageSize) with
      db := PagedFile.writeAt ValuePage.zero store.db index (ValuePage.init key value)
      valueFdp := rest } := by
  simp only [Store.insert, top, room, Store.writeValue, Content.offset_index, Store.extend]
  cases FreeStack.take store.kpSize store.keyFdp with
  | none => rfl
  | some found => rfl

end Equations

/-- A new key enters the store. -/
theorem insert (valid : Valid strict store) (holds : store.Holds map) (missing : store.find key = none)
    (fineKey : rejected key = false) (fine : rejected value = false)
    (counted : ∀ item ∈ store.chains (store.home key), Roomy store.kpSize item.2 →
      item.2.entries.card < countLimit) :
    Valid strict (store.insert key value) ∧
      (store.insert key value).Holds (Function.update map key (some value)) := by
  obtain ⟨index, rest, top, -, content, represents⟩ := valid.taken holds missing fineKey fine
  cases room : store.room key with
  | some target =>
      obtain ⟨⟨item, there, roomy⟩, -⟩ := Store.room_eq_some.1 room
      have member := List.mem_of_getElem? there
      have geometry := valid.geometry_place missing (index * valuePageSize) there roomy
        (counted item member roomy)
      rw [insert_place top room, place_eq there]
      have records := Store.records_of_chains store { store with
        chains := replaced store.chains (store.home key) target
          (item.1, (item.2.put key (some (index * valuePageSize))).1) } rfl
      rw [valid.records_place missing there roomy] at records
      rw [← records] at content represents
      exact ⟨⟨valid.table, geometry, content⟩, represents⟩
  | none =>
      obtain ⟨spot, left, taken, -⟩ := valid.geometry.pages.take valid.geometry.positive
      have geometry := valid.geometry_extend key (index * valuePageSize) taken
      rw [← valid.records_extend (index * valuePageSize) taken] at content represents
      rw [insert_extend top room]
      rw [extend_eq taken] at geometry content represents ⊢
      exact ⟨⟨valid.table, geometry, content⟩, represents⟩

/-- A page of the file after a change of one page. -/
theorem patched_get (store : Store) (offset : Off) (change : KeyPage → KeyPage) (spot : Nat) :
    (store.patched offset change)[spot]? =
      if offset.map (· / store.kpSize) = some spot then store.idx[spot]?.map change else store.idx[spot]? := by
  cases offset with
  | none => simp [Store.patched]
  | some place =>
      simp only [Store.patched, List.getElem?_modify, Option.map_some, Option.some.injEq]
      split
      · rfl
      · simp

theorem patched_length (store : Store) (offset : Off) (change : KeyPage → KeyPage) :
    (store.patched offset change).length = store.idx.length := by
  cases offset with
  | none => rfl
  | some place => simp [Store.patched]

/-- The offset of a page of the bucket names its place. -/
theorem named_place (valid : Valid strict store) {bucket spot : Nat} {offset : Off}
    (own : ∀ place, offset = some place → place ∈ pageOffsets store.chains bucket) :
    offset.map (· / store.kpSize) = some spot ↔ offset = some (spot * store.kpSize) := by
  cases offset with
  | none => simp
  | some place =>
      obtain ⟨item, member, named⟩ := List.mem_map.1 (Multiset.mem_coe.1 (own place rfl))
      have aligned := valid.geometry.offset_div member
      rw [named] at aligned
      simp only [Option.map_some, Option.some.injEq]
      constructor
      · rintro rfl
        exact aligned.symm
      · rintro rfl
        exact valid.geometry.index_div spot

/-- The file after a page left its bucket. -/
theorem unlink_reads (valid : Valid strict store) {bucket : Nat} {page : KeyPage}
    (there : (store.chains bucket)[place]? = some item) (poff : page.poff = item.2.poff)
    (noff : page.noff = item.2.noff) :
    (store.unlink bucket place (item.1, page)).idx.length = store.idx.length ∧
      (∀ found, (store.unlink bucket place (item.1, page)).idx[item.1 / store.kpSize]? = some found →
        found.isDeleted = true) ∧
      ∀ spot, spot ≠ item.1 / store.kpSize →
        (store.unlink bucket place (item.1, page)).idx[spot]? = store.idx[spot]?.map fun page =>
          { page with
            poff := if item.2.noff = some (spot * store.kpSize) then item.2.poff else page.poff
            noff := if item.2.poff = some (spot * store.kpSize) then item.2.noff else page.noff } := by
  obtain ⟨back, ahead⟩ := valid.geometry.neighbours there
  simp only [Store.unlink, patched_get, patched_length, poff, noff, valid.named_place back,
    valid.named_place ahead, Option.map_some, Option.some.injEq, true_and]
  constructor
  · intro found
    cases store.idx[item.1 / store.kpSize]? with
    | none => simp
    | some old =>
        simp only [if_true, Option.map_some]
        split <;> split <;> rintro ⟨⟩ <;> rfl
  · intro spot differs
    rw [if_neg (Ne.symm differs)]
    cases store.idx[spot]? with
    | none => simp
    | some old =>
        simp only [Option.map_some]
        split <;> split <;> rfl

/-- The records of a page without the key. -/
theorem entries_split (valid : Valid strict store) (found : store.find key = some place)
    (there : (store.chains (store.home key))[place]? = some item) :
    store.records (store.home key) = (key, some (store.offset key place)) ::ₘ
      chainRecords (stripped key (store.chains (store.home key)) (place + 1)) := by
  obtain ⟨same, index, spot, value, again, hit, voff, offset, recorded, -⟩ := valid.record found
  rw [there] at again
  cases again
  have member := List.mem_of_getElem? there
  have sound := valid.sound member
  obtain ⟨rest, before, -, after⟩ := chainRecords_split there
  have stripped_entries : chainRecords (stripped key (store.chains (store.home key)) (place + 1)) =
      chainRecords ((store.chains (store.home key)).set place (strip key item)) := by
    apply chainRecords_congr
    apply List.ext_getElem?
    intro spot
    rw [List.getElem?_map, stripped_get, List.getElem?_map, List.getElem?_set]
    by_cases here : place = spot
    · subst here
      rw [if_pos rfl, if_pos (List.getElem?_eq_some_iff.1 there).1, there, Option.map_some, if_pos (by omega)]
    · rw [if_neg here, Option.map_map]
      apply Option.map_congr
      intro other original
      simp only [Function.comp_apply]
      split
      · have none := (Store.find_eq_some.1 found).2 spot other (by omega) original
        have other := valid.sound (List.mem_of_getElem? original)
        rw [strip, other.entries_remove key, without_absent (other.get_eq_none.1 none)]
      · rfl
  rw [stripped_entries, after, Store.records, before, offset, strip, sound.entries_remove key,
    ← Multiset.cons_add]
  congr 1
  obtain ⟨others, split⟩ := Multiset.exists_cons_of_mem recorded
  have nodup := sound.entries_nodup
  rw [split, Multiset.map_cons, Multiset.nodup_cons] at nodup
  rw [split, without, Multiset.filter_cons_of_neg]
  · congr 1
    symm
    apply Multiset.filter_eq_self.2
    intro entry inside same
    have named := Multiset.mem_map_of_mem Prod.fst inside
    rw [same] at named
    exact nodup.1 named
  · simp

/-- The value file after a removal. -/
theorem freed (valid : Valid strict store) (holds : store.Holds map) (found : store.find key = some place)
    (there : (store.chains (store.home key))[place]? = some item) :
    Content strict store.htSize (store.freeValue (store.offset key place)).db
        (store.freeValue (store.offset key place)).valueFdp
        (Function.update store.records (store.home key)
          (chainRecords (stripped key (store.chains (store.home key)) (place + 1)))) ∧
      Represents store.htSize (store.freeValue (store.offset key place)).db
        (Function.update store.records (store.home key)
          (chainRecords (stripped key (store.chains (store.home key)) (place + 1))))
        (Function.update map key none) := by
  have split := valid.entries_split found there
  obtain ⟨-, -, spot, value, -, -, -, offset, -⟩ := valid.record found
  rw [offset] at split ⊢
  have same : ∀ other, other ≠ spot →
      (store.freeValue (spot * valuePageSize)).db[other]? = store.db[other]? := by
    intro other differs
    rw [Store.freeValue, Content.offset_index]
    exact List.getElem?_modify_ne _ _ (Ne.symm differs)
  constructor
  · apply valid.content.delete split _ _ same
    · intro page read
      rw [Store.freeValue, Content.offset_index, List.getElem?_modify_eq] at read
      obtain ⟨old, -, rfl⟩ := Option.map_eq_some_iff.1 read
      rfl
    · rw [Store.freeValue, List.length_modify]
  · exact valid.content.represents_delete holds split same

theorem delete_write (there : (store.chains (store.home key))[place]? = some item)
    (some : 0 < (item.2.remove key).1.vcount) :
    store.delete key place = { store.freeValue (store.offset key place) with
      idx := PagedFile.writeAt (KeyPage.zero store.kpSize) store.idx (item.1 / store.kpSize)
        (item.2.remove key).1
      chains := Function.update store.chains (store.home key)
        (stripped key (store.chains (store.home key)) (place + 1)) } := by
  simp only [Store.delete, Store.item_eq there, some, if_true]
  rfl

theorem delete_unlink (there : (store.chains (store.home key))[place]? = some item)
    (empty : ¬ 0 < (item.2.remove key).1.vcount) :
    store.delete key place = { store.freeValue (store.offset key place) with
      idx := (store.unlink (store.home key) place (item.1, (item.2.remove key).1)).idx
      keyFdp := item.1 :: store.keyFdp
      chains := Function.update store.chains (store.home key)
        (((stripped key (store.chains (store.home key)) (place + 1)).map
          (bypass (item.2.remove key).1)).eraseIdx place) } := by
  simp only [Store.delete, Store.item_eq there, empty, if_false, Store.unlink, Function.update_self,
    Function.update_idem]
  rfl

/-- A page counts a key less after its removal. -/
theorem removed_vcount (valid : Valid strict store) {bucket : Nat} (member : item ∈ store.chains bucket) :
    0 < (item.2.remove key).1.vcount ↔ (item.2.remove key).1.entries ≠ 0 := by
  have filled := valid.geometry.filled bucket item member
  have counted : (item.2.remove key).1.entries.card ≤ countLimit := by
    rw [filled.sound.entries_remove key]
    exact (Multiset.card_le_card (Multiset.filter_le _ _)).trans filled.counted
  rw [(filled.sound.remove key).vcount counted, Int.natCast_pos, Multiset.card_pos]

/-- The records of a chain without an empty page. -/
theorem chainRecords_bypass {chain : Chain} (page : KeyPage) {entry : Nat × KeyPage}
    (there : chain[place]? = some entry) (empty : entry.2.entries = 0) :
    chainRecords ((chain.map (bypass page)).eraseIdx place) = chainRecords chain := by
  obtain ⟨rest, before, without, -⟩ := chainRecords_split there
  rw [before, empty, zero_add, ← without]
  apply chainRecords_congr
  rw [List.eraseIdx_map, List.map_map]
  rfl

/-- A key leaves the store. -/
theorem delete (valid : Valid strict store) (holds : store.Holds map) (found : store.find key = some place) :
    Valid strict (store.delete key place) ∧
      (store.delete key place).Holds (Function.update map key none) := by
  obtain ⟨⟨item, index, there, -⟩, before⟩ := Store.find_eq_some.1 found
  have member := List.mem_of_getElem? there
  have sound := valid.sound member
  obtain ⟨content, represents⟩ := valid.freed holds found there
  obtain ⟨-, -, poff, noff⟩ := sound.remove_header key
  by_cases some : 0 < (item.2.remove key).1.vcount
  · have geometry := valid.geometry.removed there before ((valid.removed_vcount member).1 some)
    rw [delete_write there some]
    rw [← Store.records_of_chains store { store with
      chains := Function.update store.chains (store.home key)
        (stripped key (store.chains (store.home key)) (place + 1)) } rfl] at content represents
    exact ⟨⟨valid.table, geometry, content⟩, represents⟩
  · have empty : (item.2.remove key).1.entries = 0 := by
      by_contra differs
      exact some ((valid.removed_vcount member).2 differs)
    obtain ⟨length, flagged, reads⟩ := valid.unlink_reads there poff noff
    have geometry := valid.geometry.unlinked there before length flagged reads
    have entry : (stripped key (store.chains (store.home key)) (place + 1))[place]? =
        Option.some (strip key item) := by
      rw [stripped_get, there, Option.map_some, if_pos (by omega)]
    rw [← chainRecords_bypass (item.2.remove key).1 entry empty] at content represents
    rw [delete_unlink there some]
    rw [← Store.records_of_chains store { store with
      chains := Function.update store.chains (store.home key)
        (((stripped key (store.chains (store.home key)) (place + 1)).map
          (bypass (item.2.remove key).1)).eraseIdx place) } rfl] at content represents
    exact ⟨⟨valid.table, geometry, content⟩, represents⟩

/-- The page in the file has the links and the entries of the page in memory. -/
theorem reopened_page (valid : Valid strict store) {bucket : Nat} (member : item ∈ store.chains bucket) :
    ∃ disk, store.idx[item.1 / store.kpSize]? = some disk ∧
      Sound (numOfKeysInPage store.kpSize) disk ∧ Twin disk item.2 :=
  (valid.geometry.filled bucket item member).stored

theorem reopened_map (valid : Valid strict store) {β : Type} (bucket : Nat) (view : Nat × KeyPage → β)
    (same : ∀ item ∈ store.chains bucket, ∀ disk, Twin disk item.2 → view (item.1, disk) = view item) :
    (store.reopen.chains bucket).map view = (store.chains bucket).map view := by
  simp only [Store.reopen, List.map_map]
  apply List.map_congr_left
  intro item member
  obtain ⟨disk, read, -, twin⟩ := valid.reopened_page member
  rw [Function.comp_apply, read, Option.getD_some]
  exact same item member disk twin

/-- The pages of the buckets are live, and the other pages are deleted. -/
theorem reopened_keys (valid : Valid strict store) :
    Accounts True store.kpSize store.idx.length (total store.htSize (pageOffsets store.chains))
      store.reopen.keyFdp (Vacated store.kpSize store.idx) := by
  apply valid.geometry.pages.scan valid.geometry.positive
  · intro index inside member
    obtain ⟨bucket, -, own⟩ := mem_total.1 member
    obtain ⟨item, chained, named⟩ := List.mem_map.1 (Multiset.mem_coe.1 own)
    have filled := valid.geometry.filled bucket item chained
    obtain ⟨disk, read, sound, twin⟩ := filled.stored
    rw [named, valid.geometry.index_div] at read
    have counted : disk.entries.card ≤ countLimit := by
      rw [twin.entries]
      exact filled.counted
    have some : disk.entries ≠ 0 := by
      rw [twin.entries]
      exact filled.entries
    have flags : disk.flags = 0 := twin.flags.trans filled.flags
    simp only [read, Option.map_some, Option.getD_some, KeyPage.isDeleted, flags, sound.vcount counted]
    simpa using some
  · intro index inside vacated
    rw [List.getElem?_eq_getElem inside, Option.map_some, Option.getD_some, vacated _ _]
    · rfl
    · rw [valid.geometry.index_div, List.getElem?_eq_getElem inside]

/-- After a close and an open the store has the same records. -/
theorem reopened_records (valid : Valid strict store) : store.reopen.records = store.records := by
  funext bucket
  apply chainRecords_congr
  exact valid.reopened_map bucket (fun item => item.2.entries) fun _ _ _ twin => twin.entries

theorem reopened_values (valid : Valid strict store) :
    Accounts True valuePageSize store.db.length
      (total store.htSize fun bucket => (store.records bucket).map valueOffset)
      store.reopen.valueFdp (Deleted store.db) := by
  apply valid.content.pages.scan (by decide)
  · intro index inside member
    obtain ⟨bucket, -, own⟩ := mem_total.1 member
    obtain ⟨entry, recorded, named⟩ := Multiset.mem_map.1 own
    obtain ⟨place, value, offset, page, -⟩ := valid.content.live bucket entry recorded
    have spot : place = index * valuePageSize := by
      rw [← named, valueOffset, offset, Option.getD_some]
    rw [spot, Content.offset_index] at page
    rw [page]
    rfl
  · intro index inside deleted
    rw [List.getElem?_eq_getElem inside, Option.map_some, Option.getD_some]
    apply deleted
    rw [Content.offset_index, List.getElem?_eq_getElem inside]

/-- A close and an open lose and invent no key. -/
theorem reopen (valid : Valid strict store) (holds : store.Holds map) :
    Valid True store.reopen ∧ store.reopen.Holds map := by
  have offsets : pageOffsets store.reopen.chains = pageOffsets store.chains := by
    funext bucket
    rw [pageOffsets, valid.reopened_map bucket Prod.fst fun _ _ _ _ => rfl]
    rfl
  have records := valid.reopened_records
  refine ⟨⟨valid.table, ⟨valid.geometry.fits, valid.geometry.large, ?_, ?_, ?_, ?_⟩, ?_⟩, ?_⟩
  · intro bucket some
    apply valid.geometry.inside bucket
    intro empty
    apply some
    simp [Store.reopen, empty]
  · intro bucket entry member
    obtain ⟨item, inside, rfl⟩ := List.mem_map.1 member
    have filled := valid.geometry.filled bucket item inside
    obtain ⟨disk, read, sound, twin⟩ := filled.stored
    rw [read, Option.getD_some]
    refine ⟨twin.hash.trans filled.hash, twin.flags.trans filled.flags, sound, ?_, ?_, disk, read, sound,
      Twin.refl disk⟩
    · rw [twin.entries]
      exact filled.entries
    · rw [twin.entries]
      exact filled.counted
  · intro bucket
    rw [joined_links, valid.reopened_map bucket links, ← joined_links]
    · exact valid.geometry.joined bucket
    · intro item member disk twin
      rw [links, twin.poff, twin.noff, links]
  · rw [offsets]
    exact valid.reopened_keys
  · have content := valid.content
    refine ⟨?_, ?_, ?_, ?_⟩
    all_goals rw [records]
    · exact content.keys
    · exact content.home
    · exact content.live
    · exact valid.reopened_values
  · rw [Store.Holds, records]
    exact holds

end Valid

end SimpleNFast.Rdb
