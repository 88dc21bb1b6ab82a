import SimpleNFast.Proof.Rdb.RemoveCall

namespace SimpleNFast.Rdb
open Program LinkedList FreeStack

/-- The scan of the key file takes such a page for free. -/
def scannedFree (page : KeyPage) : Bool := page.isDeleted || decide (page.vcount ≤ 0)

namespace Geometry

variable {strict : Prop} {kpSize htSize bucket index : Nat} {idx : List KeyPage} {stack : List Nat}
  {chains : Nat → Chain} {item : Nat × KeyPage} {page : KeyPage}

/-- A page of a bucket is not free in the file. -/
theorem chained_live (geometry : Geometry strict kpSize htSize idx stack chains) (member : item ∈ chains bucket)
    (read : idx[item.1 / kpSize]? = some page) : scannedFree page = false ∧ Twin page item.2 := by
  have filled := geometry.filled bucket item member
  obtain ⟨disk, again, sound, twin⟩ := filled.stored
  rw [read] at again
  cases again
  have counted : page.entries.card ≤ countLimit := by
    rw [twin.entries]
    exact filled.counted
  have some : page.entries ≠ 0 := by
    rw [twin.entries]
    exact filled.entries
  have flags : page.flags = 0 := twin.flags.trans filled.flags
  refine ⟨?_, twin⟩
  simp only [scannedFree, KeyPage.isDeleted, flags, sound.vcount counted]
  simpa using some

/-- A page of the file that is not free is the page of a bucket. -/
theorem live_chained (geometry : Geometry strict kpSize htSize idx stack chains) (read : idx[index]? = some page)
    (live : scannedFree page = false) :
    ∃ (bucket place : Nat) (item : Nat × KeyPage), (chains bucket)[place]? = some item ∧
      item.1 = index * kpSize ∧ Twin page item.2 := by
  have inside := (List.getElem?_eq_some_iff.1 read).1
  rcases geometry.pages.covered inside with used | vacated
  · obtain ⟨bucket, -, own⟩ := mem_total.1 used
    obtain ⟨item, member, named⟩ := List.mem_map.1 (Multiset.mem_coe.1 own)
    obtain ⟨place, there⟩ := List.mem_iff_getElem?.1 member
    refine ⟨bucket, place, item, there, named, (geometry.chained_live member ?_).2⟩
    rw [named, geometry.index_div, read]
  · have deleted := vacated page (by rw [geometry.index_div, read])
    rw [scannedFree, deleted] at live
    cases live

end Geometry

/-- The free pages among the first pages of a file, above the end of the file. -/
def scannedStack {α : Type} (unit : Nat) (free : α → Bool) (file : List α) (count : Nat) : List Nat :=
  ((List.range count).filter fun index => (file[index]?.map free).getD false).reverse.map (· * unit) ++
    [file.length * unit]

section Stack

variable {α : Type} {unit count : Nat} {free : α → Bool} {file : List α} {page : α}

theorem scannedStack_free (read : file[count]? = some page) (isFree : free page = true) :
    scannedStack unit free file (count + 1) = count * unit :: scannedStack unit free file count := by
  simp only [scannedStack, List.range_succ, List.filter_append, List.filter_singleton, read, Option.map_some,
    Option.getD_some, isFree, cond_true, List.reverse_append, List.reverse_singleton, List.map_cons,
    List.cons_append, List.nil_append]

theorem scannedStack_live (read : file[count]? = some page) (isLive : free page = false) :
    scannedStack unit free file (count + 1) = scannedStack unit free file count := by
  simp only [scannedStack, List.range_succ, List.filter_append, List.filter_singleton, read, Option.map_some,
    Option.getD_some, isLive, cond_false, List.append_nil]

end Stack

/-- The world after the scan of the first pages of the key file. -/
def scannedKeys (world : World) (chains : Nat → Chain) (count : Nat) : World :=
  { world with
    keyFdp := scannedStack world.kpSize scannedFree world.idx count
    entries := fun bucket => { HashEntry.init with
      offset := ((chains bucket).head?.map Prod.fst).filter fun offset => decide (offset / world.kpSize < count) } }

section Scan

variable {strict : Prop} {allowed : Eviction → Prop} {accepted : Stop → Prop} {world : World}
  {chains : Nat → Chain} {stack : List Nat}

/-- No bucket starts at the next page. -/
theorem scannedKeys_entry {count bucket : Nat}
    (elsewhere : ∀ offset, (chains bucket).head?.map Prod.fst = some offset → offset / world.kpSize ≠ count) :
    (scannedKeys world chains (count + 1)).entries bucket = (scannedKeys world chains count).entries bucket := by
  simp only [scannedKeys]
  congr 1
  cases head : (chains bucket).head?.map Prod.fst with
  | none => rfl
  | some offset =>
      have differs := elsewhere offset head
      have order : offset / world.kpSize < count + 1 ↔ offset / world.kpSize < count := by omega
      simp only [Option.filter_some, order]

/-- The scan of the key file finds its free pages and the first page of each bucket. -/
theorem scanKeys_meets {post : Unit → World → Prop}
    (geometry : Geometry strict world.kpSize world.htSize world.idx stack chains)
    (ends : post () (scannedKeys world chains world.idx.length)) (rest : List KeyPage) (count : Nat)
    (split : world.idx.drop count = rest) (bounded : count ≤ world.idx.length) :
    Meets allowed accepted (scanKeys rest (count * world.kpSize)) (scannedKeys world chains count) post := by
  induction rest generalizing count with
  | nil =>
      have whole : count = world.idx.length := le_antisymm bounded (List.drop_eq_nil_iff.1 split)
      rw [scanKeys, meets_pure, whole]
      exact ends
  | cons page rest later =>
      have read : world.idx[count]? = some page := by
        rw [← List.head?_drop, split, List.head?_cons]
      have inside := (List.getElem?_eq_some_iff.1 read).1
      have next : world.idx.drop (count + 1) = rest := by
        rw [← List.tail_drop, split, List.tail_cons]
      have later := later (count + 1) next inside
      rw [Nat.succ_mul] at later
      have here : ∀ (bucket place : Nat) (item : Nat × KeyPage), (chains bucket)[place]? = some item →
          item.1 / world.kpSize = count → scannedFree page = false ∧ Twin page item.2 := by
        intro bucket place item there index
        apply geometry.chained_live (List.mem_of_getElem? there)
        rw [index, read]
      have quiet : ∀ bucket, (page.poff ≠ none ∨ scannedFree page = true) → ∀ offset,
          (chains bucket).head?.map Prod.fst = some offset → offset / world.kpSize ≠ count := by
        intro bucket other offset head index
        obtain ⟨item, first, rfl⟩ := Option.map_eq_some_iff.1 head
        rw [List.head?_eq_getElem?] at first
        obtain ⟨live, twin⟩ := here bucket 0 item first index
        rcases other with linked | free
        · rw [twin.poff, (geometry.joined bucket).prev_head first] at linked
          exact linked rfl
        · rw [live] at free
          cases free
      simp only [scanKeys, meets_bind, meets_reads]
      split
      · rename_i free
        have free : scannedFree page = true := by
          simpa only [scannedFree, Bool.or_eq_true, decide_eq_true_eq] using free
        simp only [meets_bind]
        apply key_freePage_meets
        · exact Nat.mul_mod_left _ _
        · have same : { scannedKeys world chains count with
              keyFdp := count * world.kpSize :: (scannedKeys world chains count).keyFdp } =
              scannedKeys world chains (count + 1) := by
            have entries : (scannedKeys world chains (count + 1)).entries =
                (scannedKeys world chains count).entries :=
              funext fun bucket => scannedKeys_entry (quiet bucket (Or.inr free))
            simp only [scannedKeys] at entries ⊢
            rw [entries, scannedStack_free read free]
          rw [same]
          exact later
      · rename_i taken
        have live : scannedFree page = false := by
          rw [scannedFree, Bool.or_eq_false_iff, decide_eq_false_iff_not]
          simpa using taken
        obtain ⟨bucket, place, item, there, named, twin⟩ := geometry.live_chained read live
        split
        · rename_i start
          have first : place = 0 := by
            cases place with
            | zero => rfl
            | succ place =>
                have back := (geometry.joined bucket).prev_succ there
                rw [← twin.poff, start] at back
                have bound := (List.getElem?_eq_some_iff.1 there).1
                rw [List.getElem?_eq_getElem (by omega)] at back
                cases back
          subst first
          have home : page.hash = bucket := twin.hash.trans (geometry.homes bucket item (List.mem_of_getElem? there))
          have head : (chains bucket).head?.map Prod.fst = some (count * world.kpSize) := by
            rw [List.head?_eq_getElem?]
            exact congrArg (Option.map Prod.fst) there |>.trans (congrArg some named)
          have inTable : bucket < world.htSize := by
            apply geometry.inside bucket
            intro empty
            rw [show chains bucket = [] from empty] at head
            cases head
          have index : count * world.kpSize / world.kpSize = count := geometry.index_div count
          have unset : ((scannedKeys world chains count).entries bucket).offset = none := by
            simp only [scannedKeys, head, Option.filter_some, index, Nat.lt_irrefl, decide_false, Bool.false_eq_true,
              if_false]
          have same : { scannedKeys world chains count with
              entries := Function.update (scannedKeys world chains count).entries bucket
                { (scannedKeys world chains count).entries bucket with offset := some (count * world.kpSize) } } =
              scannedKeys world chains (count + 1) := by
            have entries : (scannedKeys world chains (count + 1)).entries =
                Function.update (scannedKeys world chains count).entries bucket
                  { (scannedKeys world chains count).entries bucket with offset := some (count * world.kpSize) } := by
              funext other
              by_cases own : other = bucket
              · subst own
                rw [Function.update_self]
                simp only [scannedKeys, head, Option.filter_some, index, Nat.lt_succ_self, decide_true, if_true]
              · rw [Function.update_of_ne own]
                apply scannedKeys_entry
                intro offset first equal
                obtain ⟨entry, top, rfl⟩ := Option.map_eq_some_iff.1 first
                rw [List.head?_eq_getElem?] at top
                apply own
                refine (geometry.separate other bucket 0 0 entry item top there ?_).1
                show entry.1 / world.kpSize = item.1 / world.kpSize
                rw [equal, named]
                exact index.symm
            simp only [scannedKeys] at entries ⊢
            rw [entries, scannedStack_live read live]
          have accessed : decide (bucket < (scannedKeys world chains count).htSize) = true := decide_eq_true inTable
          simp only [HashTable.getOffset, HashTable.setOffset, HashTable.setEntry, HashTable.getEntry, assert,
            meets_bind, meets_requires, meets_reads, meets_modifies, meets_pure, home, unset, if_true]
          rw [if_pos accessed, if_pos accessed, same]
          exact later
        · rename_i linked
          have same : scannedKeys world chains (count + 1) = scannedKeys world chains count := by
            have entries : (scannedKeys world chains (count + 1)).entries =
                (scannedKeys world chains count).entries :=
              funext fun bucket => scannedKeys_entry (quiet bucket (Or.inl linked))
            simp only [scannedKeys] at entries ⊢
            rw [entries, scannedStack_live read live]
          rw [← same]
          exact later

/-- The world after the scan of the first pages of the value file. -/
def scannedValues (world : World) (count : Nat) : World :=
  { world with
    valueFdp := scannedStack valuePageSize ValuePage.isDeleted world.db count
    fdp := (scannedStack valuePageSize ValuePage.isDeleted world.db count).reverse }

/-- The scan of the value file finds its free pages. -/
theorem scanValues_meets {post : Unit → World → Prop} (ends : post () (scannedValues world world.db.length))
    (rest : List ValuePage) (count : Nat) (split : world.db.drop count = rest) (bounded : count ≤ world.db.length) :
    Meets allowed accepted (scanValues rest (count * valuePageSize)) (scannedValues world count) post := by
  induction rest generalizing count with
  | nil =>
      have whole : count = world.db.length := le_antisymm bounded (List.drop_eq_nil_iff.1 split)
      rw [scanValues, meets_pure, whole]
      exact ends
  | cons page rest later =>
      have read : world.db[count]? = some page := by
        rw [← List.head?_drop, split, List.head?_cons]
      have inside := (List.getElem?_eq_some_iff.1 read).1
      have next : world.db.drop (count + 1) = rest := by
        rw [← List.tail_drop, split, List.tail_cons]
      have later := later (count + 1) next inside
      rw [Nat.succ_mul] at later
      simp only [scanValues]
      cases deleted : page.isDeleted with
      | false =>
          have same : scannedValues world (count + 1) = scannedValues world count := by
            rw [scannedValues, scannedStack_live read deleted, scannedValues]
          simp only [Bool.false_eq_true, if_false]
          rw [← same]
          exact later
      | true =>
          simp only [if_true, meets_bind]
          apply value_freePage_meets count
          have same : scannedValues world (count + 1) = { scannedValues world count with
              valueFdp := count * valuePageSize :: (scannedValues world count).valueFdp
              fdp := (scannedValues world count).fdp ++ [count * valuePageSize] } := by
            rw [scannedValues, scannedStack_free read deleted, List.reverse_cons, scannedValues]
          rw [← same]
          exact later

/-- The hash table starts without an offset, and the scan fills it. -/
theorem populateHashTable_meets {post : Unit → World → Prop}
    (geometry : Geometry strict world.kpSize world.htSize world.idx stack chains)
    (fresh : world.entries = fun _ => HashEntry.init)
    (ends : post () (scannedKeys world chains world.idx.length)) :
    Meets allowed accepted populateHashTable world post := by
  have start : { world with keyFdp := [world.idx.length * world.kpSize] } = scannedKeys world chains 0 := by
    have unset : (fun bucket => { HashEntry.init with
        offset := ((chains bucket).head?.map Prod.fst).filter fun offset =>
          decide (offset / world.kpSize < 0) }) = fun _ => HashEntry.init := by
      funext bucket
      cases (chains bucket).head? <;> rfl
    rw [scannedKeys, unset, ← fresh]
    rfl
  simp only [populateHashTable, meets_bind, meets_reads, meets_modifies]
  apply key_freePage_meets
  · exact Nat.mul_mod_left _ _
  have scan : Meets allowed accepted (scanKeys world.idx (0 * world.kpSize)) (scannedKeys world chains 0) post :=
    scanKeys_meets geometry ends world.idx 0 rfl (Nat.zero_le _)
  rw [← start, Nat.zero_mul] at scan
  exact scan

/-- The stack of the value file starts at its end, and the scan fills it. -/
theorem populateFreePages_meets {post : Unit → World → Prop}
    (ends : post () (scannedValues world world.db.length)) :
    Meets allowed accepted populateFreePages world post := by
  simp only [populateFreePages, meets_bind, meets_reads, meets_modifies]
  apply value_freePage_meets world.db.length
  have scan : Meets allowed accepted (scanValues world.db (0 * valuePageSize)) (scannedValues world 0) post :=
    scanValues_meets ends world.db 0 rfl (Nat.zero_le _)
  rw [Nat.zero_mul] at scan
  exact scan

end Scan

/-- A closed database: its files are those of a valid store that represents a map. The members for the sizes
count only when there are no files. -/
structure Closed (strict : Prop) (world : World) (store : Store) (map : ByteMap) : Prop where
  valid : Valid strict store
  holds : store.Holds map
  idx : world.idx = store.idx
  db : world.db = store.db
  attr : world.attr.getD (world.kpSize, world.htSize) = (store.kpSize, store.htSize)
  opened : world.opened = false
  table : world.hashTable = false
  idle : world.opCount = 0

theorem Closed.not_opened {strict : Prop} {world : World} {store : Store} {map : ByteMap}
    (closed : Closed strict world store map) : (world.opened = true) = False := by
  rw [closed.opened]
  exact eq_false Bool.false_ne_true

section Open

variable {strict evicts : Prop} {allowed : Eviction → Prop} {accepted : Stop → Prop} {world : World}
  {store : Store} {map : ByteMap}

/-- A new hash table and a new cache show the pages of the file. -/
theorem allocated_rep {later : World} (valid : Valid strict store)
    (fresh : later = { allocate later with
      entries := later.entries
      keyFdp := later.keyFdp
      valueFdp := later.valueFdp
      fdp := later.fdp
      opened := later.opened })
    (kpSize : later.kpSize = store.kpSize) (idx : later.idx = store.idx)
    (entries : later.entries = fun bucket => { HashEntry.init with
      offset := (store.chains bucket).head?.map Prod.fst }) :
    Rep evicts later store.reopen.chains fun _ => [] := by
  have nodes : later.nodes = fun _ => ⟨none, none, none, none, none⟩ := by
    rw [fresh]
    rfl
  have cnodes : later.cnodes = fun _ => ⟨none, none, none⟩ := by
    rw [fresh]
    rfl
  constructor
  · refine ⟨⟨?_, ?_, ?_, ?_, ?_, ?_⟩, ?_, ?_, ?_, ?_, ?_⟩
    · intro bucket
      rw [entries]
      rfl
    · intro bucket
      rw [entries]
      rfl
    · intro bucket
      exact trivial
    · intro bucket
      exact List.nodup_nil
    · intro bucket other node member
      cases member
    · intro bucket node member
      cases member
    · intro bucket
      exact Nat.zero_le _
    · intro bucket place node item addr there
      cases there
    · intro bucket place item there _
      obtain ⟨origin, member, rfl⟩ := List.mem_map.1 (List.mem_of_getElem? there)
      obtain ⟨disk, read, -⟩ := (valid.geometry.filled bucket origin member).stored
      rw [idx, kpSize, read, Option.getD_some]
    · intro bucket node member
      cases member
    · intro bucket
      simp only [entries, Store.reopen, List.head?_map, Option.map_map]
      rfl
  · refine ⟨[], ⟨?_, trivial, List.nodup_nil, ?_, ?_, ?_, ?_, ?_, ?_⟩, ?_, ?_, ?_, [], [0], 0, ?_, rfl, ?_,
      fun _ => rfl⟩
    · rw [fresh]
      rfl
    · intro cached member
      cases member
    · intro cached member
      cases member
    · intro node addr loaded
      rw [nodes] at loaded
      cases loaded
    · intro node _
      rw [nodes]
    · intro cid node owned
      rw [cnodes] at owned
      cases owned
    · rw [fresh]
      exact ⟨Nat.zero_le _, Nat.zero_le _⟩
    · rw [kpSize]
      exact valid.geometry.positive
    · rw [fresh]
      exact Nat.div_mul_le_self _ _
    · rw [fresh]
      rfl
    · rw [fresh]
      rfl
    · exact Nat.zero_le _

/-- The world after the opening of a closed database. -/
def reopened (world : World) (store : Store) : World :=
  let allocated := allocate (readAttr world)
  let scanned := scannedValues (scannedKeys allocated store.chains store.idx.length) store.db.length
  { scanned with opened := true }

/-- The memory is new, and the stacks and the offsets are those of the scans. -/
theorem reopened_opened (closed : Closed strict world store map) :
    (reopened world store).store store.reopen.chains = store.reopen ∧
      Opened True evicts (reopened world store) store.reopen.chains (fun _ => []) map := by
  have attr : readAttr world = { world with
      created := true
      attr := some (store.kpSize, store.htSize)
      kpSize := store.kpSize
      htSize := store.htSize } := by
    rw [readAttr, closed.attr]
  have same : (reopened world store).store store.reopen.chains = store.reopen := by
    rw [reopened, attr]
    simp only [World.store, scannedValues, scannedKeys, allocate, closed.idx, closed.db]
    rfl
  have first : ∀ bucket, ((store.chains bucket).head?.map Prod.fst).filter
      (fun offset => decide (offset / store.kpSize < store.idx.length)) =
        (store.chains bucket).head?.map Prod.fst := by
    intro bucket
    cases head : (store.chains bucket).head? with
    | none => rfl
    | some item =>
        have filled := closed.valid.geometry.filled bucket item (List.mem_of_mem_head? head)
        obtain ⟨disk, read, -⟩ := filled.stored
        have inside : item.1 / store.kpSize < store.idx.length := (List.getElem?_eq_some_iff.1 read).1
        simp only [Option.map_some, Option.filter_some, inside, decide_true, if_true]
  have rep : Rep evicts (reopened world store) store.reopen.chains fun _ => [] := by
    apply allocated_rep closed.valid
    · rw [reopened, attr]
      rfl
    · rw [reopened, attr]
      rfl
    · rw [reopened, attr]
      exact closed.idx
    · rw [reopened, attr]
      funext bucket
      exact congrArg (fun offset => { HashEntry.init with offset := offset }) (first bucket)
  obtain ⟨valid, holds⟩ := closed.valid.reopen closed.holds
  refine ⟨same, rep, ?_, ?_, ?_⟩
  · rw [same]
    exact valid
  · rw [same]
    exact holds
  · rw [reopened, attr]
    exact ⟨rfl, rfl, closed.idle, rfl, rfl, rfl⟩

/-- The opening reads the files of a closed database. -/
theorem openDb_meets {post : Code → World → Prop} (closed : Closed strict world store map)
    (ends : post .E_ok (reopened world store)) : Meets allowed accepted openDb world post := by
  have geometry : Geometry strict (allocate (readAttr world)).kpSize (allocate (readAttr world)).htSize
      (allocate (readAttr world)).idx store.keyFdp store.chains := by
    have idx : (allocate (readAttr world)).idx = store.idx := closed.idx
    have sizes : ((allocate (readAttr world)).kpSize, (allocate (readAttr world)).htSize) =
        (store.kpSize, store.htSize) := closed.attr
    obtain ⟨kpSize, htSize⟩ := Prod.mk.inj sizes
    rw [kpSize, htSize, idx]
    exact closed.valid.geometry
  simp only [openDb, meets_bind, meets_reads, meets_modifies, meets_pure, closed.not_opened, if_false]
  apply populateHashTable_meets geometry
  · rfl
  apply populateFreePages_meets
  rw [reopened, ← closed.idx, ← closed.db] at ends
  exact ends

end Open

end SimpleNFast.Rdb
