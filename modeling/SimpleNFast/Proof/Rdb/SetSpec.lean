import SimpleNFast.Proof.Rdb.FileSpecs
import SimpleNFast.Proof.Rdb.Opened

namespace SimpleNFast.Rdb
open Program LinkedList

section Spare

variable {evicts : Prop} {world : World} {chains : Nat → Chain} {lists : Nat → List Nat} {node addr : Nat}

/-- The page of a node outside the lists is not the page of a listed node. -/
theorem Rep.spare_addr (rep : Rep evicts world chains lists) (outside : ∀ other, node ∉ lists other)
    (loaded : (world.nodes node).kp = some addr) :
    ∀ other, ∀ another ∈ lists other, (world.nodes another).kp ≠ some addr := by
  intro other another member held
  obtain ⟨lru, cache, pool⟩ := rep.cache
  obtain ⟨first, firstIn, -⟩ := cache.cached loaded
  obtain ⟨second, secondIn, -⟩ := cache.cached held
  have same := List.inj_on_of_nodup_map (Multiset.coe_nodup.1 pool.nodup) firstIn secondIn rfl
  have nodes : node = another := congrArg Cached.node same
  rw [nodes] at outside
  exact outside other member

/-- A page that no listed node has may change. -/
theorem Rep.spare (rep : Rep evicts world chains lists)
    (unused : ∀ other, ∀ another ∈ lists other, (world.nodes another).kp ≠ some addr) (page : KeyPage) :
    Rep evicts { world with pages := Function.update world.pages addr page } chains lists where
  toShows := by
    apply rep.toShows.congr
    · rfl
    · exact le_rfl
    intro bucket another member
    refine ⟨rfl, ?_⟩
    intro home held
    apply Function.update_of_ne
    rintro rfl
    exact unused bucket another member held
  cache := by
    obtain ⟨lru, cache, pool⟩ := rep.cache
    exact ⟨lru, { cache with }, pool.congr rfl rfl rfl rfl rfl⟩

/-- A node outside the lists gets its offset. -/
theorem Rep.locate (rep : Rep evicts world chains lists) (outside : ∀ other, node ∉ lists other)
    (offset : Off) :
    Rep evicts { world with
      nodes := Function.update world.nodes node { world.nodes node with kpoff := offset } } chains lists where
  toShows := by
    apply rep.toShows.congr
    · rfl
    · exact le_rfl
    intro bucket another member
    refine ⟨Function.update_of_ne ?_ _ _, fun _ _ => rfl⟩
    rintro rfl
    exact outside bucket member
  cache := by
    obtain ⟨lru, cache, pool⟩ := rep.cache
    refine ⟨lru, cache.congr ?_ rfl rfl rfl rfl rfl ?_ (fun another free _ => free),
      pool.congr rfl rfl rfl rfl rfl⟩
    · rfl
    intro another
    show (Function.update world.nodes node _ another).kp = _ ∧ (Function.update world.nodes node _ another).cnode = _
    rw [Function.update_apply]
    split
    · rename_i same
      rw [same]
      exact ⟨rfl, rfl⟩
    · exact ⟨rfl, rfl⟩

end Spare

/-- The last page of a chain with other offsets is the only one that is linked. -/
theorem linkLast_eq_set {chain : Chain} {last : Nat × KeyPage} {place offset : Nat}
    (distinct : (chain.map Prod.fst).Nodup) (there : chain[place]? = some last)
    (final : chain.length = place + 1) :
    linkLast chain offset = chain.set place (last.1, { last.2 with noff := some offset }) := by
  have top : chain.getLast?.map Prod.fst = some last.1 := by
    rw [List.getLast?_eq_getElem?, final, Nat.add_sub_cancel, there, Option.map_some]
  apply List.ext_getElem?
  intro spot
  rw [linkLast, List.getElem?_map, List.getElem?_set, top]
  by_cases here : place = spot
  · subst here
    rw [if_pos rfl, if_pos (by omega), there, Option.map_some, if_pos rfl]
  · rw [if_neg here]
    cases found : chain[spot]? with
    | none => rfl
    | some item =>
        have apart : last.1 ≠ item.1 := by
          intro same
          apply here
          have bound : place < (chain.map Prod.fst).length := by
            rw [List.length_map]
            omega
          apply (List.getElem?_inj bound distinct).1
          rw [List.getElem?_map, List.getElem?_map, there, found, Option.map_some, Option.map_some, same]
        simp only [Option.map_some, Option.some.injEq, apart, if_false]

section Pass

variable {strict evicts : Prop} {allowed : Eviction → Prop} {accepted : Stop → Prop} {world : World}
  {chains : Nat → Chain} {lists : Nat → List Nat} {fails : Failures} {ki : KeyInfo}
  {post : Code × KeyInfo → World → Prop}

/-- The second pass of `set` over a bucket whose pages are all loaded. -/
theorem processKeyPages_set {key : Bytes} {voff : Off} {bucket : Nat} (keyed : ki.key = key)
    (valued : ki.voff = voff) (hashed : ki.hash = bucket) (rep : Rep evicts world chains lists)
    (joined : Joined Prod.fst (fun item => item.2.poff) (fun item => item.2.noff) none none (chains bucket))
    (inside : bucket < world.htSize) (bounded : (chains bucket).length ≤ world.idx.length)
    (places : ∀ item ∈ chains bucket, Roomy world.kpSize item.2 → (item.2.put key voff).2 ≠ none)
    (ready : Ready world (lists bucket)) (cover : (lists bucket).length = (chains bucket).length)
    (behind : Behind world (chains bucket) (lists bucket) ki (chains bucket).length)
    (placed : ∀ later info target item index node addr, (chains bucket)[target]? = some item →
      (∀ earlier other, earlier < target → (chains bucket)[earlier]? = some other →
        ¬ Roomy world.kpSize other.2) →
      Roomy world.kpSize item.2 → (item.2.put key voff).2 = some index →
      Rep evicts later (replaced chains bucket target (item.1, (item.2.put key voff).1)) lists →
      MemoryOnly world later → Ready later (lists bucket) → (lists bucket)[target]? = some node →
      (later.nodes node).kp = some addr →
      Meets allowed accepted (KeyFile.write fails item.1 (item.2.put key voff).1) later
        fun retval final => post (retval, info) final)
    (full : ∀ later info, Rep evicts later chains lists → MemoryOnly world later →
      Ready later (lists bucket) →
      (∀ (earlier : Nat) (other : Nat × KeyPage), (chains bucket)[earlier]? = some other →
        ¬ Roomy world.kpSize other.2) →
      Behind later (chains bucket) (lists bucket) info (chains bucket).length → info.key = key →
      info.voff = voff → info.hash = bucket → post (.E_not_found, info) later) :
    Meets allowed accepted (processKeyPages fails .SET ki) world post := by
  have start : (world.entries bucket).offset = (chains bucket)[0]?.map Prod.fst := by
    rw [rep.offset, List.head?_eq_getElem?]
  have top : (world.entries bucket).head = (lists bucket)[0]? := by
    rw [rep.buckets.head, List.head?_eq_getElem?]
  simp only [processKeyPages, HashTable.getOffset, HashTable.getKeyPageNodeList, HashTable.getEntry,
    assert, meets_bind, meets_reads, meets_requires, meets_pure, hashed, inside, decide_true, if_true,
    start, top]
  refine walkCached_set keyed valued hashed rep joined places ?_ ready (Nat.zero_le _) cover ?_ ?_ placed full
  · rw [walkBound]
    omega
  · intro earlier other below
    omega
  · intro empty
    rw [← empty] at behind
    exact behind

end Pass

/-- A pass over all pages remembers the last one. -/
theorem Behind.last {world : World} {chain : Chain} {list : List Nat} {ki : KeyInfo}
    (behind : Behind world chain list ki chain.length) : ki.lkpoff = chain.getLast?.map Prod.fst := by
  cases size : chain.length with
  | zero =>
      rw [size] at behind
      rw [List.length_eq_zero_iff.1 size]
      exact behind.2
  | succ place =>
      rw [size] at behind
      obtain ⟨item, node, addr, there, -, -, -, offset⟩ := behind
      rw [offset, List.getLast?_eq_getElem?, size, Nat.add_sub_cancel, there]
      rfl

theorem Behind.valued {world : World} {chain : Chain} {list : List Nat} {ki : KeyInfo} {place : Nat}
    (behind : Behind world chain list ki place) (voff : Off) :
    Behind world chain list { ki with voff := voff } place := by
  cases place with
  | zero => exact behind
  | succ place => exact behind

/-- The page on top of the stack is no page of a bucket. -/
theorem Geometry.free_place {strict : Prop} {kpSize htSize index : Nat} {idx : List KeyPage}
    {stack rest : List Nat} {chains : Nat → Chain}
    (geometry : Geometry strict kpSize htSize idx stack chains)
    (taken : FreeStack.take kpSize stack = some (index * kpSize, rest)) :
    ∀ other, ∀ item ∈ chains other, item.1 / kpSize ≠ index := by
  rintro other item member rfl
  apply (geometry.taken_unused taken).1
  rw [geometry.offset_div member]
  exact geometry.mem_offsets member

/-- A write of a page that no bucket has. -/
theorem Rep.writeFree {evicts : Prop} {world : World} {chains : Nat → Chain} {lists : Nat → List Nat}
    {idx : List KeyPage} {index : Nat} (rep : Rep evicts world chains lists)
    (free : ∀ other, ∀ item ∈ chains other, item.1 / world.kpSize ≠ index)
    (same : ∀ spot, spot ≠ index → idx[spot]? = world.idx[spot]?) (stack : List Nat) :
    Rep evicts { world with keyFdp := stack, idx := idx } chains lists := by
  have written : Rep evicts { world with idx := idx } chains lists := by
    apply rep.writeIdx
    intro other spot entry there
    right
    exact same _ (free other entry (List.mem_of_getElem? there))
  exact written.frame rfl

section Link

variable {strict evicts : Prop} {allowed : Eviction → Prop} {accepted : Stop → Prop} {world : World}
  {chains : Nat → Chain} {lists : Nat → List Nat} {fails : Failures} {ki : KeyInfo} {bucket index : Nat}
  {rest : List Nat} {page : KeyPage}

/-- The old last page gets the offset of the new page, in memory and in the file. -/
theorem Rep.linkLast {place node addr : Nat} {last : Nat × KeyPage} (rep : Rep evicts world chains lists)
    (separate : Separate world.kpSize chains) (distinct : ((chains bucket).map Prod.fst).Nodup)
    (there : (chains bucket)[place]? = some last) (final : (chains bucket).length = place + 1)
    (listed : (lists bucket)[place]? = some node) (loaded : (world.nodes node).kp = some addr) (offset : Nat) :
    Rep evicts (KeyFile.patchPage addr (fun page => { page with noff := some offset })
        (KeyFile.patch last.1 (fun page => { page with noff := some offset }) world))
      (Function.update chains bucket (Rdb.linkLast (chains bucket) offset)) lists := by
  have page := (rep.cached bucket place node last addr listed there loaded).2
  have change := rep.setPage listed there loaded { last.2 with noff := some offset }
  rw [replaced, ← linkLast_eq_set distinct there final] at change
  rw [KeyFile.patchPage, KeyFile.patch, page]
  apply change.writeIdx
  intro other spot entry found
  by_cases here : other = bucket ∧ spot = place
  · obtain ⟨rfl, rfl⟩ := here
    left
    exact ⟨node, listed, by rw [loaded]; exact Option.some_ne_none addr⟩
  · right
    apply List.getElem?_modify_ne
    intro same
    apply here
    by_cases home : other = bucket
    · subst home
      rw [Function.update_self, Rdb.linkLast, List.getElem?_map] at found
      obtain ⟨old, original, rfl⟩ := Option.map_eq_some_iff.1 found
      exact ⟨rfl, (separate other other spot place old last original there same.symm).2⟩
    · rw [Function.update_of_ne home] at found
      exact absurd (separate other bucket spot place entry last found there same.symm).1 home

/-- The new page is written and linked, or one of the two writes fails. -/
theorem linkNewPage_meets {kp : Nat} {post : Code × Off × List UnwindBlock → World → Prop}
    (rep : Rep evicts world chains lists)
    (geometry : Geometry strict world.kpSize world.htSize world.idx world.keyFdp chains)
    (taken : FreeStack.take world.kpSize world.keyFdp = some (index * world.kpSize, rest))
    (behind : Behind world (chains bucket) (lists bucket) ki (chains bucket).length)
    (linked : ∀ later ustk, fails (.writeKeyPage (index * world.kpSize)) = false →
      (∀ last, (chains bucket).getLast? = some last →
        fails (.writeNextOffset last.1 (some (index * world.kpSize))) = false) →
      Rep evicts later (Function.update chains bucket
        (Rdb.linkLast (chains bucket) (index * world.kpSize))) lists →
      later = { world with
        keyFdp := rest
        idx := ((world.store chains).writeKeys (index * world.kpSize) page).patched
          ((chains bucket).getLast?.map Prod.fst)
          fun other => { other with noff := some (index * world.kpSize) }
        pages := later.pages } →
      (∀ addr, (∀ other, ∀ another ∈ lists other, (world.nodes another).kp ≠ some addr) →
        later.pages addr = world.pages addr) →
      post (.E_ok, some (index * world.kpSize), ustk) later)
    (unwritten : fails (.writeKeyPage (index * world.kpSize)) = true →
      post (.E_write_failed, none, []) { world with keyFdp := index * world.kpSize :: rest })
    (unlinked : ∀ last, (chains bucket).getLast? = some last →
      fails (.writeNextOffset last.1 (some (index * world.kpSize))) = true →
      post (.E_write_failed, some (index * world.kpSize),
        [.keyFlags kp (some (index * world.kpSize)) pageDeleted,
          .keyFreePage (some (index * world.kpSize))])
        { world with
          keyFdp := rest
          idx := PagedFile.writeAt (KeyPage.zero world.kpSize) world.idx index page }) :
    Meets allowed accepted (linkNewPage fails ki kp page) world post := by
  obtain ⟨-, reached⟩ := geometry.taken_unused taken
  simp only [linkNewPage, meets_bind]
  apply key_append_meets geometry.positive taken
  · intro fine
    have written : Rep evicts { world with
        keyFdp := rest
        idx := PagedFile.writeAt (KeyPage.zero world.kpSize) world.idx index page } chains lists := by
      apply rep.writeFree (geometry.free_place taken)
      intro spot differs
      rw [PagedFile.getElem?_writeAt _ _ _ reached, if_neg differs]
    simp only [ne_eq, not_true_eq_false, if_false]
    cases size : (chains bucket).length with
    | zero =>
        have empty := List.length_eq_zero_iff.1 size
        rw [size] at behind
        rw [behind.1, behind.2]
        simp only [meets_pure]
        apply linked _ _ fine
        · rw [empty]
          intro last final
          cases final
        · rw [empty]
          have same : Function.update chains bucket (Rdb.linkLast [] (index * world.kpSize)) = chains := by
            rw [Rdb.linkLast, List.map_nil, ← empty]
            exact Function.update_eq_self bucket chains
          rw [same]
          exact written
        · rw [empty]
          simp only [List.getLast?_nil, Option.map_none, Store.patched, Store.writeKeys, World.store,
            geometry.index_div]
        · intro addr free
          rfl
    | succ place =>
        rw [size] at behind
        obtain ⟨last, node, addr, there, listed, loaded, lkp, lkpoff⟩ := behind
        have final : (chains bucket).getLast? = some last := by
          rw [List.getLast?_eq_getElem?, size, Nat.add_sub_cancel, there]
        rw [lkp, lkpoff]
        simp only [KeyFile.writeNextOffset, meets_bind, meets_reads, meets_attempt]
        split
        · rename_i broken
          simp only [reduceCtorEq, if_false, meets_pure]
          exact unlinked last final broken
        · rename_i works
          simp only [if_true, meets_pure]
          apply linked _ _ fine
          · intro another again
            rw [final] at again
            cases again
            simpa using works
          · exact written.linkLast geometry.separate (geometry.distinct bucket) there size listed loaded _
          · rw [final]
            simp only [Option.map_some, Store.patched, Store.writeKeys, World.store, geometry.index_div,
              KeyFile.patchPage, KeyFile.patch]
          · intro another free
            apply Function.update_of_ne
            rintro rfl
            exact free bucket node (List.mem_of_getElem? listed) loaded
  · intro broken
    simp only [ne_eq, reduceCtorEq, not_false_eq_true, if_true, meets_pure]
    exact unwritten broken

/-- The new page enters the file and the list, or a failure leaves the chains as they were. -/
theorem enterNewPage_meets {node addr cid slot : Nat} {post : Code × KeyInfo → World → Prop}
    (rep : Rep evicts world chains lists)
    (geometry : Geometry strict world.kpSize world.htSize world.idx world.keyFdp chains)
    (inside : bucket < world.htSize) (hashed : ki.hash = bucket) (ready : Ready world (lists bucket))
    (cover : (lists bucket).length = (chains bucket).length)
    (behind : Behind world (chains bucket) (lists bucket) ki (chains bucket).length)
    (taken : FreeStack.take world.kpSize world.keyFdp = some (index * world.kpSize, rest))
    (outside : ∀ other, node ∉ lists other) (known : node < world.nodeCount)
    (filled : world.nodes node = ⟨some addr, none, some cid, none, none⟩)
    (flags : fails (.writeKeyFlags (index * world.kpSize) pageDeleted) = false ∨ ∀ stop, accepted stop)
    (added : ∀ later next info, Rep evicts later (Function.update chains bucket
        (linkLast (chains bucket) (index * world.kpSize) ++ [(index * world.kpSize, page)])) next →
      MemoryOnly { world with
        keyFdp := rest
        idx := ((world.store chains).writeKeys (index * world.kpSize) page).patched
          ((chains bucket).getLast?.map Prod.fst)
          fun other => { other with noff := some (index * world.kpSize) } } later →
      post (.E_ok, info) later)
    (unwritten : ∀ later next info op, fails op = true → Rep evicts later chains next →
      MemoryOnly { world with keyFdp := index * world.kpSize :: rest } later →
      post (.E_write_failed, info) later)
    (unlinked : ∀ later next info op, fails op = true → Rep evicts later chains next →
      MemoryOnly { world with
        keyFdp := index * world.kpSize :: rest
        idx := (PagedFile.writeAt (KeyPage.zero world.kpSize) world.idx index page).modify index
          fun page => { page with flags := pageDeleted, vcount := 0 } } later →
      post (.E_write_failed, info) later) :
    Meets allowed accepted (enterNewPage fails ki node addr (page, some slot)) world post := by
  have loaded : (world.nodes node).kp = some addr := by rw [filled]
  have spare := rep.spare_addr outside loaded
  have setRep := rep.spare spare page
  obtain ⟨-, reached⟩ := geometry.taken_unused taken
  simp only [enterNewPage, setPage, assert, meets_bind, meets_modifies, meets_requires, Option.isSome_some,
    if_true]
  apply linkNewPage_meets setRep geometry taken behind
  · intro later ustk works links laterRep same pages
    have nodes : later.nodes = world.nodes := by rw [same]
    have located := laterRep.locate outside (some (index * world.kpSize))
    have only : MemoryOnly { world with
        keyFdp := rest
        idx := ((world.store chains).writeKeys (index * world.kpSize) page).patched
          ((chains bucket).getLast?.map Prod.fst)
          fun other => { other with noff := some (index * world.kpSize) } }
        { later with
          nodes := Function.update later.nodes node
            { later.nodes node with kpoff := some (index * world.kpSize) } } := by
      unfold MemoryOnly
      rw [same]
      rfl
    simp only [Option.isSome_some, if_true, LRUCache.setNode, meets_bind, meets_modifies, hashed]
    apply addKeyPageNode_meets (Function.update chains bucket
      (linkLast (chains bucket) (index * world.kpSize) ++ [(index * world.kpSize, page)]))
      (index * world.kpSize, page) located
    · intro another member
      show (Function.update later.nodes node _ another).kp ≠ none
      rw [Function.update_of_ne, nodes]
      · exact ready another member
      · rintro rfl
        exact outside bucket member
    · rw [only.htSize]
      exact inside
    · exact outside
    · rw [same]
      exact known
    · show Function.update later.nodes node _ node = _
      rw [Function.update_self, nodes, filled]
    · show later.pages addr = page
      rw [pages addr spare]
      exact Function.update_self _ _ _
    · intro other differs
      rw [Function.update_of_ne differs, Function.update_of_ne differs]
    · intro place below
      rw [Function.update_self, Function.update_self, List.getElem?_append_left]
      rw [linkLast, List.length_map]
      omega
    · rw [Function.update_self, List.getElem?_append_right, linkLast, List.length_map, cover, Nat.sub_self]
      · rfl
      · rw [linkLast, List.length_map, cover]
    · intro place entry beyond found
      rw [Function.update_self, List.getElem?_eq_none] at found
      · cases found
      · rw [List.length_append, linkLast, List.length_map, List.length_singleton]
        omega
    · intro final finalRep finalOnly samePages sameNodes
      simp only [unwind, if_true, meets_pure]
      exact added final _ _ finalRep (only.trans finalOnly)
  · intro broken
    simp only [Option.isSome_none, Bool.false_eq_true, reduceCtorEq, if_false, meets_bind]
    have returned : Rep evicts { world with
        pages := Function.update world.pages addr page
        keyFdp := index * world.kpSize :: rest } chains lists := setRep.frame rfl
    apply free_meets returned loaded outside
    intro later laterRep only kept
    simp only [unwind, reduceCtorEq, if_false, executeUnwind, meets_pure]
    apply unwritten later lists _ _ broken laterRep
    have start : MemoryOnly { world with keyFdp := index * world.kpSize :: rest }
      { world with
        pages := Function.update world.pages addr page
        keyFdp := index * world.kpSize :: rest } := rfl
    exact start.trans only.memory
  · intro last final broken
    have written : Rep evicts { world with
        pages := Function.update world.pages addr page
        keyFdp := rest
        idx := PagedFile.writeAt (KeyPage.zero world.kpSize) world.idx index page } chains lists := by
      apply setRep.writeFree (geometry.free_place taken)
      intro spot differs
      rw [PagedFile.getElem?_writeAt _ _ _ reached, if_neg differs]
    simp only [Option.isSome_some, if_true, LRUCache.setNode, meets_bind, meets_modifies, reduceCtorEq, if_false]
    apply free_meets (written.locate outside (some (index * world.kpSize)))
    · show (Function.update world.nodes node _ node).kp = some addr
      rw [Function.update_self]
      exact loaded
    · exact outside
    intro later laterRep only kept
    have size : later.kpSize = world.kpSize := only.kpSize
    simp only [unwind, reduceCtorEq, if_false, ← size]
    apply unwindKey_meets index addr (by rw [size]; exact geometry.positive) (by rw [size]; exact flags)
    simp only [meets_pure]
    have freed : ∀ other, ∀ another ∈ lists other, (later.nodes another).kp ≠ some addr := by
      intro other another member
      have same : later.nodes another = world.nodes another := by
        rw [(kept other another member).1]
        apply Function.update_of_ne
        rintro rfl
        exact outside other member
      rw [same]
      exact spare other another member
    have flagged : Rep evicts { later with
        idx := later.idx.modify index fun page => { page with flags := pageDeleted, vcount := 0 }
        pages := Function.update later.pages addr { later.pages addr with flags := pageDeleted }
        keyFdp := index * later.kpSize :: later.keyFdp } chains lists := by
      apply (laterRep.spare freed _).writeFree
      · intro other item member
        show item.1 / later.kpSize ≠ index
        rw [size]
        exact geometry.free_place taken other item member
      · intro spot differs
        exact List.getElem?_modify_ne _ _ (Ne.symm differs)
    apply unlinked _ lists _ _ broken flagged
    unfold MemoryOnly
    rw [only.memory]

/-- A new page takes the new key, or a failure leaves the chains as they were. -/
theorem addNewPage_meets {key : Bytes} {voff : Nat} {post : Code × KeyInfo → World → Prop}
    (rep : Rep evicts world chains lists)
    (geometry : Geometry strict world.kpSize world.htSize world.idx world.keyFdp chains)
    (harmless : ∀ event, allowed event → evicts ∧ Harmless bucket event)
    (home : hash key world.htSize = bucket) (inside : bucket < world.htSize) (keyed : ki.key = key)
    (valued : ki.voff = some voff)
    (hashed : ki.hash = bucket) (ready : Ready world (lists bucket))
    (cover : (lists bucket).length = (chains bucket).length)
    (behind : Behind world (chains bucket) (lists bucket) ki (chains bucket).length)
    (taken : FreeStack.take world.kpSize world.keyFdp = some (index * world.kpSize, rest))
    (flags : fails (.writeKeyFlags (index * world.kpSize) pageDeleted) = false ∨ ∀ stop, accepted stop)
    (added : ∀ later next info, Rep evicts later ((world.store chains).extend key voff).chains next →
      MemoryOnly { world with keyFdp := rest, idx := ((world.store chains).extend key voff).idx } later →
      post (.E_ok, info) later)
    (unwritten : ∀ later next info op, fails op = true → Rep evicts later chains next →
      MemoryOnly { world with keyFdp := index * world.kpSize :: rest } later →
      post (.E_write_failed, info) later)
    (unlinked : ∀ later next info page op, fails op = true → Rep evicts later chains next →
      MemoryOnly { world with
        keyFdp := index * world.kpSize :: rest
        idx := (PagedFile.writeAt (KeyPage.zero world.kpSize) world.idx index page).modify index
          fun page => { page with flags := pageDeleted, vcount := 0 } } later →
      post (.E_write_failed, info) later) :
    Meets allowed accepted (addNewPage fails ki) world post := by
  subst home
  rw [Valid.extend_eq taken] at added
  simp only [addNewPage, meets_bind]
  apply get_meets rep harmless geometry.homes rfl
  · intro fresh node addr cid freshRep only kept outside known filled page
    have loaded : (fresh.nodes node).kp = some addr := by rw [filled]
    have size := only.kpSize
    obtain ⟨-, placed, -⟩ := geometry.lastPage_filled (hash key world.htSize)
      ((chains (hash key world.htSize)).getLast?.map Prod.fst) key (some voff)
    obtain ⟨slot, found⟩ := Option.ne_none_iff_exists'.1 placed
    have put : ({ KeyPage.init world.kpSize with
        hash := hash key world.htSize
        poff := (chains (hash key world.htSize)).getLast?.map Prod.fst }.put key (some voff)) =
        (Geometry.lastPage world.kpSize (hash key world.htSize)
          ((chains (hash key world.htSize)).getLast?.map Prod.fst) key (some voff), some slot) := by
      rw [← found]
      rfl
    simp only [ne_eq, not_true_eq_false, if_false, pageOf, meets_bind, meets_reads, loaded, meets_pure, size,
      hashed, keyed, valued, behind.last, put]
    have memory := only.memory
    have stack : FreeStack.take fresh.kpSize fresh.keyFdp = some (index * fresh.kpSize, rest) := by
      rw [size, memory.keyFdp]
      exact taken
    apply enterNewPage_meets freshRep (memory.geometry geometry) (by rw [memory.htSize]; exact inside) hashed
      _ cover _ stack outside known filled (by rw [size]; exact flags)
    · intro later next info laterRep laterOnly
      have final := memory.rebase laterOnly
      rw [memory.store_eq, size] at final
      rw [size] at laterRep
      exact added later next info laterRep final
    · intro later next info op broken laterRep laterOnly
      have final := memory.rebase laterOnly
      rw [size, memory.idx] at final
      exact unwritten later next info op broken laterRep final
    · intro later next info op broken laterRep laterOnly
      have final := memory.rebase laterOnly
      rw [size, memory.idx] at final
      exact unlinked later next info _ op broken laterRep final
    · intro another member
      rw [(kept another member).1]
      exact ready another member
    · apply behind.kept (List.prefix_refl _)
      intro another member
      rw [(kept another member).1]
  · intro later node place impossible
    cases impossible

end Link

open Program

section Get

variable {strict evicts : Prop} {allowed : Eviction → Prop} {accepted : Stop → Prop} {world : World}
  {chains : Nat → Chain} {lists : Nat → List Nat} {map : ByteMap} {fails : Failures} {key : Bytes}

/-- The value of a key in the map is the one that its record names. -/
theorem Valid.value_eq {store : Store} {place : Nat} (valid : Valid strict store)
    (holds : store.Holds map) (found : store.find key = some place) :
    ∃ item index spot value, (store.chains (store.home key))[place]? = some item ∧
      item.2.get key = some index ∧ (item.2.krec (some index)).voff = some (spot * valuePageSize) ∧
      store.db[spot]? = some (ValuePage.init key value) ∧ map key = some value := by
  obtain ⟨item, index, spot, value, there, hit, voff, -, -, member, page, -⟩ := valid.record found
  refine ⟨item, index, spot, value, there, hit, voff, page, ?_⟩
  exact (holds key value).2 ⟨spot * valuePageSize, member, by rw [Content.offset_index]; exact page⟩

/-- A call of `get` answers as the map does, unless a read fails. -/
theorem get_spec {vlen : Nat} {post : Reply → World → Prop}
    (opened : Opened strict evicts world chains lists map)
    (harmless : ∀ event, allowed event → evicts ∧ Harmless (hash key world.htSize) event)
    (ends : ∀ later next, Opened strict evicts later chains next map → MemoryOnly world later →
      post (map.reply (.get key vlen)) later)
    (failed : ∀ later next op, fails op = true → Opened strict evicts later chains next map →
      MemoryOnly world later → post ⟨.E_read_failed, none⟩ later) :
    Meets allowed accepted (get fails key vlen) world post := by
  have finish : ∀ later next, Rep evicts later chains next → MemoryOnly (counted world) later →
      Opened strict evicts { later with opCount := later.opCount + -1 } chains next map ∧
        MemoryOnly world { later with opCount := later.opCount + -1 } := by
    intro later next rep only
    exact ⟨opened.memory (counted_memory only) (rep.frame rfl), counted_memory only⟩
  by_cases invalid : rejected key ∨ vlen = 0
  · have reply : map.reply (.get key vlen) = ⟨.E_invalid_arg, none⟩ := by
      simp only [ByteMap.reply, invalid, if_true]
    rw [get, if_pos invalid, meets_pure, ← reply]
    exact ends world lists opened rfl
  · rw [get, if_neg invalid]
    simp only [meets_bind, meets_counted, meets_reads, meets_guarded opened.running]
    apply search_meets opened harmless
    · intro later next info place node index item rep only found keyed hashed
      have located := found.find
      obtain ⟨entry, spot, page, value, there, hit, voff, read, stored⟩ :=
        opened.valid.value_eq opened.holds located
      have same : entry = item := Option.some.inj (there.symm.trans found.there)
      subst same
      rw [found.hit] at hit
      cases hit
      simp only [ne_eq, not_true_eq_false, if_false, meets_bind]
      apply assertFound_meets rep found voff
      have reply : map.reply (.get key vlen) =
          if vlen < value.length then ⟨.E_insufficient_buffer, none⟩ else ⟨.E_ok, some value⟩ := by
        simp only [ByteMap.reply, invalid, if_false, stored]
      have db : later.db = world.db := by
        rw [only]
        rfl
      have there : later.db[page * valuePageSize / valuePageSize]? = some (ValuePage.init key value) := by
        rw [Content.offset_index, db]
        exact read
      obtain ⟨final, memory⟩ := finish later next rep only
      rw [found.voff, voff]
      simp only [ValueFile.read]
      split
      · rename_i broken
        simp only [meets_pure, meets_bind, meets_uncounted]
        exact failed _ next _ broken final memory
      · simp only [meets_reads, there, assertValue, assert, meets_bind, meets_requires, ValuePage.init,
          ValuePage.isDeleted, beq_self_eq_true, if_true]
        have alive : (!((0 : Int) % 2 == 1)) = true := rfl
        rw [if_pos alive]
        split
        · rename_i short
          simp only [meets_pure, meets_bind, meets_uncounted]
          rw [if_pos short] at reply
          rw [← reply]
          exact ends _ next final memory
        · rename_i long
          simp only [meets_pure, meets_bind, meets_uncounted]
          rw [if_neg long] at reply
          rw [← reply]
          exact ends _ next final memory
    · intro later next info rep only missing keyed hashed
      have absent := (opened.valid.find_iff opened.holds).1 missing.find
      have reply : map.reply (.get key vlen) = ⟨.E_not_found, none⟩ := by
        simp only [ByteMap.reply, invalid, if_false, absent]
      obtain ⟨final, memory⟩ := finish later next rep only
      simp only [ne_eq, reduceCtorEq, not_false_eq_true, if_true, meets_pure, meets_bind, meets_uncounted]
      rw [← reply]
      exact ends _ next final memory
    · intro later next info offset broken rep only
      obtain ⟨final, memory⟩ := finish later next rep only
      simp only [ne_eq, reduceCtorEq, not_false_eq_true, if_true, meets_pure, meets_bind, meets_uncounted]
      exact failed _ next _ broken final memory

end Get

end SimpleNFast.Rdb
