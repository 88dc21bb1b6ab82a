import SimpleNFast.Proof.Rdb.Residence

namespace SimpleNFast.Rdb
open Program LinkedList

/-- The cache has room, and a cache node is ready for a page. -/
structure Vacant (world : World) (lists : Nat → List Nat) (cid : Nat) (lru : List Cached) : Prop where
  cache : Lru world lists lru
  fresh : cid ∉ lru.map Cached.cid
  known : cid < world.cnodeCount
  room : world.num < world.max

section Specs

variable {evicts : Prop} {allowed : Eviction → Prop} {accepted : Stop → Prop} {world : World} {chains : Nat → Chain}
  {lists : Nat → List Nat} {bucket : Nat}

/-- The page of a harmless eviction. -/
theorem harmless_lastPage (harmless : Harmless bucket (LRUCache.lastPage world)) :
    ∃ cid node addr offset, world.tail = some cid ∧ (world.cnodes cid).kpn = some node ∧
      (world.nodes node).kp = some addr ∧ (world.nodes node).kpoff = some offset ∧
      (world.pages addr).hash ≠ bucket ∧ (world.cnodes cid).next = none ∧
      (world.nodes node).prev = none ∧ (world.nodes node).next = none ∧
      world.idx[offset / world.kpSize]? = some (world.pages addr) := by
  obtain ⟨other, home, differs, last, alone, clean⟩ := harmless
  unfold LRUCache.lastPage at *
  cases tail : world.tail with
  | none => simp [tail] at home
  | some cid =>
      cases kpn : (world.cnodes cid).kpn with
      | none => simp [tail, kpn] at home
      | some node =>
          cases kp : (world.nodes node).kp with
          | none => simp [tail, kpn, kp] at home
          | some addr =>
              cases kpoff : (world.nodes node).kpoff with
              | none => simp [tail, kpn, kp, kpoff] at home
              | some offset =>
                  simp only [tail, kpn, kp, kpoff, Option.some.injEq, beq_iff_eq,
                    Bool.and_eq_true] at home last alone clean
                  exact ⟨cid, node, addr, offset, rfl, kpn, kp, kpoff, home ▸ differs, last, alone.1,
                    alone.2, clean⟩

/-- A page goes back to the pool. -/
theorem freePage_meets {post : Unit → World → Prop} {addr : Nat} {inUse : Multiset Nat}
    (pool : Pool world (addr ::ₘ inUse))
    (ends : ∀ later, later = { world with
      nextFreePage := addr :: world.nextFreePage, numOfFreePages := world.numOfFreePages + 1 } →
      Pool later inUse → post () later) :
    Meets allowed accepted (PageMgr.free addr) world post := by
  have inside := pool.addr_lt (Multiset.mem_cons_self addr inUse)
  have given := ends _ rfl (pool.give rfl rfl rfl rfl rfl)
  simpa [PageMgr.free, assert, inside] using given

/-- A node without neighbours that is in a list is the whole list. -/
theorem Buckets.eq_singleton {node : Nat} (buckets : Buckets world lists) (member : node ∈ lists bucket)
    (noPrev : (world.nodes node).prev = none) (noNext : (world.nodes node).next = none) :
    lists bucket = [node] := by
  obtain ⟨first, last, split⟩ := List.append_of_mem member
  have joined := buckets.joined bucket
  rw [split] at joined
  obtain ⟨backward, forward⟩ := joined.middle
  rw [noPrev] at backward
  rw [noNext] at forward
  cases last with
  | cons next rest => simp at forward
  | nil =>
      cases final : first.getLast? with
      | some before => simp [final] at backward
      | none =>
          rw [List.getLast?_eq_none_iff.1 final] at split
          exact split

/-- The view after a page that is the one in the file lost its place. -/
theorem Shows.evict {later : World} {node addr offset : Nat} (shows : Shows evicts world chains lists)
    (evicting : evicts) (only : CacheOnly world later) (nodeCount : later.nodeCount = world.nodeCount)
    (pages : later.pages = world.pages)
    (other : ∀ another, another ≠ node → later.nodes another = world.nodes another)
    (freed : later.nodes node = { world.nodes node with kp := none, kpoff := none, cnode := none })
    (kp : (world.nodes node).kp = some addr) (kpoff : (world.nodes node).kpoff = some offset)
    (noPrev : (world.nodes node).prev = none) (noNext : (world.nodes node).next = none)
    (clean : world.idx[offset / world.kpSize]? = some (world.pages addr)) :
    Shows evicts later chains lists where
  buckets := by
    apply shows.buckets.congr only.entries nodeCount.ge
    intro bucket another member
    by_cases same : another = node
    · rw [same, freed]
      exact ⟨rfl, rfl⟩
    · rw [other another same]
      exact ⟨rfl, rfl⟩
  short := shows.short
  cached bucket place another item place' here there loaded := by
    have differs : another ≠ node := by
      rintro rfl
      rw [freed] at loaded
      cases loaded
    rw [other another differs] at loaded ⊢
    rw [pages]
    exact shows.cached bucket place another item place' here there loaded
  stored bucket place item there unloaded := by
    rw [only.idx, only.kpSize]
    by_cases same : (lists bucket)[place]? = some node
    · obtain ⟨where', what⟩ := shows.cached bucket place node item addr same there kp
      rw [kpoff] at where'
      rw [← Option.some.inj where', ← what]
      exact clean
    · apply shows.stored bucket place item there
      intro another here
      rw [← other another (by rintro rfl; exact same here)]
      exact unloaded another here
  alone bucket another member unloaded := by
    by_cases same : another = node
    · rw [same] at member ⊢
      exact ⟨evicting, shows.buckets.eq_singleton member noPrev noNext⟩
    · rw [other another same] at unloaded
      exact shows.alone bucket another member unloaded
  offset := by
    rw [only.entries]
    exact shows.offset

theorem removeLast_meets {post : Option Nat → World → Prop} (rep : Rep evicts world chains lists)
    (harmless : ∀ event, allowed event → evicts ∧ Harmless bucket event)
    (homes : ∀ other, ∀ item ∈ chains other, item.2.hash = other)
    (ends : ∀ later cid lru, Shows evicts later chains lists → CacheOnly world later →
      Kept (lists bucket) world later → later.nodeCount = world.nodeCount →
      Vacant later lists cid lru → Pool later (lru.map Cached.addr : List Nat) →
      post (some cid) later) :
    Meets allowed accepted LRUCache.removeLast world post := by
  simp only [LRUCache.removeLast, meets_bind, meets_reports, meets_reads]
  intro event
  obtain ⟨cid, node, addr, offset, tail, kpn, kp, kpoff, elsewhere, final, noPrev, noNext, clean⟩ :=
    harmless_lastPage (harmless _ event).2
  obtain ⟨lru, cache, pool⟩ := rep.cache
  obtain ⟨first, last, rfl⟩ := List.append_of_mem (cache.cached_of_named kpn kp)
  obtain ⟨backward, forward⟩ := cache.joined.middle
  have bare : last = [] := by
    rw [final] at forward
    cases last with
    | nil => rfl
    | cons next rest => simp at forward
  subst bare
  have outside : node ∉ lists bucket := by
    intro member
    obtain ⟨place, inside, here⟩ := List.mem_iff_getElem.1 member
    have reached := rep.short bucket
    have there : (chains bucket)[place]? = some (chains bucket)[place] := List.getElem?_eq_getElem (by omega)
    have shown := rep.cached bucket place node _ addr (by rw [← here]; exact List.getElem?_eq_getElem inside)
      there kp
    rw [shown.2] at elsewhere
    exact elsewhere (homes bucket _ (List.getElem_mem _))
  have finish : ∀ later : World, CacheOnly world later → later.pages = world.pages →
      later.nodeCount = world.nodeCount → later.cnodeCount = world.cnodeCount →
      later.num = world.num - 1 → later.nextFreePage = addr :: world.nextFreePage →
      later.numOfFreePages = world.numOfFreePages + 1 →
      (later.head = if (world.cnodes cid).prev = none then none else world.head) →
      (∀ another, another ≠ node → later.nodes another = world.nodes another) →
      later.nodes node = { world.nodes node with kp := none, kpoff := none, cnode := none } →
      (∀ other, other ≠ cid → (later.cnodes other).kpn = (world.cnodes other).kpn ∧
        (later.cnodes other).prev = (world.cnodes other).prev ∧
        (later.cnodes other).next =
          if (world.cnodes cid).prev = some other then none else (world.cnodes other).next) →
      (later.cnodes cid).kpn = none → post (some cid) later := by
    intro later only pages nodeCount cnodeCount num stack free head other freed cnodes cleared
    have apart : ∀ cached ∈ first, cached.cid ≠ cid := by
      intro cached member same
      have distinct := cache.distinct
      rw [List.map_append, List.nodup_append] at distinct
      exact distinct.2.2 cached.cid (List.mem_map_of_mem member) cid (by simp) same
    have counted := cache.counted
    rw [List.length_append, List.length_singleton] at counted
    have kept : Kept (lists bucket) world later := by
      intro another member
      rw [other another (by rintro rfl; exact outside member), pages]
      exact ⟨rfl, fun _ _ => rfl⟩
    have smaller : Lru later lists (first ++ []) := by
      apply cache.drop other (by rw [freed]; exact ⟨rfl, rfl⟩) nodeCount cnodeCount
      · rw [List.append_nil, num, only.max]
        omega
      · exact fun another differs => (cnodes another differs).1
      · exact Or.inl cleared
      · rw [head, cache.head, backward]
        cases first <;> simp
      · apply cache.joined.unlink cache.distinct (by simp) (by simp)
        · intro cached member
          rw [List.append_nil] at member
          rw [(cnodes _ (apart cached member)).2.1, if_neg]
          rw [final]
          simp
        · intro cached member
          rw [List.append_nil] at member
          rw [(cnodes _ (apart cached member)).2.2, final]
    rw [List.append_nil] at smaller
    have given : Pool later (first.map Cached.addr : List Nat) := by
      have whole : (((first ++ [(⟨cid, node, addr⟩ : Cached)]).map Cached.addr : List Nat) :
          Multiset Nat) = addr ::ₘ (first.map Cached.addr : List Nat) := by
        rw [Multiset.cons_coe]
        exact Multiset.coe_eq_coe.2 (by rw [List.map_append]; exact List.perm_append_singleton _ _)
      rw [whole] at pool
      exact pool.give only.max only.kpSize only.poolSize free stack
    have vacant : Vacant later lists cid first := by
      refine ⟨smaller, ?_, ?_, ?_⟩
      · intro member
        obtain ⟨cached, inside, same⟩ := List.mem_map.1 member
        exact apart cached inside same
      · rw [cnodeCount]
        exact (cache.known ⟨cid, node, addr⟩ (by simp)).1
      · rw [num, only.max]
        omega
    exact ends later cid first
      (rep.toShows.evict (harmless _ event).1 only nodeCount pages other freed kp kpoff noPrev noNext clean) only kept nodeCount
      vacant given
  have inside : addr * world.kpSize < world.poolSize := pool.addr_lt (by simp)
  obtain ⟨notBefore, -⟩ := cache.joined.apart cache.distinct
  simp only [tail, meets_bind, meets_reads]
  cases back : (world.cnodes cid).prev with
  | none =>
      simp only [LRUCache.detach, LRUCache.setCNode, LRUCache.setNode, PageMgr.free, assert, meets_bind,
        meets_modifies, meets_reads, meets_requires, meets_pure, kpn, kp, inside, decide_true, if_true]
      apply finish
      iterate 7 rfl
      · rw [back]
        rfl
      · intro another differs
        simp [differs]
      · simp
      · intro other differs
        simp [differs, back]
      · simp
  | some before =>
      simp only [back, ne_eq, Option.some.injEq] at notBefore
      simp only [LRUCache.detach, LRUCache.setCNode, LRUCache.setNode, PageMgr.free, assert, meets_bind,
        meets_modifies, meets_reads, meets_requires, meets_pure, kpn_relink, kpn, kp, inside, decide_true,
        if_true]
      apply finish
      iterate 7 rfl
      · rw [back]
        rfl
      · intro another differs
        simp [differs]
      · simp
      · intro other differs
        simp only [ne_eq, differs, not_false_eq_true, Function.update_of_ne, kpn_relink, prev_relink,
          next_relink, back, Option.some.injEq]
        grind
      · simp

/-- A cache node is found, by an eviction when the cache is full. -/
theorem getCacheNode_meets {post : Option Nat → World → Prop} (rep : Rep evicts world chains lists)
    (harmless : ∀ event, allowed event → evicts ∧ Harmless bucket event)
    (homes : ∀ other, ∀ item ∈ chains other, item.2.hash = other)
    (ends : ∀ later cid lru, Shows evicts later chains lists → CacheOnly world later →
      Kept (lists bucket) world later → later.nodeCount = world.nodeCount →
      Vacant later lists cid lru → Pool later (lru.map Cached.addr : List Nat) →
      post (some cid) later) :
    Meets allowed accepted LRUCache.getCacheNode world post := by
  simp only [LRUCache.getCacheNode, meets_bind, meets_reads]
  split
  · exact removeLast_meets rep harmless homes ends
  · rename_i room
    obtain ⟨lru, cache, pool⟩ := rep.cache
    simp only [meets_bind, meets_modifies, meets_reads, meets_pure]
    have fresh : world.cnodeCount ∉ lru.map Cached.cid := by
      intro member
      obtain ⟨cached, inside, same⟩ := List.mem_map.1 member
      have known := (cache.known cached inside).1
      omega
    have apart : ∀ cached ∈ lru, cached.cid ≠ world.cnodeCount := by
      intro cached inside same
      have known := (cache.known cached inside).1
      omega
    have kept : ∀ list, Kept list world { world with
        cnodeCount := world.cnodeCount + 1
        cnodes := Function.update world.cnodes world.cnodeCount ⟨none, none, none⟩ } := by
      intro list node member
      exact ⟨rfl, fun _ _ => rfl⟩
    apply ends _ world.cnodeCount lru
    · exact rep.toShows.congr rfl le_rfl fun bucket => kept (lists bucket)
    · rfl
    · exact kept (lists bucket)
    · rfl
    · refine ⟨?_, fresh, by simp, by simpa using room⟩
      refine cache.reorder (List.Perm.refl lru) rfl le_rfl (Nat.le_succ _) rfl rfl ?_ ?_ ?_
      · intro cid
        by_cases same : cid = world.cnodeCount
        · rw [same]
          exact Or.inr ⟨by simp, fresh⟩
        · exact Or.inl (by simp [same])
      · exact cache.head
      · apply cache.joined.congr
        · intro cached inside
          simp [apart cached inside]
        · intro cached inside
          simp [apart cached inside]
    · exact pool.congr rfl rfl rfl rfl rfl

/-- A place of the pool is filled with a page, or it goes back when the read fails. -/
theorem getPage_meets {post : Code × Option Nat → World → Prop} {fails : Failures} {offset : Off}
    {lru : List Cached} (page : KeyPage) (shows : Shows evicts world chains lists) (cache : Lru world lists lru)
    (pool : Pool world (lru.map Cached.addr : List Nat)) (room : world.num < world.max)
    (source : match offset with
      | none => page = KeyPage.zero world.kpSize
      | some place => world.idx[place / world.kpSize]? = some page)
    (ends : ∀ later addr, addr ∉ lru.map Cached.addr →
      Shows evicts later chains lists → Lru later lists lru →
      Pool later (addr ::ₘ (lru.map Cached.addr : List Nat)) → CacheOnly world later →
      later.nodes = world.nodes → later.nodeCount = world.nodeCount →
      later.cnodes = world.cnodes → later.cnodeCount = world.cnodeCount → later.num = world.num →
      later.pages = Function.update world.pages addr page → post (.E_ok, some addr) later)
    (fail : ∀ later addr place, offset = some place → fails (.readKeyPage place) = true →
      Shows evicts later chains lists → Lru later lists lru → Pool later (lru.map Cached.addr : List Nat) →
      CacheOnly world later → later.nodes = world.nodes → later.nodeCount = world.nodeCount →
      (∀ bucket, Kept (lists bucket) world later) → post (.E_read_failed, some addr) later) :
    Meets allowed accepted (LRUCache.getPage fails offset) world post := by
  have counted := cache.counted
  obtain ⟨addr, rest, stack, free, unused, taken⟩ := pool.take (by simp; omega)
  rw [Multiset.mem_coe] at unused
  have kept : ∀ (page : KeyPage) (later : World), later.nodes = world.nodes →
      later.pages = Function.update world.pages addr page →
      ∀ bucket, Kept (lists bucket) world later := by
    intro page later nodes pages bucket node member
    rw [nodes, pages]
    refine ⟨rfl, ?_⟩
    intro place loaded
    obtain ⟨cid, inside, -⟩ := cache.cached loaded
    rw [Function.update_of_ne]
    rintro rfl
    exact unused (List.mem_map_of_mem (f := Cached.addr) inside)
  have samePage : ∀ (page : KeyPage) (later : World), CacheOnly world later →
      later.nodes = world.nodes → later.nodeCount = world.nodeCount →
      later.pages = Function.update world.pages addr page → Shows evicts later chains lists := by
    intro page later only nodes nodeCount pages
    exact shows.congr only nodeCount.ge (kept page later nodes pages)
  simp only [LRUCache.getPage, PageMgr.get, meets_bind, meets_reads, stack, if_neg free, meets_modifies,
    meets_pure]
  cases offset with
  | none =>
      simp only at source
      subst source
      simp only [meets_pure]
      apply ends _ addr unused
      · exact samePage _ _ rfl rfl rfl rfl
      · exact { cache with }
      · exact taken _ rfl rfl rfl rfl rfl
      iterate 7 rfl
  | some place =>
      simp only at source
      simp only [KeyFile.read, meets_bind]
      split
      · rename_i broken
        simp only [meets_pure, meets_bind]
        refine freePage_meets (taken _ rfl rfl rfl rfl rfl) ?_
        rintro later rfl given
        apply fail _ addr place rfl broken
        · exact samePage _ _ rfl rfl rfl rfl
        · exact { cache with }
        · exact given
        iterate 3 rfl
        · exact kept _ _ rfl rfl
      · simp only [meets_reads, source, meets_bind, meets_modifies, meets_pure, Function.update_idem]
        apply ends _ addr unused
        · exact samePage _ _ rfl rfl rfl rfl
        · exact { cache with }
        · exact taken _ rfl rfl rfl rfl rfl
        iterate 7 rfl

/-- A page, its node and its cache node come together at the head of the LRU list. -/
theorem attach_meets {post : Unit → World → Prop} {lru : List Cached} {node cid addr : Nat}
    {offset : Off} (cache : Lru world lists lru)
    (pool : Pool world (addr ::ₘ (lru.map Cached.addr : List Nat)))
    (fresh : cid ∉ lru.map Cached.cid) (known : cid < world.cnodeCount ∧ node < world.nodeCount)
    (room : world.num < world.max) (unloaded : (world.nodes node).kp = none)
    (living : (∃ bucket, node ∈ lists bucket) ∨ ∀ other, (world.cnodes other).kpn ≠ some node)
    (ends : ∀ later, Lru later lists (⟨cid, node, addr⟩ :: lru) →
      Pool later ((⟨cid, node, addr⟩ :: lru).map Cached.addr : List Nat) → CacheOnly world later →
      later.nodes = Function.update world.nodes node ⟨some addr, offset, some cid, none, none⟩ →
      later.nodeCount = world.nodeCount → later.pages = world.pages → post () later) :
    Meets allowed accepted (LRUCache.attach node cid addr offset) world post := by
  have counted := cache.counted
  have finish : ∀ later : World, CacheOnly world later → later.pages = world.pages →
      later.nodeCount = world.nodeCount → later.cnodeCount = world.cnodeCount →
      later.num = world.num + 1 → later.nextFreePage = world.nextFreePage →
      later.numOfFreePages = world.numOfFreePages → later.head = some cid →
      later.nodes = Function.update world.nodes node ⟨some addr, offset, some cid, none, none⟩ →
      later.cnodes cid = ⟨some node, none, world.head⟩ →
      (∀ other, other ≠ cid → (later.cnodes other).kpn = (world.cnodes other).kpn ∧
        (later.cnodes other).prev =
          (if world.head = some other then some cid else (world.cnodes other).prev) ∧
        (later.cnodes other).next = (world.cnodes other).next) → post () later := by
    intro later only pages nodeCount cnodeCount num stack free head nodes own others
    have apart : ∀ cached ∈ lru, cached.cid ≠ cid := by
      rintro cached member rfl
      exact fresh (List.mem_map_of_mem member)
    apply ends later _ _ only nodes nodeCount pages
    · refine cache.attach fresh unloaded ?_ living ?_ ?_ nodeCount.ge cnodeCount.ge ?_ ?_ ?_ head ?_
      · rw [cnodeCount, nodeCount]
        exact known
      · intro another differs
        rw [nodes, Function.update_of_ne differs]
      · rw [nodes, Function.update_self]
        exact ⟨rfl, rfl⟩
      · rw [num, only.max]
        omega
      · exact fun another differs => (others another differs).1
      · rw [own]
      · apply cache.joined.pushFront cache.distinct
        · rw [own]
        · rw [own, cache.head, Option.or_none]
        · intro cached member
          rw [(others _ (apart cached member)).2.1, cache.head]
        · intro cached member
          rw [(others _ (apart cached member)).2.2]
    · rw [List.map_cons, ← Multiset.cons_coe]
      exact pool.congr only.max only.kpSize only.poolSize free stack
  simp only [LRUCache.attach, LRUCache.add, LRUCache.setNode, LRUCache.setCNode, meets_bind,
    meets_modifies, meets_reads]
  cases top : world.head with
  | none =>
      simp only [meets_bind, meets_modifies]
      apply finish
      iterate 9 rfl
      · simp [top]
      · intro other differs
        simp [differs, top]
  | some start =>
      have notCid : start ≠ cid := by
        rintro rfl
        rw [cache.head] at top
        obtain ⟨first, inside, same⟩ := Option.map_eq_some_iff.1 top
        rw [← same] at fresh
        exact fresh (List.mem_map_of_mem (List.mem_of_mem_head? inside))
      simp only [meets_bind, meets_modifies]
      apply finish
      iterate 9 rfl
      · simp [top, notCid.symm]
      · intro other differs
        by_cases same : other = start
        · subst same
          simp [differs, top]
        · simp [differs, top, same, Ne.symm same]

theorem Kept.trans {list : List Nat} {middle later : World} (first : Kept list world middle)
    (second : Kept list middle later) : Kept list world later := by
  intro node member
  obtain ⟨same, pages⟩ := first node member
  obtain ⟨sameLater, pagesLater⟩ := second node member
  rw [same] at sameLater pagesLater
  refine ⟨sameLater, ?_⟩
  intro addr loaded
  rw [pagesLater addr loaded, pages addr loaded]

/-- A new node comes with its page, or the read of the page failed. -/
theorem get_meets {post : Code × Nat → World → Prop} {fails : Failures} {offset : Off} {page : KeyPage}
    (rep : Rep evicts world chains lists) (harmless : ∀ event, allowed event → evicts ∧ Harmless bucket event)
    (homes : ∀ other, ∀ item ∈ chains other, item.2.hash = other)
    (source : match offset with
      | none => page = KeyPage.zero world.kpSize
      | some place => world.idx[place / world.kpSize]? = some page)
    (ends : ∀ later node addr cid, Rep evicts later chains lists → CacheOnly world later →
      Kept (lists bucket) world later → (∀ other, node ∉ lists other) → node < later.nodeCount →
      later.nodes node = ⟨some addr, offset, some cid, none, none⟩ → later.pages addr = page →
      post (.E_ok, node) later)
    (fail : ∀ later node place, offset = some place → fails (.readKeyPage place) = true →
      Rep evicts later chains lists → CacheOnly world later → Kept (lists bucket) world later →
      post (.E_read_failed, node) later) :
    Meets allowed accepted (LRUCache.get fails offset) world post := by
  simp only [LRUCache.get, meets_bind]
  apply getCacheNode_meets rep harmless homes
  intro middle cid lru shows only kept nodeCount vacant pool
  simp only [meets_bind, meets_reads, meets_modifies]
  have fresh : ∀ other, middle.nodeCount ∉ lists other := by
    intro other member
    exact lt_irrefl _ (shows.buckets.known other _ member)
  have unloaded : (middle.nodes middle.nodeCount).kp = none := by
    cases loaded : (middle.nodes middle.nodeCount).kp with
    | none => rfl
    | some addr =>
        obtain ⟨cached, member, same⟩ := vacant.cache.loaded _ _ loaded
        have known := (vacant.cache.known cached member).2
        omega
  have unnamed : ∀ other, (middle.cnodes other).kpn ≠ some middle.nodeCount := by
    intro other named
    exact lt_irrefl _ (vacant.cache.named other _ named).1
  have grown : CacheOnly middle { middle with nodeCount := middle.nodeCount + 1 } := rfl
  have shown : Shows evicts { middle with nodeCount := middle.nodeCount + 1 } chains lists :=
    shows.congr grown (Nat.le_succ _) fun other node member => ⟨rfl, fun _ _ => rfl⟩
  have grownCache : Lru { middle with nodeCount := middle.nodeCount + 1 } lists lru :=
    vacant.cache.reorder (List.Perm.refl lru) rfl (Nat.le_succ _) le_rfl rfl rfl
      (fun other => Or.inl rfl) vacant.cache.head vacant.cache.joined
  refine getPage_meets page shown grownCache (pool.congr rfl rfl rfl rfl rfl) vacant.room ?_ ?_ ?_
  · cases offset with
    | none => exact source.trans (by rw [only.kpSize])
    | some place =>
        show middle.idx[place / middle.kpSize]? = some page
        rw [only.idx, only.kpSize]
        exact source
  · intro filled addr unused filledShows filledCache filledPool filledOnly nodes filledCount cnodes
      cnodeCount num pages
    simp only [meets_bind, meets_pure]
    apply attach_meets filledCache filledPool vacant.fresh
    · rw [cnodeCount, filledCount]
      exact ⟨vacant.known, Nat.lt_succ_self _⟩
    · rw [num, filledOnly.max]
      exact vacant.room
    · rw [nodes]
      exact unloaded
    · right
      rw [cnodes]
      exact unnamed
    · intro later cache laterPool laterOnly laterNodes laterCount laterPages
      have same : ∀ other, Kept (lists other) filled later := by
        intro other node member
        rw [laterNodes, laterPages, Function.update_of_ne]
        · exact ⟨rfl, fun _ _ => rfl⟩
        · rintro rfl
          exact fresh other member
      have step : ∀ other, Kept (lists other) middle filled := by
        intro other node member
        rw [nodes, pages]
        refine ⟨rfl, ?_⟩
        intro place loaded
        obtain ⟨another, inside, -⟩ := vacant.cache.cached loaded
        rw [Function.update_of_ne]
        rintro rfl
        exact unused (List.mem_map_of_mem (f := Cached.addr) inside)
      apply ends later middle.nodeCount addr cid
      · exact ⟨filledShows.congr laterOnly laterCount.ge same, _, cache, laterPool⟩
      · exact only.trans (grown.trans (filledOnly.trans laterOnly))
      · exact kept.trans ((step bucket).trans (same bucket))
      · exact fresh
      · rw [laterCount, filledCount]
        exact Nat.lt_succ_self _
      · rw [laterNodes, Function.update_self]
      · rw [laterPages, pages, Function.update_self]
  · intro later addr place same broken laterShows cache laterPool laterOnly nodes laterCount laterKept
    simp only [meets_pure]
    apply fail later middle.nodeCount place same broken ⟨laterShows, _, cache, laterPool⟩
    · exact only.trans (grown.trans laterOnly)
    · exact kept.trans (laterKept bucket)

/-- The view after the only node of a list got its page again. -/
theorem Shows.reload {later : World} {node addr cid : Nat} {item : Nat × KeyPage}
    (shows : Shows evicts world chains lists) (only : CacheOnly world later)
    (nodeCount : later.nodeCount = world.nodeCount) (member : node ∈ lists bucket)
    (unloaded : (world.nodes node).kp = none) (there : (chains bucket).head? = some item)
    (rest : ∀ another, another ≠ node → later.nodes another = world.nodes another ∧
      ∀ place, (world.nodes another).kp = some place → later.pages place = world.pages place)
    (filled : later.nodes node = ⟨some addr, some item.1, some cid, none, none⟩)
    (page : later.pages addr = item.2) : Shows evicts later chains lists := by
  have single := (shows.alone bucket node member unloaded).2
  have joined := shows.buckets.joined bucket
  rw [single] at joined
  have only' : ∀ other, node ∈ lists other → other = bucket := by
    intro other inside
    exact shows.buckets.apart other bucket node inside member
  exact {
    buckets := by
      apply shows.buckets.congr only.entries nodeCount.ge
      intro other another inside
      by_cases same : another = node
      · rw [same, filled]
        exact ⟨joined.1.symm, joined.2.1.symm⟩
      · rw [(rest another same).1]
        exact ⟨rfl, rfl⟩
    short := shows.short
    cached := by
      intro other place another entry place' here found loaded
      by_cases same : another = node
      · subst same
        have home := only' _ (List.mem_of_getElem? here)
        subst home
        rw [single] at here
        have first : place = 0 := by
          have bound := (List.getElem?_eq_some_iff.1 here).1
          simpa using bound
        subst first
        rw [← List.head?_eq_getElem?, there] at found
        cases found
        rw [filled] at loaded ⊢
        cases loaded
        exact ⟨rfl, page⟩
      · obtain ⟨sameNode, pages⟩ := rest another same
        rw [sameNode] at loaded ⊢
        rw [pages _ loaded]
        exact shows.cached _ place another entry place' here found loaded
    stored := by
      intro other place entry found free
      rw [only.idx, only.kpSize]
      apply shows.stored other place entry found
      intro another here
      by_cases same : another = node
      · rw [same]
        exact unloaded
      · rw [← (rest another same).1]
        exact free another here
    alone := by
      intro other another inside free
      by_cases same : another = node
      · rw [same, filled] at free
        cases free
      · rw [(rest another same).1] at free
        exact shows.alone other another inside free
    offset := by
      rw [only.entries]
      exact shows.offset }

/-- The only node of a list gets its page again, or the read of the page failed. -/
theorem update_meets {post : Code → World → Prop} {fails : Failures} {node : Nat}
    {item : Nat × KeyPage} (rep : Rep evicts world chains lists)
    (harmless : ∀ event, allowed event → evicts ∧ Harmless bucket event)
    (homes : ∀ other, ∀ item ∈ chains other, item.2.hash = other)
    (member : node ∈ lists bucket) (unloaded : (world.nodes node).kp = none)
    (there : (chains bucket).head? = some item)
    (ends : ∀ later, Rep evicts later chains lists → CacheOnly world later →
      (later.nodes node).kp ≠ none → post .E_ok later)
    (fail : ∀ later, fails (.readKeyPage item.1) = true → Rep evicts later chains lists →
      CacheOnly world later → post .E_read_failed later) :
    Meets allowed accepted (LRUCache.update fails node (some item.1)) world post := by
  have single := (rep.alone bucket node member unloaded).2
  have source : world.idx[item.1 / world.kpSize]? = some item.2 := by
    apply rep.stored bucket 0 item (by rw [← List.head?_eq_getElem?]; exact there)
    intro another here
    rw [single] at here
    cases here
    exact unloaded
  simp only [LRUCache.update, meets_bind]
  apply getCacheNode_meets rep harmless homes
  intro middle cid lru shows only kept nodeCount vacant pool
  have still : (middle.nodes node).kp = none := by
    rw [(kept node member).1]
    exact unloaded
  simp only [meets_bind]
  refine getPage_meets item.2 shows vacant.cache pool vacant.room ?_ ?_ ?_
  · show middle.idx[item.1 / middle.kpSize]? = some item.2
    rw [only.idx, only.kpSize]
    exact source
  · intro filled addr unused filledShows filledCache filledPool filledOnly nodes filledCount cnodes
      cnodeCount num pages
    simp only [meets_bind, meets_pure]
    apply attach_meets filledCache filledPool vacant.fresh
    · rw [cnodeCount, filledCount]
      exact ⟨vacant.known, shows.buckets.known bucket node member⟩
    · rw [num, filledOnly.max]
      exact vacant.room
    · rw [nodes]
      exact still
    · exact Or.inl ⟨bucket, member⟩
    · intro later cache laterPool laterOnly laterNodes laterCount laterPages
      have own : later.nodes node = ⟨some addr, some item.1, some cid, none, none⟩ := by
        rw [laterNodes, Function.update_self]
      apply ends later ⟨?_, _, cache, laterPool⟩
      · exact only.trans (filledOnly.trans laterOnly)
      · rw [own]
        exact Option.some_ne_none addr
      · refine filledShows.reload laterOnly laterCount member (by rw [nodes]; exact still) there ?_ own ?_
        · intro another differs
          rw [laterNodes, laterPages, Function.update_of_ne differs]
          exact ⟨rfl, fun _ _ => rfl⟩
        · rw [laterPages, pages, Function.update_self]
  · intro later addr place same broken laterShows cache laterPool laterOnly nodes laterCount laterKept
    cases same
    simp only [meets_pure]
    exact fail later broken ⟨laterShows, _, cache, laterPool⟩ (only.trans laterOnly)

end Specs

end SimpleNFast.Rdb
