import SimpleNFast.Proof.Rdb.CacheSpecs

namespace SimpleNFast.Rdb
open Program LinkedList

/-- Only the members of the cache and the entries of the hash table may differ. -/
def MemoryOnly (world later : World) : Prop :=
  later = { world with
    entries := later.entries
    nodes := later.nodes
    nodeCount := later.nodeCount
    cnodes := later.cnodes
    cnodeCount := later.cnodeCount
    num := later.num
    head := later.head
    tail := later.tail
    pages := later.pages
    nextFreePage := later.nextFreePage
    numOfFreePages := later.numOfFreePages }

namespace MemoryOnly

variable {world middle later : World}

theorem trans (first : MemoryOnly world middle) (second : MemoryOnly middle later) :
    MemoryOnly world later := by
  unfold MemoryOnly at *
  rw [first] at second
  exact second

theorem idx (only : MemoryOnly world later) : later.idx = world.idx := by rw [only]

theorem kpSize (only : MemoryOnly world later) : later.kpSize = world.kpSize := by rw [only]

theorem htSize (only : MemoryOnly world later) : later.htSize = world.htSize := by rw [only]

theorem max (only : MemoryOnly world later) : later.max = world.max := by rw [only]

theorem poolSize (only : MemoryOnly world later) : later.poolSize = world.poolSize := by rw [only]

end MemoryOnly

theorem CacheOnly.memory {world later : World} (only : CacheOnly world later) : MemoryOnly world later := by
  unfold MemoryOnly
  rw [only]

/-- All nodes of a list have their pages. -/
def Ready (world : World) (list : List Nat) : Prop := ∀ node ∈ list, (world.nodes node).kp ≠ none

section Specs

variable {evicts : Prop} {allowed : Eviction → Prop} {accepted : Stop → Prop} {world : World}
  {chains next : Nat → Chain} {lists : Nat → List Nat} {bucket node : Nat}

/-- A cached page outside the lists leaves the cache. -/
theorem free_meets {post : Unit → World → Prop} {addr : Nat} (rep : Rep evicts world chains lists)
    (loaded : (world.nodes node).kp = some addr) (outside : ∀ other, node ∉ lists other)
    (ends : ∀ later, Rep evicts later chains lists → CacheOnly world later →
      (∀ other, Kept (lists other) world later) → post () later) :
    Meets allowed accepted (LRUCache.free node) world post := by
  obtain ⟨lru, cache, pool⟩ := rep.cache
  obtain ⟨cid, member, holds⟩ := cache.cached loaded
  obtain ⟨first, last, rfl⟩ := List.append_of_mem member
  obtain ⟨backward, forward⟩ := cache.joined.middle
  obtain ⟨notBefore, notAfter⟩ := cache.joined.apart cache.distinct
  have inside : addr * world.kpSize < world.poolSize := pool.addr_lt (by simp)
  have finish : ∀ later : World, CacheOnly world later → later.pages = world.pages →
      later.nodeCount = world.nodeCount → later.cnodeCount = world.cnodeCount →
      later.num = world.num → later.nextFreePage = addr :: world.nextFreePage →
      later.numOfFreePages = world.numOfFreePages + 1 →
      later.nodes = Function.update world.nodes node
        { world.nodes node with kp := none, kpoff := none, cnode := none } →
      (later.head = if (world.cnodes cid).prev = none then (world.cnodes cid).next else world.head) →
      (∀ other, (later.cnodes other).kpn = (world.cnodes other).kpn) →
      (∀ other, (later.cnodes other).prev = if (world.cnodes cid).next = some other then
        (world.cnodes cid).prev else (world.cnodes other).prev) →
      (∀ other, (later.cnodes other).next = if (world.cnodes cid).prev = some other then
        (world.cnodes cid).next else (world.cnodes other).next) → post () later := by
    intro later only pages nodeCount cnodeCount num stack free nodes head kpn prevs nexts
    have kept : ∀ other, Kept (lists other) world later := by
      intro other another listed
      rw [nodes, pages, Function.update_of_ne]
      · exact ⟨rfl, fun _ _ => rfl⟩
      · rintro rfl
        exact outside other listed
    have counted := cache.counted
    rw [List.length_append, List.length_cons] at counted
    have smaller : Lru later lists (first ++ last) := by
      apply cache.drop _ _ nodeCount cnodeCount
      · rw [List.length_append, num, only.max]
        omega
      · exact fun another _ => kpn another
      · right
        rw [kpn]
        exact ⟨(cache.attached _ member).1, outside⟩
      · rw [head, cache.head, backward, forward]
        cases first with
        | nil => simp
        | cons top rest => simp [List.getLast?_cons]
      · apply cache.joined.unlink cache.distinct (by simp) (by simp)
        · exact fun other _ => prevs other.cid
        · exact fun other _ => nexts other.cid
      · intro another differs
        rw [nodes, Function.update_of_ne differs]
      · rw [nodes, Function.update_self]
        exact ⟨rfl, rfl⟩
    have given : Pool later ((first ++ last).map Cached.addr : List Nat) := by
      have whole : (((first ++ (⟨cid, node, addr⟩ : Cached) :: last).map Cached.addr : List Nat) :
          Multiset Nat) = addr ::ₘ ((first ++ last).map Cached.addr : List Nat) := by
        rw [Multiset.cons_coe]
        exact Multiset.coe_eq_coe.2 (List.perm_middle.map Cached.addr)
      rw [whole] at pool
      exact pool.give only.max only.kpSize only.poolSize free stack
    exact ends later ⟨rep.toShows.congr only nodeCount.ge kept, _, smaller, given⟩ only kept
  simp only [LRUCache.free, LRUCache.freeCNode, LRUCache.setCNode, LRUCache.setNode, PageMgr.free, assert,
    meets_bind, meets_reads, holds, loaded]
  cases back : (world.cnodes cid).prev with
  | none =>
      cases ahead : (world.cnodes cid).next with
      | none =>
          simp only [meets_bind, meets_modifies, meets_reads, meets_requires, meets_pure, back, ahead,
            inside, decide_true, if_true]
          apply finish
          iterate 8 rfl
          all_goals simp [back, ahead]
      | some after =>
          have differs : cid ≠ after := by
            rintro rfl
            exact notAfter ahead
          simp only [meets_bind, meets_modifies, meets_reads, meets_requires, back, ahead, inside,
            decide_true, if_true, prev_relink, next_relink, if_neg differs]
          apply finish
          iterate 8 rfl
          · simp [back, ahead]
          all_goals
            intro other
            simp only [kpn_relink, prev_relink, next_relink, back, ahead, Option.some.injEq]
            grind
  | some before =>
      have notSelf : cid ≠ before := by
        rintro rfl
        exact notBefore back
      cases ahead : (world.cnodes cid).next with
      | none =>
          simp only [meets_bind, meets_modifies, meets_reads, meets_requires, back, ahead, inside,
            decide_true, if_true, prev_relink, next_relink, if_neg notSelf]
          apply finish
          iterate 8 rfl
          · simp [back]
          all_goals
            intro other
            simp only [kpn_relink, prev_relink, next_relink, back, ahead, Option.some.injEq]
            grind
      | some after =>
          have differs : cid ≠ after := by
            rintro rfl
            exact notAfter ahead
          simp only [meets_bind, meets_modifies, meets_reads, meets_requires, back, ahead, inside,
            decide_true, if_true, prev_relink, next_relink, if_neg notSelf]
          apply finish
          iterate 8 rfl
          · simp [back]
          all_goals
            intro other
            simp only [kpn_relink, prev_relink, next_relink, back, ahead, Option.some.injEq]
            grind

/-- The representation depends on the memory that the lists and the cache use. -/
theorem Lru.congr {later : World} {lru : List Cached} {grown : Nat → List Nat}
    (cache : Lru world lists lru) (only : MemoryOnly world later) (cnodes : later.cnodes = world.cnodes)
    (cnodeCount : later.cnodeCount = world.cnodeCount) (nodeCount : later.nodeCount = world.nodeCount)
    (num : later.num = world.num) (head : later.head = world.head)
    (nodes : ∀ another, (later.nodes another).kp = (world.nodes another).kp ∧
      (later.nodes another).cnode = (world.nodes another).cnode)
    (listed : ∀ another, (∀ other, another ∉ lists other) → (world.nodes another).kp = none →
      ∀ other, another ∉ grown other) : Lru later grown lru where
  head := head.trans cache.head
  joined := by
    rw [cnodes]
    exact cache.joined
  distinct := cache.distinct
  known := by
    rw [cnodeCount, nodeCount]
    exact cache.known
  attached cached member := by
    rw [cnodes, (nodes _).1, (nodes _).2]
    exact cache.attached cached member
  loaded another addr loaded := by
    rw [(nodes another).1] at loaded
    exact cache.loaded another addr loaded
  idle another unloaded := by
    rw [(nodes another).1] at unloaded
    rw [(nodes another).2]
    exact cache.idle another unloaded
  named cid another names := by
    rw [cnodes] at names
    rw [nodeCount, (nodes another).1, (nodes another).2]
    obtain ⟨known, rest⟩ := cache.named cid another names
    refine ⟨known, ?_⟩
    rcases rest with holds | dead
    · exact Or.inl holds
    · exact Or.inr ⟨dead.1, listed another dead.2 dead.1⟩
  counted := by
    rw [num, only.max]
    exact cache.counted

/-- The view after a loaded node entered at the end of its list. -/
theorem Shows.append {later : World} {addr : Nat} {item : Nat × KeyPage}
    (shows : Shows evicts world chains lists) (only : MemoryOnly world later)
    (nodeCount : later.nodeCount = world.nodeCount) (pages : later.pages = world.pages)
    (ready : Ready world (lists bucket)) (outside : ∀ other, node ∉ lists other)
    (known : node < world.nodeCount)
    (loaded : (world.nodes node).kp = some addr) (placed : (world.nodes node).kpoff = some item.1)
    (page : world.pages addr = item.2)
    (agree : ∀ other, other ≠ bucket → next other = chains other)
    (before : ∀ place, place < (lists bucket).length →
      (next bucket)[place]? = (chains bucket)[place]?)
    (here : (next bucket)[(lists bucket).length]? = some item)
    (beyond : ∀ place entry, (lists bucket).length < place → (next bucket)[place]? = some entry →
      world.idx[entry.1 / world.kpSize]? = some entry.2)
    (entries : ∀ other, other ≠ bucket → later.entries other = world.entries other)
    (entry : later.entries bucket = ⟨if lists bucket = [] then some item.1 else
      (world.entries bucket).offset, (lists bucket ++ [node]).head?, some node⟩)
    (own : later.nodes node = { world.nodes node with prev := (lists bucket).getLast?, next := none })
    (rest : ∀ another, another ≠ node → later.nodes another = { world.nodes another with
      next := if (lists bucket).getLast? = some another then some node else (world.nodes another).next }) :
    Shows evicts later next (Function.update lists bucket (lists bucket ++ [node])) := by
  have kp : ∀ another, (later.nodes another).kp = (world.nodes another).kp ∧
      (later.nodes another).kpoff = (world.nodes another).kpoff := by
    intro another
    by_cases same : another = node
    · rw [same, own]
      exact ⟨rfl, rfl⟩
    · rw [rest another same]
      exact ⟨rfl, rfl⟩
  have member : ∀ other, ∀ another ∈ lists other, another ≠ node := by
    rintro other another inside rfl
    exact outside other inside
  have reached := shows.short bucket
  have total : (lists bucket).length < (next bucket).length := (List.getElem?_eq_some_iff.1 here).1
  exact {
    buckets := by
      apply shows.buckets.replace entries nodeCount.ge
      · intro other differs another inside
        rw [rest another (member other another inside)]
        refine ⟨rfl, ?_⟩
        show (if _ then _ else _) = _
        rw [if_neg]
        intro last
        exact differs (shows.buckets.apart other bucket another inside (List.mem_of_getLast? last))
      · rw [entry]
      · rw [entry, List.getLast?_append]
        rfl
      · apply (shows.buckets.joined bucket).append
        · rw [List.map_id]
          exact shows.buckets.distinct bucket
        · rw [own, Option.map_id, id_eq, Option.or_none]
        · rw [own]
        · intro another inside
          rw [rest another (member bucket another inside)]
        · intro another inside
          rw [rest another (member bucket another inside), Option.map_id, id_eq]
          rfl
      · exact List.nodup_append.2 ⟨shows.buckets.distinct bucket, List.nodup_singleton node, by
          intro another inside other single
          rw [List.mem_singleton.1 single]
          exact member bucket another inside⟩
      · intro other differs another inside
        rcases List.mem_append.1 inside with old | new
        · intro twice
          exact differs (shows.buckets.apart other bucket another twice old)
        · rw [List.mem_singleton.1 new]
          exact outside other
      · intro another inside
        rw [nodeCount]
        rcases List.mem_append.1 inside with old | new
        · exact shows.buckets.known bucket another old
        · rw [List.mem_singleton.1 new]
          exact known
    short := by
      intro other
      by_cases same : other = bucket
      · rw [same, Function.update_self, List.length_append, List.length_singleton]
        exact total
      · rw [Function.update_of_ne same, agree other same]
        exact shows.short other
    cached := by
      intro other place another found spot listed there held
      rw [(kp another).1] at held
      rw [(kp another).2, pages]
      by_cases same : other = bucket
      · subst same
        rw [Function.update_self, List.getElem?_append] at listed
        split at listed
        · rename_i old
          rw [before place old] at there
          exact shows.cached other place another found spot listed there held
        · obtain ⟨bound, named⟩ := List.getElem?_eq_some_iff.1 listed
          have last : place = (lists other).length := by
            simp only [List.length_singleton] at bound
            omega
          subst last
          rw [here] at there
          cases there
          simp only [Nat.sub_self, List.getElem_cons_zero] at named
          subst named
          rw [loaded] at held
          cases held
          exact ⟨placed, page⟩
      · rw [Function.update_of_ne same] at listed
        rw [agree other same] at there
        exact shows.cached other place another found spot listed there held
    stored := by
      intro other place found there free
      rw [only.idx, only.kpSize]
      by_cases same : other = bucket
      · subst same
        rw [Function.update_self] at free
        rcases lt_trichotomy place (lists other).length with old | last | far
        · have first := List.getElem?_eq_getElem old
          have empty := free _ (by rw [List.getElem?_append_left old]; exact first)
          rw [(kp _).1] at empty
          exact absurd empty (ready _ (List.getElem_mem old))
        · have empty := free node (by rw [last]; simp)
          rw [(kp node).1, loaded] at empty
          cases empty
        · exact beyond place found far there
      · rw [agree other same] at there
        rw [Function.update_of_ne same] at free
        apply shows.stored other place found there
        intro another listed
        rw [← (kp another).1]
        exact free another listed
    alone := by
      intro other another inside free
      rw [(kp another).1] at free
      by_cases same : other = bucket
      · subst same
        rw [Function.update_self] at inside
        rcases List.mem_append.1 inside with old | new
        · exact absurd free (ready another old)
        · rw [List.mem_singleton.1 new, loaded] at free
          cases free
      · rw [Function.update_of_ne same] at inside ⊢
        exact shows.alone other another inside free
    offset := by
      intro other
      by_cases same : other = bucket
      · subst same
        rw [entry]
        show (if _ then _ else _) = _
        split
        · rename_i bare
          rw [bare, List.length_nil] at here
          rw [List.head?_eq_getElem?, here]
          rfl
        · rename_i full
          have start := before 0 (List.length_pos_of_ne_nil full)
          rw [List.head?_eq_getElem?, start, ← List.head?_eq_getElem?]
          exact shows.offset other
      · rw [entries other same, agree other same]
        exact shows.offset other }

/-- A loaded node enters its list and shows the next page of the chain. -/
theorem addKeyPageNode_meets {post : Unit → World → Prop} {addr cid : Nat} (next : Nat → Chain)
    (item : Nat × KeyPage) (rep : Rep evicts world chains lists) (ready : Ready world (lists bucket))
    (inside : bucket < world.htSize) (outside : ∀ other, node ∉ lists other)
    (known : node < world.nodeCount)
    (filled : world.nodes node = ⟨some addr, some item.1, some cid, none, none⟩)
    (page : world.pages addr = item.2)
    (agree : ∀ other, other ≠ bucket → next other = chains other)
    (before : ∀ place, place < (lists bucket).length →
      (next bucket)[place]? = (chains bucket)[place]?)
    (here : (next bucket)[(lists bucket).length]? = some item)
    (beyond : ∀ place entry, (lists bucket).length < place → (next bucket)[place]? = some entry →
      world.idx[entry.1 / world.kpSize]? = some entry.2)
    (ends : ∀ later, Rep evicts later next (Function.update lists bucket (lists bucket ++ [node])) →
      MemoryOnly world later → later.pages = world.pages →
      (∀ another, (later.nodes another).kp = (world.nodes another).kp) → post () later) :
    Meets allowed accepted (HashTable.addKeyPageNode bucket node) world post := by
  obtain ⟨lru, cache, pool⟩ := rep.cache
  have loaded : (world.nodes node).kp = some addr := by rw [filled]
  have finish : ∀ later : World, MemoryOnly world later → later.pages = world.pages →
      later.nodeCount = world.nodeCount → later.cnodes = world.cnodes →
      later.cnodeCount = world.cnodeCount → later.num = world.num → later.head = world.head →
      later.nextFreePage = world.nextFreePage → later.numOfFreePages = world.numOfFreePages →
      (∀ other, other ≠ bucket → later.entries other = world.entries other) →
      (later.entries bucket = ⟨if lists bucket = [] then some item.1 else
        (world.entries bucket).offset, (lists bucket ++ [node]).head?, some node⟩) →
      (later.nodes node = { world.nodes node with prev := (lists bucket).getLast?, next := none }) →
      (∀ another, another ≠ node → later.nodes another = { world.nodes another with
        next := if (lists bucket).getLast? = some another then some node
          else (world.nodes another).next }) → post () later := by
    intro later only pages nodeCount cnodes cnodeCount num head stack free entries entry own rest
    have same : ∀ another, (later.nodes another).kp = (world.nodes another).kp ∧
        (later.nodes another).cnode = (world.nodes another).cnode := by
      intro another
      by_cases self : another = node
      · rw [self, own]
        exact ⟨rfl, rfl⟩
      · rw [rest another self]
        exact ⟨rfl, rfl⟩
    have shows := rep.toShows.append only nodeCount pages ready outside known loaded (by rw [filled]) page
      agree before here beyond entries entry own rest
    have grown : Lru later (Function.update lists bucket (lists bucket ++ [node])) lru := by
      apply cache.congr only cnodes cnodeCount nodeCount num head same
      intro another nowhere unloaded other member
      by_cases self : other = bucket
      · rw [self, Function.update_self] at member
        rcases List.mem_append.1 member with old | new
        · exact nowhere bucket old
        · rw [List.mem_singleton.1 new, loaded] at unloaded
          cases unloaded
      · rw [Function.update_of_ne self] at member
        exact nowhere other member
    exact ends later ⟨shows, lru, grown, pool.congr only.max only.kpSize only.poolSize free stack⟩ only
      pages fun another => (same another).1
  simp only [HashTable.addKeyPageNode, HashTable.getEntry, HashTable.setEntry, LRUCache.setNode, assert,
    meets_bind, meets_reads, meets_requires, meets_modifies, inside, decide_true, if_true,
    rep.buckets.head, rep.buckets.tail]
  cases list : lists bucket with
  | nil =>
      simp only [List.head?_nil, meets_bind, meets_reads, meets_modifies]
      apply finish
      iterate 9 rfl
      · intro other differs
        simp [differs]
      · simp [list, filled]
      · simp [list, filled]
      · intro another differs
        simp [differs, list]
  | cons first rest =>
      have tail : ∃ last, (first :: rest).getLast? = some last :=
        ⟨_, List.getLast?_eq_some_getLast (List.cons_ne_nil first rest)⟩
      obtain ⟨last, final⟩ := tail
      have notLast : last ≠ node := by
        rintro rfl
        apply outside bucket
        rw [list]
        exact List.mem_of_getLast? final
      simp only [List.head?_cons, final, meets_bind, meets_modifies]
      apply finish
      iterate 9 rfl
      · intro other differs
        simp [differs]
      · simp only [Function.update_self, list]
        rw [rep.buckets.head, list]
        simp
      · simp [list, filled, final, notLast.symm]
      · intro another differs
        by_cases same : another = last
        · subst same
          simp [list, final, differs]
        · simp [list, final, differs, same, Ne.symm same]

/-- The view after a node left its list together with its page. -/
theorem Shows.remove {later : World} {first last : List Nat} {nearer farther : Chain}
    {item : Nat × KeyPage} (shows : Shows evicts world chains lists) (only : MemoryOnly world later)
    (nodeCount : later.nodeCount = world.nodeCount) (pages : later.pages = world.pages)
    (ready : Ready world (lists bucket)) (list : lists bucket = first ++ node :: last)
    (chain : chains bucket = nearer ++ item :: farther) (places : first.length = nearer.length)
    (reached : farther ≠ [] → last ≠ [])
    (entries : ∀ other, other ≠ bucket → later.entries other = world.entries other)
    (head : (later.entries bucket).head = (first ++ last).head?)
    (tail : (later.entries bucket).tail = (first ++ last).getLast?)
    (offset : (later.entries bucket).offset = if first = [] then
      last.head?.bind fun after => (world.nodes after).kpoff else (world.entries bucket).offset)
    (rest : ∀ another, later.nodes another = { world.nodes another with
      prev := if (world.nodes node).next = some another then (world.nodes node).prev
        else (world.nodes another).prev
      next := if (world.nodes node).prev = some another then (world.nodes node).next
        else (world.nodes another).next }) :
    Shows evicts later (Function.update chains bucket (nearer ++ farther))
      (Function.update lists bucket (first ++ last)) := by
  have joined := shows.buckets.joined bucket
  have distinct := shows.buckets.distinct bucket
  rw [list] at joined distinct
  obtain ⟨backward, forward⟩ := joined.middle
  have inside : ∀ another ∈ first ++ last, another ∈ lists bucket := by
    intro another member
    rw [list]
    rcases List.mem_append.1 member with left | right
    · exact List.mem_append_left _ left
    · exact List.mem_append_right _ (List.mem_cons_of_mem _ right)
  have around : (first ++ node :: last).Perm (node :: (first ++ last)) := List.perm_middle
  have kp : ∀ another, (later.nodes another).kp = (world.nodes another).kp ∧
      (later.nodes another).kpoff = (world.nodes another).kpoff := by
    intro another
    rw [rest another]
    exact ⟨rfl, rfl⟩
  have shift : ∀ (place : Nat) (found : Nat × KeyPage), (nearer ++ farther)[place]? = some found →
      ∃ spot : Nat, (chains bucket)[spot]? = some found ∧
        (lists bucket)[spot]? = (first ++ last)[place]? := by
    intro place found there
    rw [list, chain]
    by_cases near : place < first.length
    · rw [List.getElem?_append_left (by omega)] at there
      refine ⟨place, ?_, ?_⟩
      · rw [List.getElem?_append_left (by omega)]
        exact there
      · rw [List.getElem?_append_left near, List.getElem?_append_left near]
    · rw [List.getElem?_append_right (by omega)] at there
      refine ⟨place + 1, ?_, ?_⟩
      · rw [List.getElem?_append_right (by omega), Nat.sub_add_comm (by omega), List.getElem?_cons_succ]
        exact there
      · rw [List.getElem?_append_right (by omega), Nat.sub_add_comm (by omega), List.getElem?_cons_succ,
          List.getElem?_append_right (by omega)]
  exact {
    buckets := by
      apply shows.buckets.replace entries nodeCount.ge _ head tail
      · apply joined.unlink
        · rw [List.map_id]
          exact distinct
        · simp
        · simp
        · intro another member
          rw [rest another]
          rfl
        · intro another member
          rw [rest another]
          rfl
      · exact (List.nodup_cons.1 (around.nodup_iff.1 distinct)).2
      · intro other differs another member twice
        exact differs (shows.buckets.apart other bucket another twice (inside another member))
      · intro another member
        rw [nodeCount]
        exact shows.buckets.known bucket another (inside another member)
      · intro other differs another member
        rw [rest another]
        have apart : another ∉ first ++ last := by
          intro twice
          exact differs (shows.buckets.apart other bucket another member (inside another twice))
        constructor
        · show (if _ then _ else _) = _
          rw [if_neg]
          rw [forward, Option.or_none, Option.map_id, id_eq]
          intro same
          exact apart (List.mem_append_right _ (List.mem_of_mem_head? same))
        · show (if _ then _ else _) = _
          rw [if_neg]
          rw [backward, Option.or_none, Option.map_id, id_eq]
          intro same
          exact apart (List.mem_append_left _ (List.mem_of_getLast? same))
    short := by
      intro other
      by_cases same : other = bucket
      · subst same
        have short := shows.short other
        rw [list, chain, List.length_append, List.length_append, List.length_cons,
          List.length_cons] at short
        rw [Function.update_self, Function.update_self, List.length_append, List.length_append]
        omega
      · rw [Function.update_of_ne same, Function.update_of_ne same]
        exact shows.short other
    cached := by
      intro other place another found addr listed there held
      rw [(kp another).1] at held
      rw [(kp another).2, pages]
      by_cases same : other = bucket
      · subst same
        rw [Function.update_self] at listed there
        obtain ⟨spot, inChain, inList⟩ := shift place found there
        exact shows.cached other spot another found addr (inList.trans listed) inChain held
      · rw [Function.update_of_ne same] at listed there
        exact shows.cached other place another found addr listed there held
    stored := by
      intro other place found there free
      rw [only.idx, only.kpSize]
      by_cases same : other = bucket
      · subst same
        rw [Function.update_self] at there free
        obtain ⟨spot, inChain, inList⟩ := shift place found there
        apply shows.stored other spot found inChain
        intro another listed
        rw [← (kp another).1]
        exact free another (inList.symm.trans listed)
      · rw [Function.update_of_ne same] at there free
        apply shows.stored other place found there
        intro another listed
        rw [← (kp another).1]
        exact free another listed
    alone := by
      intro other another member free
      rw [(kp another).1] at free
      by_cases same : other = bucket
      · subst same
        rw [Function.update_self] at member
        exact absurd free (ready another (inside another member))
      · rw [Function.update_of_ne same] at member ⊢
        exact shows.alone other another member free
    offset := by
      intro other
      by_cases same : other = bucket
      · subst same
        rw [offset, Function.update_self]
        cases first with
        | nil =>
            have bare : nearer = [] := List.length_eq_zero_iff.1 places.symm
            subst bare
            rw [if_pos rfl]
            cases farther with
            | nil =>
                cases last with
                | nil => rfl
                | cons after more =>
                    have short := shows.short other
                    rw [list, chain] at short
                    simp at short
            | cons found more =>
                cases last with
                | nil => exact absurd rfl (reached (by simp))
                | cons after rest =>
                    have member : after ∈ lists other := by
                      rw [list]
                      simp
                    cases held : (world.nodes after).kp with
                    | none => exact absurd held (ready after member)
                    | some addr =>
                        have shown := shows.cached other 1 after found addr (by rw [list]; rfl)
                          (by rw [chain]; rfl) held
                        exact shown.1
        | cons start more =>
            rw [if_neg (by simp), shows.offset, chain]
            cases nearer with
            | nil => simp at places
            | cons found rest => rfl
      · rw [entries other same, Function.update_of_ne same]
        exact shows.offset other }

/-- A node leaves its list, and its page leaves the chain. -/
theorem removeKeyPageNode_meets {post : Unit → World → Prop} {first last : List Nat}
    {nearer farther : Chain} {item : Nat × KeyPage} (rep : Rep evicts world chains lists)
    (inside : bucket < world.htSize) (ready : Ready world (lists bucket))
    (list : lists bucket = first ++ node :: last)
    (chain : chains bucket = nearer ++ item :: farther) (places : first.length = nearer.length)
    (reached : farther ≠ [] → last ≠ [])
    (ends : ∀ later, Rep evicts later (Function.update chains bucket (nearer ++ farther))
      (Function.update lists bucket (first ++ last)) → MemoryOnly world later →
      later.pages = world.pages → (∀ another, (later.nodes another).kp = (world.nodes another).kp) →
      post () later) :
    Meets allowed accepted (HashTable.removeKeyPageNode bucket node) world post := by
  obtain ⟨lru, cache, pool⟩ := rep.cache
  have joined := rep.buckets.joined bucket
  have distinct := rep.buckets.distinct bucket
  rw [list] at joined distinct
  obtain ⟨backward, forward⟩ := joined.middle
  obtain ⟨notBefore, notAfter⟩ := joined.apart (by rw [List.map_id]; exact distinct)
  rw [Option.or_none, Option.map_id, id_eq] at backward forward
  have finish : ∀ later : World, MemoryOnly world later → later.pages = world.pages →
      later.nodeCount = world.nodeCount → later.cnodes = world.cnodes →
      later.cnodeCount = world.cnodeCount → later.num = world.num → later.head = world.head →
      later.nextFreePage = world.nextFreePage → later.numOfFreePages = world.numOfFreePages →
      (∀ other, other ≠ bucket → later.entries other = world.entries other) →
      ((later.entries bucket).head = (first ++ last).head?) →
      ((later.entries bucket).tail = (first ++ last).getLast?) →
      ((later.entries bucket).offset = if first = [] then
        last.head?.bind fun after => (world.nodes after).kpoff else (world.entries bucket).offset) →
      (∀ another, later.nodes another = { world.nodes another with
        prev := if (world.nodes node).next = some another then (world.nodes node).prev
          else (world.nodes another).prev
        next := if (world.nodes node).prev = some another then (world.nodes node).next
          else (world.nodes another).next }) → post () later := by
    intro later only pages nodeCount cnodes cnodeCount num head stack free entries start final offset rest
    have shows := rep.toShows.remove only nodeCount pages ready list chain places reached entries start
      final offset rest
    have same : ∀ another, (later.nodes another).kp = (world.nodes another).kp ∧
        (later.nodes another).cnode = (world.nodes another).cnode := by
      intro another
      rw [rest another]
      exact ⟨rfl, rfl⟩
    have fewer : Lru later (Function.update lists bucket (first ++ last)) lru := by
      apply cache.congr only cnodes cnodeCount nodeCount num head same
      intro another nowhere unloaded other member
      by_cases self : other = bucket
      · rw [self, Function.update_self] at member
        apply nowhere bucket
        rw [list]
        rcases List.mem_append.1 member with left | right
        · exact List.mem_append_left _ left
        · exact List.mem_append_right _ (List.mem_cons_of_mem _ right)
      · rw [Function.update_of_ne self] at member
        exact nowhere other member
    exact ends later ⟨shows, lru, fewer, pool.congr only.max only.kpSize only.poolSize free stack⟩ only
      pages fun another => (same another).1
  have start : ((world.entries bucket).head.isSome && (world.entries bucket).tail.isSome) = true := by
    rw [rep.buckets.head, rep.buckets.tail, list]
    cases first <;> simp
  simp only [HashTable.removeKeyPageNode, HashTable.getEntry, HashTable.setEntry, LRUCache.setNode, assert,
    meets_bind, meets_reads, meets_requires, inside, decide_true, if_true, start]
  cases back : (world.nodes node).prev with
  | none =>
      have bare : first = [] := by
        rw [back] at backward
        exact List.getLast?_eq_none_iff.1 backward.symm
      subst bare
      cases ahead : (world.nodes node).next with
      | none =>
          simp only [meets_bind, meets_modifies, meets_reads, back, ahead]
          have ending : last = [] := by
            rw [ahead] at forward
            exact List.head?_eq_none_iff.1 forward.symm
          subst ending
          apply finish
          iterate 9 rfl
          · intro other differs
            simp [differs]
          iterate 3 simp
          · intro another
            simp [back, ahead]
      | some after =>
          have differs : after ≠ node := by
            rintro rfl
            exact notAfter ahead
          simp only [meets_bind, meets_modifies, meets_reads, back, ahead]
          apply finish
          iterate 9 rfl
          · intro other differs
            simp [differs]
          · simp [← forward, ahead]
          · simp only [Function.update_self, rep.buckets.tail, list, List.nil_append]
            cases last with
            | nil => simp [ahead] at forward
            | cons => simp [List.getLast?_cons]
          · simp [← forward, ahead]
          · intro another
            by_cases same : another = after
            · subst same
              simp [back, ahead]
            · simp [back, ahead, same, Ne.symm same]
  | some before =>
      have notSelf : node ≠ before := by
        rintro rfl
        exact notBefore back
      have full : first ≠ [] := by
        rintro rfl
        simp [back] at backward
      have top : (first ++ node :: last).head? = (first ++ last).head? := by
        cases first with
        | nil => exact absurd rfl full
        | cons => rfl
      cases ahead : (world.nodes node).next with
      | none =>
          have ending : last = [] := by
            rw [ahead] at forward
            exact List.head?_eq_none_iff.1 forward.symm
          subst ending
          simp only [meets_bind, meets_modifies, meets_reads, Function.update_of_ne notSelf, back, ahead]
          apply finish
          iterate 9 rfl
          · intro other differs
            simp [differs]
          · simp only [Function.update_self, rep.buckets.head, list]
            exact top
          · simp only [Function.update_self, List.append_nil, ← backward, back]
          · simp only [Function.update_self, if_neg full]
          · intro another
            by_cases same : another = before
            · subst same
              simp [back, ahead]
            · simp [back, ahead, same, Ne.symm same]
      | some after =>
          have apart : before ≠ after := by
            rintro rfl
            rw [back] at backward
            rw [ahead] at forward
            have one := List.mem_of_getLast? backward.symm
            have two := List.mem_of_mem_head? forward.symm
            have clear := List.nodup_append.1 distinct
            exact clear.2.2 before one before (List.mem_cons_of_mem _ two) rfl
          simp only [meets_bind, meets_modifies, meets_reads, Function.update_of_ne notSelf, back, ahead]
          apply finish
          iterate 9 rfl
          · intro other differs
            rfl
          · simp only [rep.buckets.head, list]
            exact top
          · simp only [rep.buckets.tail, list]
            cases last with
            | nil => simp [ahead] at forward
            | cons => simp [List.getLast?_cons]
          · simp only [if_neg full]
          · intro another
            by_cases same : another = after
            · subst same
              simp [back, ahead, apart, apart.symm]
            · by_cases self : another = before
              · subst self
                simp [back, ahead, apart, apart.symm]
              · simp [back, ahead, same, Ne.symm same, self, Ne.symm self]

end Specs

end SimpleNFast.Rdb
