import SimpleNFast.Construction.Rdb.Store
import SimpleNFast.Proof.Rdb.CacheLists

namespace SimpleNFast.Rdb
open Program LinkedList

/-- The memory shows the chains: a loaded node has the page of its place, and all other pages are
those of the file. A node lost its page only where pages may have been evicted. -/
structure Shows (evicts : Prop) (world : World) (chains : Nat → Chain) (lists : Nat → List Nat) : Prop where
  buckets : Buckets world lists
  short : ∀ bucket, (lists bucket).length ≤ (chains bucket).length
  cached : ∀ (bucket place node : Nat) (item : Nat × KeyPage) (addr : Nat),
    (lists bucket)[place]? = some node → (chains bucket)[place]? = some item →
    (world.nodes node).kp = some addr →
    (world.nodes node).kpoff = some item.1 ∧ world.pages addr = item.2
  stored : ∀ (bucket place : Nat) (item : Nat × KeyPage), (chains bucket)[place]? = some item →
    (∀ node, (lists bucket)[place]? = some node → (world.nodes node).kp = none) →
    world.idx[item.1 / world.kpSize]? = some item.2
  alone : ∀ bucket, ∀ node ∈ lists bucket, (world.nodes node).kp = none →
    evicts ∧ lists bucket = [node]
  offset : ∀ bucket, (world.entries bucket).offset = (chains bucket).head?.map Prod.fst

/-- The memory shows the chains, and the cache is in order. -/
structure Rep (evicts : Prop) (world : World) (chains : Nat → Chain) (lists : Nat → List Nat) : Prop extends
    Shows evicts world chains lists where
  cache : ∃ lru, Lru world lists lru ∧ Pool world (lru.map Cached.addr : List Nat)

/-- Only the members of the cache may differ. -/
def CacheOnly (world later : World) : Prop :=
  later = { world with
    nodes := later.nodes
    nodeCount := later.nodeCount
    cnodes := later.cnodes
    cnodeCount := later.cnodeCount
    num := later.num
    head := later.head
    tail := later.tail
    pages := later.pages
    nextFreePage := later.nextFreePage
    numOfFreePages := later.numOfFreePages }

/-- The nodes of a bucket and their pages are the same. -/
def Kept (list : List Nat) (world later : World) : Prop :=
  ∀ node ∈ list, later.nodes node = world.nodes node ∧
    ∀ addr, (world.nodes node).kp = some addr → later.pages addr = world.pages addr

namespace CacheOnly

variable {world middle later : World}

theorem trans (first : CacheOnly world middle) (second : CacheOnly middle later) :
    CacheOnly world later := by
  unfold CacheOnly at *
  rw [first] at second
  exact second

theorem idx (only : CacheOnly world later) : later.idx = world.idx := by rw [only]

theorem kpSize (only : CacheOnly world later) : later.kpSize = world.kpSize := by rw [only]

theorem entries (only : CacheOnly world later) : later.entries = world.entries := by rw [only]

theorem max (only : CacheOnly world later) : later.max = world.max := by rw [only]

theorem poolSize (only : CacheOnly world later) : later.poolSize = world.poolSize := by rw [only]

end CacheOnly

section Links

variable (cnodes : Nat → CNode) (cid other : Nat) (prev next : Option Nat)

@[simp] theorem kpn_relink :
    (Function.update cnodes cid ⟨(cnodes cid).kpn, prev, next⟩ other).kpn = (cnodes other).kpn := by
  rw [Function.update_apply]
  split
  · rename_i same
    rw [same]
  · rfl

@[simp] theorem prev_relink (kpn : Option Nat) :
    (Function.update cnodes cid ⟨kpn, prev, next⟩ other).prev =
      if other = cid then prev else (cnodes other).prev := by
  rw [Function.update_apply]
  split <;> rfl

@[simp] theorem next_relink (kpn : Option Nat) :
    (Function.update cnodes cid ⟨kpn, prev, next⟩ other).next =
      if other = cid then next else (cnodes other).next := by
  rw [Function.update_apply]
  split <;> rfl

end Links

section Cache

variable {evicts : Prop} {allowed : Eviction → Prop} {accepted : Stop → Prop} {world : World} {chains : Nat → Chain}
  {lists : Nat → List Nat}

/-- The view depends on the listed nodes and on their pages only. -/
theorem Shows.congr {later : World} (shows : Shows evicts world chains lists) (only : CacheOnly world later)
    (nodeCount : world.nodeCount ≤ later.nodeCount)
    (kept : ∀ bucket, Kept (lists bucket) world later) : Shows evicts later chains lists where
  buckets := by
    apply shows.buckets.congr only.entries nodeCount
    intro bucket node member
    rw [(kept bucket node member).1]
    exact ⟨rfl, rfl⟩
  short := shows.short
  cached bucket place node item addr here there loaded := by
    obtain ⟨same, pages⟩ := kept bucket node (List.mem_of_getElem? here)
    rw [same] at loaded ⊢
    rw [pages addr loaded]
    exact shows.cached bucket place node item addr here there loaded
  stored bucket place item there unloaded := by
    rw [only.idx, only.kpSize]
    apply shows.stored bucket place item there
    intro node here
    rw [← (kept bucket node (List.mem_of_getElem? here)).1]
    exact unloaded node here
  alone bucket node member unloaded := by
    rw [(kept bucket node member).1] at unloaded
    exact shows.alone bucket node member unloaded
  offset := by
    rw [only.entries]
    exact shows.offset

/-- The first cache node has no previous one. -/
theorem Lru.head_prev {lru : List Cached} {start : Nat} (cache : Lru world lists lru)
    (top : world.head = some start) : (world.cnodes start).prev = none := by
  rw [cache.head] at top
  cases lru with
  | nil => simp at top
  | cons first rest =>
      cases top
      exact cache.joined.1

/-- The links after a cache node moved to the head. -/
theorem Lru.touched {later : World} {first last : List Cached} {cid node addr before : Nat}
    (cache : Lru world lists (first ++ ⟨cid, node, addr⟩ :: last)) (only : CacheOnly world later)
    (nodes : later.nodes = world.nodes) (nodeCount : later.nodeCount = world.nodeCount)
    (cnodeCount : later.cnodeCount = world.cnodeCount) (num : later.num = world.num)
    (head : later.head = some cid) (back : (world.cnodes cid).prev = some before)
    (kpn : ∀ other, (later.cnodes other).kpn = (world.cnodes other).kpn)
    (prev : ∀ other, (later.cnodes other).prev =
      if other = cid then none else if world.head = some other then some cid
      else if (world.cnodes cid).next = some other then some before else (world.cnodes other).prev)
    (next : ∀ other, (later.cnodes other).next =
      if other = cid then world.head
      else if other = before then (world.cnodes cid).next else (world.cnodes other).next) :
    Lru later lists (⟨cid, node, addr⟩ :: (first ++ last)) := by
  have around : ((first ++ ⟨cid, node, addr⟩ :: last).map Cached.cid).Perm
      ((⟨cid, node, addr⟩ :: (first ++ last)).map Cached.cid) := List.perm_middle.map _
  have distinct := List.nodup_cons.1 (around.nodup_iff.1 cache.distinct)
  have apart : ∀ other ∈ first ++ last, other.cid ≠ cid := by
    intro other inside same
    apply distinct.1
    show cid ∈ _
    rw [← same]
    exact List.mem_map_of_mem inside
  have top : world.head = (first ++ last).head?.map Cached.cid := by
    rw [cache.head]
    cases first with
    | nil => simp [cache.joined.1] at back
    | cons start rest => rfl
  apply cache.reorder List.perm_middle.symm nodes nodeCount.ge cnodeCount.ge num only.max
  · intro other
    exact Or.inl (kpn other)
  · exact head
  · apply cache.joined.moveFront cache.distinct (by simp) (by simp)
    · rw [prev, if_pos rfl]
    · rw [next, if_pos rfl, top, Option.or_none]
    · intro other inside
      rw [prev, if_neg (apart other inside), top]
      simp only [back]
    · intro other inside
      rw [next, if_neg (apart other inside)]
      simp only [back, Option.some.injEq, eq_comm]

/-- A used node moves to the head of the LRU list. -/
theorem touch_meets {post : Unit → World → Prop} (rep : Rep evicts world chains lists) (node : Nat)
    (ends : ∀ later, Rep evicts later chains lists → CacheOnly world later → later.nodes = world.nodes →
      later.pages = world.pages → post () later) :
    Meets allowed accepted (LRUCache.touch node) world post := by
  have same : post () world := ends world rep rfl rfl rfl
  obtain ⟨lru, cache, pool⟩ := rep.cache
  simp only [LRUCache.touch, meets_bind, meets_reads]
  cases loaded : (world.nodes node).kp with
  | none => simpa only [meets_pure] using same
  | some addr =>
      obtain ⟨cid, member, holds⟩ := cache.cached loaded
      simp only [holds, meets_bind, meets_reads]
      cases back : (world.cnodes cid).prev with
      | none => simpa only [meets_pure] using same
      | some before =>
          obtain ⟨first, last, rfl⟩ := List.append_of_mem member
          have finish : ∀ later : World, CacheOnly world later → later.nodes = world.nodes →
              later.pages = world.pages → later.nodeCount = world.nodeCount →
              later.cnodeCount = world.cnodeCount → later.num = world.num →
              later.nextFreePage = world.nextFreePage → later.numOfFreePages = world.numOfFreePages →
              later.head = some cid →
              (∀ other, (later.cnodes other).kpn = (world.cnodes other).kpn) →
              (∀ other, (later.cnodes other).prev =
                if other = cid then none else if world.head = some other then some cid
                else if (world.cnodes cid).next = some other then some before
                else (world.cnodes other).prev) →
              (∀ other, (later.cnodes other).next =
                if other = cid then world.head
                else if other = before then (world.cnodes cid).next else (world.cnodes other).next) →
              post () later := by
            intro later only nodes pages nodeCount cnodeCount num stack free head kpn prev next
            have cache := cache.touched only nodes nodeCount cnodeCount num head back kpn prev next
            have pool : Pool later ((⟨cid, node, addr⟩ :: (first ++ last)).map Cached.addr : List Nat) := by
              rw [Multiset.coe_eq_coe.2 (List.perm_middle.symm.map _)]
              exact pool.congr only.max only.kpSize only.poolSize free stack
            have shows : Shows evicts later chains lists := by
              apply rep.toShows.congr only nodeCount.ge
              intro bucket node member
              rw [nodes, pages]
              exact ⟨rfl, fun _ _ => rfl⟩
            exact ends later ⟨shows, _, cache, pool⟩ only nodes pages
          obtain ⟨notBefore, notAfter⟩ := cache.joined.apart cache.distinct
          simp only [back, ne_eq, Option.some.injEq] at notBefore notAfter
          simp only [LRUCache.setCNode, meets_bind, meets_modifies]
          cases top : world.head with
          | none =>
              rw [cache.head] at top
              cases first <;> simp at top
          | some start =>
              have notStart : start ≠ cid := by
                rintro rfl
                rw [cache.head_prev top] at back
                cases back
              cases ahead : (world.cnodes cid).next with
              | none =>
                  simp only [meets_bind, meets_modifies, meets_reads]
                  apply finish
                  iterate 9 rfl
                  all_goals
                    intro other
                    simp only [kpn_relink, prev_relink, next_relink]
                    grind
              | some after =>
                  simp only [meets_bind, meets_modifies, meets_reads]
                  apply finish
                  iterate 9 rfl
                  all_goals
                    intro other
                    simp only [kpn_relink, prev_relink, next_relink]
                    grind

end Cache

end SimpleNFast.Rdb
