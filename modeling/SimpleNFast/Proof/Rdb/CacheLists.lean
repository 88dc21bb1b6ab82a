import SimpleNFast.Construction.Rdb.Session
import SimpleNFast.Library.LinkedList

namespace SimpleNFast.Rdb
open LinkedList

/-- The nodes of each bucket form a list from its entry. -/
structure Buckets (world : World) (lists : Nat → List Nat) : Prop where
  head : ∀ bucket, (world.entries bucket).head = (lists bucket).head?
  tail : ∀ bucket, (world.entries bucket).tail = (lists bucket).getLast?
  joined : ∀ bucket, Joined id (fun node => (world.nodes node).prev)
    (fun node => (world.nodes node).next) none none (lists bucket)
  distinct : ∀ bucket, (lists bucket).Nodup
  apart : ∀ bucket other node, node ∈ lists bucket → node ∈ lists other → bucket = other
  known : ∀ bucket, ∀ node ∈ lists bucket, node < world.nodeCount

/-- A cached page: its cache node, its key page node and its place in the pool. -/
structure Cached where
  cid : Nat
  node : Nat
  addr : Nat
  deriving DecidableEq

/-- The cache nodes form the LRU list and hold the loaded pages. -/
structure Lru (world : World) (lists : Nat → List Nat) (lru : List Cached) : Prop where
  head : world.head = lru.head?.map Cached.cid
  joined : Joined Cached.cid (fun cached => (world.cnodes cached.cid).prev)
    (fun cached => (world.cnodes cached.cid).next) none none lru
  distinct : (lru.map Cached.cid).Nodup
  known : ∀ cached ∈ lru, cached.cid < world.cnodeCount ∧ cached.node < world.nodeCount
  attached : ∀ cached ∈ lru, (world.cnodes cached.cid).kpn = some cached.node ∧
    (world.nodes cached.node).kp = some cached.addr ∧ (world.nodes cached.node).cnode = some cached.cid
  loaded : ∀ node addr, (world.nodes node).kp = some addr → ∃ cached ∈ lru, cached.node = node
  idle : ∀ node, (world.nodes node).kp = none → (world.nodes node).cnode = none
  named : ∀ cid node, (world.cnodes cid).kpn = some node → node < world.nodeCount ∧
    ((world.nodes node).cnode = some cid ∨
      ((world.nodes node).kp = none ∧ ∀ bucket, node ∉ lists bucket))
  counted : lru.length ≤ world.num ∧ world.num ≤ world.max

/-- The stack of the pool has the pages that are not in use; below them stands the next new page. -/
structure Pool (world : World) (inUse : Multiset Nat) : Prop where
  positive : 0 < world.kpSize
  fits : world.max * world.kpSize ≤ world.poolSize
  counted : world.numOfFreePages + inUse.card = world.max
  stack : ∃ (spare junk : List Nat) (frontier : Nat), world.nextFreePage = spare ++ junk ∧
    (spare : Multiset Nat) + inUse = Multiset.range frontier ∧ frontier ≤ world.max ∧
    (frontier < world.max → junk = [frontier])

namespace Buckets

variable {world later : World} {lists : Nat → List Nat} {bucket node : Nat}

/-- The lists depend on the entries and on the links only. -/
theorem congr (buckets : Buckets world lists) (entries : later.entries = world.entries)
    (nodeCount : world.nodeCount ≤ later.nodeCount)
    (links : ∀ bucket, ∀ node ∈ lists bucket, (later.nodes node).prev = (world.nodes node).prev ∧
      (later.nodes node).next = (world.nodes node).next) : Buckets later lists where
  head := by
    rw [entries]
    exact buckets.head
  tail := by
    rw [entries]
    exact buckets.tail
  joined bucket := (buckets.joined bucket).congr (fun node member => (links bucket node member).1)
    (fun node member => (links bucket node member).2)
  distinct := buckets.distinct
  apart := buckets.apart
  known bucket node member := (buckets.known bucket node member).trans_le nodeCount

/-- A change of one list keeps the others. -/
theorem replace {list : List Nat} (buckets : Buckets world lists)
    (entries : ∀ other, other ≠ bucket → later.entries other = world.entries other)
    (nodeCount : world.nodeCount ≤ later.nodeCount)
    (links : ∀ other, other ≠ bucket → ∀ node ∈ lists other,
      (later.nodes node).prev = (world.nodes node).prev ∧
        (later.nodes node).next = (world.nodes node).next)
    (head : (later.entries bucket).head = list.head?)
    (tail : (later.entries bucket).tail = list.getLast?)
    (joined : Joined id (fun node => (later.nodes node).prev)
      (fun node => (later.nodes node).next) none none list)
    (distinct : list.Nodup)
    (apart : ∀ other, other ≠ bucket → ∀ node ∈ list, node ∉ lists other)
    (known : ∀ node ∈ list, node < later.nodeCount) :
    Buckets later (Function.update lists bucket list) where
  head other := by
    by_cases same : other = bucket
    · rw [same, Function.update_self, head]
    · rw [Function.update_of_ne same, entries other same, buckets.head other]
  tail other := by
    by_cases same : other = bucket
    · rw [same, Function.update_self, tail]
    · rw [Function.update_of_ne same, entries other same, buckets.tail other]
  joined other := by
    by_cases same : other = bucket
    · rw [same, Function.update_self]
      exact joined
    · rw [Function.update_of_ne same]
      exact (buckets.joined other).congr (fun node member => (links other same node member).1)
        (fun node member => (links other same node member).2)
  distinct other := by
    by_cases same : other = bucket
    · rw [same, Function.update_self]
      exact distinct
    · rw [Function.update_of_ne same]
      exact buckets.distinct other
  apart first second node firstIn secondIn := by
    by_cases one : first = bucket
    · by_cases two : second = bucket
      · rw [one, two]
      · rw [one, Function.update_self] at firstIn
        rw [Function.update_of_ne two] at secondIn
        exact absurd secondIn (apart second two node firstIn)
    · rw [Function.update_of_ne one] at firstIn
      by_cases two : second = bucket
      · rw [two, Function.update_self] at secondIn
        exact absurd firstIn (apart first one node secondIn)
      · rw [Function.update_of_ne two] at secondIn
        exact buckets.apart first second node firstIn secondIn
  known other node member := by
    by_cases same : other = bucket
    · rw [same, Function.update_self] at member
      exact known node member
    · rw [Function.update_of_ne same] at member
      exact (buckets.known other node member).trans_le nodeCount

end Buckets

namespace Lru

variable {world later : World} {lists : Nat → List Nat} {lru : List Cached}

/-- A loaded node belongs to one cached page. -/
theorem unique (cache : Lru world lists lru) {first second : Cached} (firstIn : first ∈ lru)
    (secondIn : second ∈ lru) (same : first.node = second.node) : first = second := by
  have one := (cache.attached first firstIn).2.2
  have two := (cache.attached second secondIn).2.2
  rw [same, two] at one
  exact List.inj_on_of_nodup_map cache.distinct firstIn secondIn (Option.some.inj one).symm

/-- The cached page of a loaded node. -/
theorem cached (cache : Lru world lists lru) {node addr : Nat}
    (loaded : (world.nodes node).kp = some addr) :
    ∃ cid, ⟨cid, node, addr⟩ ∈ lru ∧ (world.nodes node).cnode = some cid := by
  obtain ⟨cached, member, rfl⟩ := cache.loaded node addr loaded
  have attached := cache.attached cached member
  rw [attached.2.1] at loaded
  exact ⟨cached.cid, by rwa [← Option.some.inj loaded], attached.2.2⟩

/-- A cache node that names a loaded node belongs to its cached page. -/
theorem cached_of_named (cache : Lru world lists lru) {cid node addr : Nat}
    (named : (world.cnodes cid).kpn = some node) (loaded : (world.nodes node).kp = some addr) :
    ⟨cid, node, addr⟩ ∈ lru := by
  obtain ⟨other, member, holds⟩ := cache.cached loaded
  rcases (cache.named cid node named).2 with same | dead
  · rw [holds] at same
    rwa [Option.some.inj same] at member
  · rw [dead.1] at loaded
    cases loaded

/-- The order of the list may change with the links, and a cache node outside may be cleared. -/
theorem reorder {next : List Cached} (cache : Lru world lists lru) (perm : next.Perm lru)
    (nodes : later.nodes = world.nodes) (nodeCount : world.nodeCount ≤ later.nodeCount)
    (cnodeCount : world.cnodeCount ≤ later.cnodeCount) (num : later.num = world.num)
    (max : later.max = world.max)
    (kpn : ∀ cid, (later.cnodes cid).kpn = (world.cnodes cid).kpn ∨
      ((later.cnodes cid).kpn = none ∧ cid ∉ lru.map Cached.cid))
    (head : later.head = next.head?.map Cached.cid)
    (joined : Joined Cached.cid (fun cached => (later.cnodes cached.cid).prev)
      (fun cached => (later.cnodes cached.cid).next) none none next) :
    Lru later lists next where
  head := head
  joined := joined
  distinct := (perm.map Cached.cid).nodup_iff.2 cache.distinct
  known cached member := by
    have bounds := cache.known cached (perm.subset member)
    omega
  attached cached member := by
    rw [nodes]
    have attached := cache.attached cached (perm.subset member)
    rcases kpn cached.cid with same | cleared
    · rw [same]
      exact attached
    · exact absurd (List.mem_map_of_mem (perm.subset member)) cleared.2
  loaded node addr loaded := by
    rw [nodes] at loaded
    obtain ⟨cached, member, same⟩ := cache.loaded node addr loaded
    exact ⟨cached, perm.symm.subset member, same⟩
  idle := by
    rw [nodes]
    exact cache.idle
  named cid node names := by
    rcases kpn cid with same | cleared
    · rw [same] at names
      rw [nodes]
      have known := cache.named cid node names
      exact ⟨known.1.trans_le nodeCount, known.2⟩
    · rw [cleared.1] at names
      cases names
  counted := by
    rw [perm.length_eq, num, max]
    exact cache.counted

/-- A cached page leaves the list, and its node keeps nothing of it. -/
theorem drop {first last : List Cached} {gone : Cached}
    (cache : Lru world lists (first ++ gone :: last))
    (other : ∀ node, node ≠ gone.node → later.nodes node = world.nodes node)
    (freed : (later.nodes gone.node).kp = none ∧ (later.nodes gone.node).cnode = none)
    (nodeCount : later.nodeCount = world.nodeCount) (cnodeCount : later.cnodeCount = world.cnodeCount)
    (num : (first ++ last).length ≤ later.num ∧ later.num ≤ later.max)
    (kpn : ∀ cid, cid ≠ gone.cid → (later.cnodes cid).kpn = (world.cnodes cid).kpn)
    (released : (later.cnodes gone.cid).kpn = none ∨
      ((later.cnodes gone.cid).kpn = some gone.node ∧ ∀ bucket, gone.node ∉ lists bucket))
    (head : later.head = (first ++ last).head?.map Cached.cid)
    (joined : Joined Cached.cid (fun cached => (later.cnodes cached.cid).prev)
      (fun cached => (later.cnodes cached.cid).next) none none (first ++ last)) :
    Lru later lists (first ++ last) := by
  have inside : ∀ cached ∈ first ++ last, cached ∈ first ++ gone :: last := by
    intro cached member
    rcases List.mem_append.1 member with left | right
    · exact List.mem_append_left _ left
    · exact List.mem_append_right _ (List.mem_cons_of_mem _ right)
  have middle : gone ∈ first ++ gone :: last := by simp
  have around : ((first ++ gone :: last).map Cached.cid).Perm
      ((gone :: (first ++ last)).map Cached.cid) := List.perm_middle.map _
  have distinct := List.nodup_cons.1 (around.nodup_iff.1 cache.distinct)
  have apart : ∀ cached ∈ first ++ last, cached.cid ≠ gone.cid ∧ cached.node ≠ gone.node := by
    intro cached member
    have differs : cached.cid ≠ gone.cid := by
      intro same
      apply distinct.1
      rw [← same]
      exact List.mem_map_of_mem member
    refine ⟨differs, ?_⟩
    intro same
    exact differs (congrArg Cached.cid (cache.unique (inside cached member) middle same))
  exact {
    head := head
    joined := joined
    distinct := distinct.2
    known := by
      intro cached member
      rw [nodeCount, cnodeCount]
      exact cache.known cached (inside cached member)
    attached := by
      intro cached member
      rw [other _ (apart cached member).2, kpn _ (apart cached member).1]
      exact cache.attached cached (inside cached member)
    loaded := by
      intro node addr loaded
      by_cases same : node = gone.node
      · rw [same, freed.1] at loaded
        cases loaded
      · rw [other node same] at loaded
        obtain ⟨cached, member, rfl⟩ := cache.loaded node addr loaded
        refine ⟨cached, ?_, rfl⟩
        rcases List.mem_append.1 member with left | right
        · exact List.mem_append_left _ left
        · rcases List.mem_cons.1 right with rfl | right
          · exact absurd rfl same
          · exact List.mem_append_right _ right
    idle := by
      intro node unloaded
      by_cases same : node = gone.node
      · rw [same]
        exact freed.2
      · rw [other node same] at unloaded ⊢
        exact cache.idle node unloaded
    named := by
      intro cid node names
      rw [nodeCount]
      by_cases same : cid = gone.cid
      · rw [same] at names
        rcases released with none | kept
        · rw [none] at names
          cases names
        · rw [kept.1] at names
          cases names
          exact ⟨(cache.known gone middle).2, Or.inr ⟨freed.1, kept.2⟩⟩
      · rw [kpn cid same] at names
        obtain ⟨known, rest⟩ := cache.named cid node names
        refine ⟨known, ?_⟩
        have elsewhere : node ≠ gone.node := by
          rintro rfl
          have attached := cache.attached gone middle
          rcases rest with holds | dead
          · rw [attached.2.2] at holds
            exact same (Option.some.inj holds).symm
          · rw [attached.2.1] at dead
            cases dead.1
        rw [other node elsewhere]
        exact rest
    counted := num }

/-- A page enters the list at its head. -/
theorem attach {cid node addr : Nat} (cache : Lru world lists lru)
    (fresh : cid ∉ lru.map Cached.cid) (unloaded : (world.nodes node).kp = none)
    (known : cid < later.cnodeCount ∧ node < later.nodeCount)
    (living : (∃ bucket, node ∈ lists bucket) ∨ ∀ other, (world.cnodes other).kpn ≠ some node)
    (other : ∀ another, another ≠ node → later.nodes another = world.nodes another)
    (filled : (later.nodes node).kp = some addr ∧ (later.nodes node).cnode = some cid)
    (nodeCount : world.nodeCount ≤ later.nodeCount)
    (cnodeCount : world.cnodeCount ≤ later.cnodeCount)
    (num : lru.length < later.num ∧ later.num ≤ later.max)
    (kpn : ∀ another, another ≠ cid → (later.cnodes another).kpn = (world.cnodes another).kpn)
    (names : (later.cnodes cid).kpn = some node)
    (head : later.head = some cid)
    (joined : Joined Cached.cid (fun cached => (later.cnodes cached.cid).prev)
      (fun cached => (later.cnodes cached.cid).next) none none (⟨cid, node, addr⟩ :: lru)) :
    Lru later lists (⟨cid, node, addr⟩ :: lru) := by
  have apart : ∀ cached ∈ lru, cached.cid ≠ cid ∧ cached.node ≠ node := by
    intro cached member
    constructor
    · rintro rfl
      exact fresh (List.mem_map_of_mem member)
    · rintro rfl
      rw [(cache.attached cached member).2.1] at unloaded
      cases unloaded
  exact {
    head := head
    joined := joined
    distinct := List.nodup_cons.2 ⟨fresh, cache.distinct⟩
    known := by
      intro cached member
      rcases List.mem_cons.1 member with rfl | old
      · exact known
      · have bounds := cache.known cached old
        omega
    attached := by
      intro cached member
      rcases List.mem_cons.1 member with rfl | old
      · exact ⟨names, filled⟩
      · rw [other _ (apart cached old).2, kpn _ (apart cached old).1]
        exact cache.attached cached old
    loaded := by
      intro another place loaded
      by_cases same : another = node
      · exact ⟨_, List.mem_cons_self, same.symm⟩
      · rw [other another same] at loaded
        obtain ⟨cached, member, rfl⟩ := cache.loaded another place loaded
        exact ⟨cached, List.mem_cons_of_mem _ member, rfl⟩
    idle := by
      intro another idle
      by_cases same : another = node
      · rw [same, filled.1] at idle
        cases idle
      · rw [other another same] at idle ⊢
        exact cache.idle another idle
    named := by
      intro another target named
      by_cases same : another = cid
      · rw [same, names] at named
        cases named
        exact ⟨known.2, Or.inl (by rw [same]; exact filled.2)⟩
      · rw [kpn another same] at named
        obtain ⟨bound, rest⟩ := cache.named another target named
        refine ⟨by omega, ?_⟩
        by_cases taken : target = node
        · subst taken
          rcases rest with holds | dead
          · rw [cache.idle target unloaded] at holds
            cases holds
          · rcases living with ⟨bucket, listed⟩ | late
            · exact absurd listed (dead.2 bucket)
            · exact absurd named (late another)
        · rw [other target taken]
          exact rest
    counted := by
      rw [List.length_cons]
      omega }

end Lru

namespace Pool

variable {world later : World} {inUse : Multiset Nat} {addr : Nat}

/-- The pool depends on its own members only. -/
theorem congr (pool : Pool world inUse) (max : later.max = world.max)
    (kpSize : later.kpSize = world.kpSize) (poolSize : later.poolSize = world.poolSize)
    (free : later.numOfFreePages = world.numOfFreePages)
    (stack : later.nextFreePage = world.nextFreePage) : Pool later inUse where
  positive := by
    rw [kpSize]
    exact pool.positive
  fits := by
    rw [max, kpSize, poolSize]
    exact pool.fits
  counted := by
    rw [max, free]
    exact pool.counted
  stack := by
    rw [max, stack]
    exact pool.stack

/-- While fewer pages are in use than the pool has, it hands out a page that is not in use. -/
theorem take (pool : Pool world inUse) (room : inUse.card < world.max) :
    ∃ addr rest, world.nextFreePage = addr :: rest ∧ world.numOfFreePages ≠ 0 ∧ addr ∉ inUse ∧
      ∀ later : World, later.max = world.max → later.kpSize = world.kpSize →
        later.poolSize = world.poolSize → later.numOfFreePages = world.numOfFreePages - 1 →
        (later.nextFreePage =
          if rest = [] ∧ (addr + 1) * world.kpSize < world.poolSize then [addr + 1] else rest) →
        Pool later (addr ::ₘ inUse) := by
  have counted := pool.counted
  have fits := pool.fits
  obtain ⟨spare, junk, frontier, stack, partition, bounded, open'⟩ := pool.stack
  have free : world.numOfFreePages ≠ 0 := by omega
  cases spare with
  | nil =>
      simp only [Multiset.coe_nil, zero_add] at partition
      have size : inUse.card = frontier := by rw [partition, Multiset.card_range]
      rw [open' (by omega)] at stack
      refine ⟨frontier, [], by simpa using stack, free, by simp [partition], ?_⟩
      intro later max kpSize poolSize left next
      refine ⟨by rw [kpSize]; exact pool.positive, by rw [max, kpSize, poolSize]; exact fits, ?_, [],
        later.nextFreePage, frontier + 1,
        by simp, ?_, by omega, ?_⟩
      · rw [Multiset.card_cons]
        omega
      · rw [Multiset.coe_nil, zero_add, partition, Multiset.range_succ]
      · intro more
        rw [next, if_pos]
        refine ⟨rfl, lt_of_lt_of_le ?_ fits⟩
        rw [max] at more
        exact Nat.mul_lt_mul_of_pos_right more pool.positive
  | cons addr spare =>
      refine ⟨addr, spare ++ junk, by simpa using stack, free, ?_, ?_⟩
      · intro inside
        have twice : (((addr :: spare : List Nat) : Multiset Nat) + inUse).Nodup := by
          rw [partition]
          exact Multiset.nodup_range _
        rw [Multiset.nodup_add] at twice
        exact Multiset.disjoint_left.1 twice.2.2 (by simp) inside
      · intro later max kpSize poolSize left next
        have size : later.numOfFreePages + (addr ::ₘ inUse).card = later.max := by
          rw [Multiset.card_cons]
          omega
        have parts : (spare : Multiset Nat) + addr ::ₘ inUse = Multiset.range frontier := by
          rw [← partition, ← Multiset.cons_coe, Multiset.cons_add, Multiset.add_cons]
        refine ⟨by rw [kpSize]; exact pool.positive, by rw [max, kpSize, poolSize]; exact fits, size, ?_⟩
        by_cases bare : spare ++ junk = []
        · obtain ⟨rfl, rfl⟩ := List.append_eq_nil_iff.1 bare
          refine ⟨[], later.nextFreePage, frontier, by simp, parts, by omega, ?_⟩
          intro more
          simpa using open' (by omega)
        · refine ⟨spare, junk, frontier, by rw [next, if_neg (by simp [bare])], parts, by omega, ?_⟩
          intro more
          exact open' (by omega)

/-- A page that goes back leaves the pages in use. -/
theorem give (pool : Pool world (addr ::ₘ inUse)) (max : later.max = world.max)
    (kpSize : later.kpSize = world.kpSize) (poolSize : later.poolSize = world.poolSize)
    (free : later.numOfFreePages = world.numOfFreePages + 1)
    (next : later.nextFreePage = addr :: world.nextFreePage) : Pool later inUse where
  positive := by
    rw [kpSize]
    exact pool.positive
  fits := by
    rw [max, kpSize, poolSize]
    exact pool.fits
  counted := by
    have counted := pool.counted
    rw [Multiset.card_cons] at counted
    omega
  stack := by
    obtain ⟨spare, junk, frontier, stack, partition, bounded, open'⟩ := pool.stack
    refine ⟨addr :: spare, junk, frontier, by rw [next, stack]; rfl, ?_, by omega, by rwa [max]⟩
    rw [← partition, ← Multiset.cons_coe, Multiset.cons_add, Multiset.add_cons]

theorem addr_lt (pool : Pool world inUse) (member : addr ∈ inUse) :
    addr * world.kpSize < world.poolSize := by
  obtain ⟨spare, junk, frontier, stack, partition, bounded, -⟩ := pool.stack
  have inside : addr ∈ Multiset.range frontier := by
    rw [← partition]
    exact Multiset.mem_add.2 (Or.inr member)
  have below := Multiset.mem_range.1 inside
  exact lt_of_lt_of_le (Nat.mul_lt_mul_of_pos_right (by omega) pool.positive) pool.fits

theorem nodup (pool : Pool world inUse) : inUse.Nodup := by
  obtain ⟨spare, junk, frontier, stack, partition, -⟩ := pool.stack
  have all := Multiset.nodup_range frontier
  rw [← partition, Multiset.nodup_add] at all
  exact all.2.1

end Pool

end SimpleNFast.Rdb
