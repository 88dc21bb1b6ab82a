import SimpleNFast.Construction.Rdb.Store
import SimpleNFast.Proof.Rdb.StoreValid

namespace SimpleNFast.Rdb
open Program LinkedList

/-- The members outside the memory are those of an open database between calls. -/
structure Running (world : World) : Prop where
  opened : world.opened = true
  table : world.hashTable = true
  idle : world.opCount = 0
  created : world.created = true
  attr : world.attr = some (world.kpSize, world.htSize)
  fdp : world.fdp = world.valueFdp.reverse

/-- An open database: the memory shows a valid store that represents a map. -/
structure Opened (strict evicts : Prop) (world : World) (chains : Nat → Chain) (lists : Nat → List Nat)
    (map : ByteMap) : Prop where
  rep : Rep evicts world chains lists
  valid : Valid strict (world.store chains)
  holds : (world.store chains).Holds map
  running : Running world

/-- The sizes of an open database stay as they are. -/
def SameSizes (world later : World) : Prop := later.kpSize = world.kpSize ∧ later.htSize = world.htSize

/-- The view depends on the memory and on the key file only. -/
theorem Rep.frame {evicts : Prop} {world later : World} {chains : Nat → Chain} {lists : Nat → List Nat}
    (rep : Rep evicts world chains lists)
    (same : later = { world with
      created := later.created
      attr := later.attr
      db := later.db
      fdp := later.fdp
      bkup := later.bkup
      htSize := later.htSize
      opened := later.opened
      opCount := later.opCount
      hashTable := later.hashTable
      keyFdp := later.keyFdp
      valueFdp := later.valueFdp }) : Rep evicts later chains lists := by
  rw [same]
  obtain ⟨lru, cache, pool⟩ := rep.cache
  exact ⟨⟨{ rep.buckets with }, rep.short, rep.cached, rep.stored, rep.alone, rep.offset⟩, lru,
    { cache with }, pool.congr rfl rfl rfl rfl rfl⟩

namespace MemoryOnly

variable {world later : World}

theorem store_eq (only : MemoryOnly world later) (chains : Nat → Chain) :
    later.store chains = world.store chains := by
  rw [only]
  rfl

theorem running (only : MemoryOnly world later) (running : Running world) : Running later := by
  rw [only]
  exact ⟨running.opened, running.table, running.idle, running.created, running.attr, running.fdp⟩

theorem keyFdp (only : MemoryOnly world later) : later.keyFdp = world.keyFdp := by rw [only]

theorem sizes (only : MemoryOnly world later) : SameSizes world later := by
  rw [only]
  exact ⟨rfl, rfl⟩

/-- The same write to the files on both sides. -/
theorem files (only : MemoryOnly world later) (idx : List KeyPage) (db : List ValuePage)
    (keyFdp valueFdp fdp : List Nat) :
    MemoryOnly
      { world with idx := idx, db := db, keyFdp := keyFdp, valueFdp := valueFdp, fdp := fdp }
      { later with idx := idx, db := db, keyFdp := keyFdp, valueFdp := valueFdp, fdp := fdp } := by
  unfold MemoryOnly at *
  rw [only]

/-- A write to the key file after a change of the memory is one before it. -/
theorem rebase {middle : World} {idx : List KeyPage} {keyFdp : List Nat} (only : MemoryOnly world middle)
    (after : MemoryOnly { middle with idx := idx, keyFdp := keyFdp } later) :
    MemoryOnly { world with idx := idx, keyFdp := keyFdp } later := by
  unfold MemoryOnly at *
  rw [after, only]

theorem geometry {strict : Prop} {chains : Nat → Chain} (only : MemoryOnly world later)
    (geometry : Geometry strict world.kpSize world.htSize world.idx world.keyFdp chains) :
    Geometry strict later.kpSize later.htSize later.idx later.keyFdp chains := by
  rw [only]
  exact geometry

end MemoryOnly

namespace Opened

variable {strict evicts : Prop} {world later : World} {chains : Nat → Chain} {lists next : Nat → List Nat}
  {map : ByteMap}

/-- The memory may change behind the chains. -/
theorem memory (opened : Opened strict evicts world chains lists map) (only : MemoryOnly world later)
    (rep : Rep evicts later chains next) : Opened strict evicts later chains next map where
  rep := rep
  valid := by
    rw [only.store_eq]
    exact opened.valid
  holds := by
    rw [only.store_eq]
    exact opened.holds
  running := only.running opened.running

theorem weaken (opened : Opened strict evicts world chains lists map) :
    Opened False evicts world chains lists map :=
  { opened with valid := opened.valid.weaken }

theorem home_lt (opened : Opened strict evicts world chains lists map) (key : Bytes) :
    hash key world.htSize < world.htSize := opened.valid.home_lt key

end Opened

/-- A found key is where the store finds it. -/
theorem Found.find {world later : World} {chains : Nat → Chain} {list : List Nat} {key : Bytes}
    {ki : KeyInfo} {place node index : Nat} {item : Nat × KeyPage}
    (found : Found later (chains (hash key world.htSize)) list key ki place node index item) :
    (world.store chains).find key = some place :=
  Store.find_eq_some.2 ⟨⟨item, index, found.there, found.hit⟩, found.first⟩

theorem Missing.find {world later : World} {chains : Nat → Chain} {list : List Nat} {key : Bytes}
    {ki : KeyInfo} (missing : Missing later (chains (hash key world.htSize)) list key ki) :
    (world.store chains).find key = none :=
  Store.find_eq_none.2 missing.all

section Search

variable {strict evicts : Prop} {allowed : Eviction → Prop} {accepted : Stop → Prop} {world : World}
  {chains : Nat → Chain} {lists : Nat → List Nat} {map : ByteMap} {fails : Failures} {key : Bytes}

/-- Every call starts with its count and its first pass. -/
def counted (world : World) : World := { world with opCount := world.opCount + 1 }

theorem meets_counted {post : Unit → World → Prop} :
    Meets allowed accepted (countOp 1) world post ↔ post () (counted world) := meets_modifies

theorem meets_uncounted {post : Unit → World → Prop} :
    Meets allowed accepted (countOp (-1)) world post ↔
      post () { world with opCount := world.opCount + -1 } := meets_modifies

theorem meets_guarded {post : Unit → World → Prop} (running : Running world) :
    Meets allowed accepted guardTable (counted world) post ↔ post () (counted world) := by
  rw [guardTable, meets_requires, if_pos]
  exact running.table

theorem counted_memory {later : World} (only : MemoryOnly (counted world) later) :
    MemoryOnly world { later with opCount := later.opCount + -1 } := by
  unfold MemoryOnly counted at *
  rw [only]
  simp only [Int.add_neg_cancel_right]

/-- The first pass of a call over the bucket of its key. -/
theorem search_meets {post : Code × KeyInfo → World → Prop} (opened : Opened strict evicts world chains lists map)
    (harmless : ∀ event, allowed event → evicts ∧ Harmless (hash key world.htSize) event)
    (found : ∀ later next info place node index item, Rep evicts later chains next →
      MemoryOnly (counted world) later →
      Found later (chains (hash key world.htSize)) (next (hash key world.htSize)) key info place node
        index item → info.key = key → info.hash = hash key world.htSize → post (.E_ok, info) later)
    (missing : ∀ later next info, Rep evicts later chains next → MemoryOnly (counted world) later →
      Missing later (chains (hash key world.htSize)) (next (hash key world.htSize)) key info →
      info.key = key → info.hash = hash key world.htSize → post (.E_not_found, info) later)
    (failed : ∀ later next info offset, fails (.readKeyPage offset) = true → Rep evicts later chains next →
      MemoryOnly (counted world) later → post (.E_read_failed, info) later) :
    Meets allowed accepted (processKeyPages fails .GET (KeyInfo.init key (hash key world.htSize)))
      (counted world) post := by
  have geometry := opened.valid.geometry
  exact processKeyPages_get (opened.rep.frame rfl) harmless geometry.homes (geometry.joined _)
    (opened.home_lt key) (geometry.length_le _) found missing failed

/-- The assertions after a key was found hold. -/
theorem assertFound_meets {later : World} {next : Nat → List Nat} {info : KeyInfo}
    {place node index : Nat} {item : Nat × KeyPage} {post : Unit → World → Prop} {voff : Nat}
    (rep : Rep evicts later chains next)
    (found : Found later (chains (hash key world.htSize)) (next (hash key world.htSize)) key info place
      node index item) (offset : (item.2.krec (some index)).voff = some voff) (ends : post () later) :
    Meets allowed accepted (assertFound info) later post := by
  obtain ⟨addr, loaded⟩ := Option.ne_none_iff_exists'.1
    (found.ready node (List.mem_of_getElem? found.listed))
  obtain ⟨kpoff, -⟩ := rep.cached _ place node item addr found.listed found.there loaded
  simp only [assertFound, found.kpn, assert, meets_bind, meets_reads, meets_requires, loaded, kpoff,
    found.kidx, found.voff, offset, Option.isSome_some, if_true]
  exact ends

end Search

/-- Within a call the memory and the files may differ. -/
def Calling (world later : World) : Prop :=
  later = { world with
    opCount := world.opCount + 1
    idx := later.idx
    db := later.db
    fdp := later.fdp
    keyFdp := later.keyFdp
    valueFdp := later.valueFdp
    entries := later.entries
    nodes := later.nodes
    nodeCount := later.nodeCount
    cnodes := later.cnodes
    cnodeCount := later.cnodeCount
    num := later.num
    head := later.head
    tail := later.tail
    pages := later.pages
    nextFreePage := later.nextFreePage
    numOfFreePages := later.numOfFreePages }

namespace Calling

variable {world middle later : World} {store : Store}

theorem of_memory (only : MemoryOnly (counted world) later) : Calling world later := by
  unfold Calling
  rw [only]
  rfl

theorem memory (calling : Calling world middle) (only : MemoryOnly middle later) : Calling world later := by
  unfold Calling
  rw [only, calling]

theorem files (calling : Calling world later) (idx : List KeyPage) (db : List ValuePage)
    (fdp keyFdp valueFdp : List Nat) :
    Calling world { later with
      idx := idx, db := db, fdp := fdp, keyFdp := keyFdp, valueFdp := valueFdp } := by
  unfold Calling
  rw [calling]

theorem kpSize (calling : Calling world later) : later.kpSize = world.kpSize := by rw [calling]

theorem htSize (calling : Calling world later) : later.htSize = world.htSize := by rw [calling]

theorem store_eq (calling : Calling world later) (kpSize : store.kpSize = world.kpSize)
    (htSize : store.htSize = world.htSize) (idx : later.idx = store.idx) (db : later.db = store.db)
    (keyFdp : later.keyFdp = store.keyFdp) (valueFdp : later.valueFdp = store.valueFdp) :
    later.store store.chains = store := by
  unfold World.store
  rw [calling.kpSize, calling.htSize, ← kpSize, ← htSize, idx, db, keyFdp, valueFdp]

/-- The call ends with an open database. -/
theorem ends {strict evicts : Prop} {lists : Nat → List Nat} {map : ByteMap}
    (calling : Calling world later) (running : Running world) (fdp : later.fdp = later.valueFdp.reverse)
    (same : later.store store.chains = store) (rep : Rep evicts later store.chains lists)
    (valid : Valid strict store) (holds : store.Holds map) :
    Opened strict evicts { later with opCount := later.opCount + -1 } store.chains lists map := by
  have final : World.store { later with opCount := later.opCount + -1 } store.chains = store := same
  refine ⟨rep.frame rfl, ?_, ?_, ?_⟩
  · rw [final]
    exact valid
  · rw [final]
    exact holds
  · rw [calling] at fdp ⊢
    refine ⟨running.opened, running.table, ?_, running.created, running.attr, fdp⟩
    show world.opCount + 1 + -1 = 0
    rw [running.idle]
    rfl

end Calling

end SimpleNFast.Rdb
