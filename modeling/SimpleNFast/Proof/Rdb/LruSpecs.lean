import SimpleNFast.Proof.Rdb.LruOrder

namespace SimpleNFast.Rdb
open Program LinkedList

/-- A full cache gives up its last pair, and the node of this pair loses its page. -/
inductive MakesRoom (world later : World) : List (Nat × Nat) → List (Nat × Nat) → Prop where
  | room {pairs : List (Nat × Nat)} (room : world.num < world.max) (nodes : later.nodes = world.nodes) :
      MakesRoom world later pairs pairs
  | evicted {first : List (Nat × Nat)} {cid node : Nat} (full : world.max ≤ world.num)
      (others : ∀ other, other ≠ node → later.nodes other = world.nodes other)
      (victim : (later.nodes node).kp = none ∧ (later.nodes node).cnode = none) :
      MakesRoom world later (first ++ [(cid, node)]) first

/-- A cache node is ready for a page. -/
structure Prepared (world later : World) (pairs rest : List (Nat × Nat)) (cid : Nat) : Prop where
  order : LruOrder later rest
  fresh : cid ∉ rest.map Prod.fst
  known : cid < later.cnodeCount
  room : later.num < later.max
  max : later.max = world.max
  nodeCount : later.nodeCount = world.nodeCount
  makesRoom : MakesRoom world later pairs rest

/-- Only the pages of the pool may differ. -/
def PoolOnly (world later : World) : Prop :=
  later = { world with
    pages := later.pages, nextFreePage := later.nextFreePage, numOfFreePages := later.numOfFreePages }

/-- A node without a cache node stays without one. -/
theorem MakesRoom.free {world later : World} {pairs rest : List (Nat × Nat)} {node : Nat}
    (makes : MakesRoom world later pairs rest) (free : (world.nodes node).cnode = none) :
    (later.nodes node).cnode = none := by
  cases makes with
  | room room nodes => rw [nodes, free]
  | @evicted first cid victim full others gone =>
      by_cases same : node = victim
      · rw [same]
        exact gone.2
      · rw [others node same, free]

theorem MakesRoom.congr {world middle later : World} {pairs rest : List (Nat × Nat)}
    (makes : MakesRoom world middle pairs rest) (same : later.nodes = middle.nodes) :
    MakesRoom world later pairs rest := by
  cases makes with
  | room room nodes => exact .room room (same.trans nodes)
  | evicted full others gone => exact .evicted full (by rwa [same]) (by rwa [same])

section Specs

variable {allowed : Eviction → Prop} {world : World} {pairs : List (Nat × Nat)}

/-- The node of an evicted cache node loses its page, which goes back to the pool. -/
theorem detach_meets {post : Unit → World → Prop} {cid node : Nat} (kpn : (world.cnodes cid).kpn = some node)
    (ends : ∀ stack free, post () { world with
      nodes := Function.update world.nodes node { world.nodes node with kp := none, kpoff := none, cnode := none }
      cnodes := Function.update world.cnodes cid { world.cnodes cid with kpn := none }
      nextFreePage := stack
      numOfFreePages := free }) :
    Meets allowed (fun _ => True) (LRUCache.detach cid) world post := by
  simp only [LRUCache.detach, LRUCache.setCNode, LRUCache.setNode, meets_bind, meets_reads, kpn]
  cases loaded : (world.nodes node).kp with
  | none =>
      simp only [meets_bind, meets_modifies]
      exact ends world.nextFreePage world.numOfFreePages
  | some addr =>
      simp only [PageMgr.free, assert, meets_bind, meets_modifies, meets_reads, meets_requires]
      split
      · exact ends _ _
      · trivial

/-- The last pair is evicted. -/
theorem removeLast_ready {post : Option Nat → World → Prop} (order : LruOrder world pairs) (filled : pairs ≠ [])
    (full : world.max ≤ world.num)
    (ends : ∀ later cid rest, Prepared world later pairs rest cid → post (some cid) later) :
    Meets allowed (fun _ => True) LRUCache.removeLast world post := by
  obtain ⟨first, ⟨cid, node⟩, rfl⟩ := List.eq_nil_or_concat' pairs |>.resolve_left filled
  obtain ⟨kpn, cnode⟩ := order.attached (cid, node) (by simp)
  have tail : world.tail = some cid := by
    rw [order.tail, List.getLast?_concat]
    rfl
  obtain ⟨backward, forward⟩ := order.joined.middle
  obtain ⟨notBefore, -⟩ := order.joined.apart order.distinct
  have lengths := order.num
  have bounded := order.bounded
  rw [List.length_append, List.length_singleton] at lengths
  have finish : ∀ later : World, later.max = world.max → later.nodeCount = world.nodeCount →
      later.cnodeCount = world.cnodeCount → later.num = world.num - 1 →
      (later.head = if (world.cnodes cid).prev = none then none else world.head) →
      later.tail = (world.cnodes cid).prev →
      (∀ another, another ≠ node → later.nodes another = world.nodes another) →
      (later.nodes node).kp = none ∧ (later.nodes node).cnode = none →
      (∀ other, other ≠ cid → (later.cnodes other).kpn = (world.cnodes other).kpn ∧
        (later.cnodes other).prev = (world.cnodes other).prev ∧
        (later.cnodes other).next =
          if (world.cnodes cid).prev = some other then none else (world.cnodes other).next) →
      post (some cid) later := by
    intro later max nodeCount cnodeCount num head tail nodes freed cnodes
    have shorter : LruOrder later first := by
      apply order.dropLast ?_ ?_ num max cnodeCount cnodes nodes freed.2
      · rw [head, backward, Option.or_none]
        simp
      · rw [tail, backward, Option.or_none]
    have apart := order.apart
    rw [List.append_nil] at apart
    apply ends later cid first
    refine ⟨shorter, ?_, ?_, by omega, max, nodeCount, .evicted full nodes freed⟩
    · intro member
      obtain ⟨pair, inside, same⟩ := List.mem_map.1 member
      exact apart pair inside same
    · rw [cnodeCount]
      exact order.known (cid, node) (by simp)
  simp only [LRUCache.removeLast, meets_bind, meets_reports, meets_reads, tail]
  intro _
  cases back : (world.cnodes cid).prev with
  | none =>
      simp only [LRUCache.setCNode, meets_bind, meets_modifies, meets_pure]
      refine @detach_meets _ _ _ _ node kpn ?_
      intro stack free
      apply finish
      iterate 4 rfl
      · simp [back]
      · simp [back]
      · intro another differs
        simp [differs]
      · simp
      · intro other differs
        simp [differs, back]
  | some before =>
      simp only [back, ne_eq, Option.some.injEq] at notBefore
      simp only [LRUCache.setCNode, meets_bind, meets_modifies, meets_pure]
      refine @detach_meets _ _ _ _ node ((kpn_relink ..).trans kpn) ?_
      intro stack free
      apply finish
      iterate 4 rfl
      · simp [back]
      · simp [back]
      · intro another differs
        simp [differs]
      · simp
      · intro other differs
        simp only [ne_eq, differs, not_false_eq_true, Function.update_of_ne, kpn_relink, prev_relink,
          next_relink, back, Option.some.injEq]
        grind

/-- A cache node is found. -/
theorem getCacheNode_ready {post : Option Nat → World → Prop} (order : LruOrder world pairs) (max : 1 ≤ world.max)
    (ends : ∀ later cid rest, Prepared world later pairs rest cid → post (some cid) later) :
    Meets allowed (fun _ => True) LRUCache.getCacheNode world post := by
  simp only [LRUCache.getCacheNode, meets_bind, meets_reads]
  split
  · rename_i full
    refine removeLast_ready order ?_ full ends
    rintro rfl
    have empty := order.num
    rw [List.length_nil] at empty
    omega
  · rename_i room
    simp only [meets_bind, meets_reads, meets_modifies, meets_pure]
    have apart : ∀ pair ∈ pairs, pair.1 ≠ world.cnodeCount := by
      intro pair member same
      have known := order.known pair member
      omega
    apply ends _ world.cnodeCount pairs
    refine ⟨?_, ?_, Nat.lt_succ_self _, by simpa using room, rfl, rfl, .room (by omega) rfl⟩
    · refine order.congr rfl rfl rfl rfl (Nat.le_succ _) ?_ rfl
      intro pair member
      exact Function.update_of_ne (apart pair member) _ _
    · intro member
      obtain ⟨pair, inside, same⟩ := List.mem_map.1 member
      exact apart pair inside same

/-- A page of the pool is filled, or there is no page. -/
theorem getPage_poolOnly {post : Code × Option Nat → World → Prop} {fails : Failures} {offset : Off}
    (ends : ∀ later addr, PoolOnly world later → post (.E_ok, some addr) later)
    (fail : ∀ later code addr, code ≠ .E_ok → PoolOnly world later → post (code, addr) later) :
    Meets allowed (fun _ => True) (LRUCache.getPage fails offset) world post := by
  simp only [LRUCache.getPage, PageMgr.get, meets_bind, meets_reads]
  split
  · simp only [meets_pure]
    exact fail _ _ _ (by decide) rfl
  · rename_i addr rest stack
    split
    · simp only [meets_pure]
      exact fail _ _ _ (by decide) rfl
    · cases offset with
      | none =>
          simp only [meets_bind, meets_modifies, meets_pure]
          exact ends _ _ rfl
      | some place =>
          simp only [KeyFile.read, meets_bind, meets_modifies, meets_pure]
          split
          · simp only [PageMgr.free, assert, meets_bind, meets_reads, meets_requires, meets_modifies, meets_pure]
            split
            · exact fail _ _ _ (by decide) rfl
            · trivial
          · simp only [meets_reads]
            cases world.idx[place / world.kpSize]? with
            | none =>
                simp only [PageMgr.free, assert, meets_bind, meets_reads, meets_requires, meets_modifies, meets_pure]
                split
                · exact fail _ _ _ (by decide) rfl
                · trivial
            | some page =>
                simp only [meets_bind, meets_modifies, meets_pure]
                exact ends _ _ rfl

/-- A page, its node and its cache node come together at the front. -/
theorem attach_order {post : Unit → World → Prop} {cid node addr : Nat} {offset : Off} (order : LruOrder world pairs)
    (fresh : cid ∉ pairs.map Prod.fst) (known : cid < world.cnodeCount) (room : world.num < world.max)
    (free : (world.nodes node).cnode = none)
    (ends : ∀ later, LruOrder later ((cid, node) :: pairs) → later.max = world.max →
      later.nodeCount = world.nodeCount → (∀ other, other ≠ node → later.nodes other = world.nodes other) →
      post () later) :
    Meets allowed (fun _ => True) (LRUCache.attach node cid addr offset) world post := by
  have finish : ∀ later : World, later.max = world.max → later.nodeCount = world.nodeCount →
      later.cnodeCount = world.cnodeCount → later.num = world.num + 1 → later.head = some cid →
      later.tail = (if world.head = none then some cid else world.tail) →
      later.nodes = Function.update world.nodes node ⟨some addr, offset, some cid, none, none⟩ →
      later.cnodes cid = ⟨some node, none, world.head⟩ →
      (∀ other, other ≠ cid → (later.cnodes other).kpn = (world.cnodes other).kpn ∧
        (later.cnodes other).prev =
          (if world.head = some other then some cid else (world.cnodes other).prev) ∧
        (later.cnodes other).next = (world.cnodes other).next) → post () later := by
    intro later max nodeCount cnodeCount num head tail nodes own others
    have same : ∀ other, other ≠ node → later.nodes other = world.nodes other := by
      intro other differs
      rw [nodes, Function.update_of_ne differs]
    refine ends later ?_ max nodeCount same
    apply order.push fresh ?_ ?_ head tail num room max cnodeCount.ge own others same
    · rw [nodes, Function.update_self]
    · rw [nodes, Function.update_self]
      exact Option.some_ne_none addr
    · intro other held
      rw [free] at held
      cases held
    · rw [cnodeCount]
      exact known
  simp only [LRUCache.attach, LRUCache.add, LRUCache.setNode, LRUCache.setCNode, meets_bind,
    meets_modifies, meets_reads]
  cases top : world.head with
  | none =>
      simp only [meets_bind, meets_modifies]
      apply finish
      iterate 5 rfl
      · rw [top, if_pos rfl]
      · rfl
      · simp [top]
      · intro other differs
        simp [differs, top]
  | some start =>
      have notCid : start ≠ cid := by
        rintro rfl
        rw [order.head] at top
        obtain ⟨first, inside, same⟩ := Option.map_eq_some_iff.1 top
        rw [← same] at fresh
        exact fresh (List.mem_map_of_mem (List.mem_of_mem_head? inside))
      simp only [meets_bind, meets_modifies]
      apply finish
      iterate 5 rfl
      · rw [top, if_neg (Option.some_ne_none start)]
      · rfl
      · simp [top, notCid.symm]
      · intro other differs
        by_cases same : other = start
        · subst same
          simp [differs, top]
        · simp [differs, top, same, Ne.symm same]

/-- A page is loaded for a node without one. -/
theorem load_order {α : Type} {post : α → World → Prop} {cid node : Nat} {fails : Failures} {offset : Off}
    {done : α} {failed : Code → α} (order : LruOrder world pairs) (fresh : cid ∉ pairs.map Prod.fst)
    (known : cid < world.cnodeCount) (room : world.num < world.max) (free : (world.nodes node).cnode = none)
    (ends : ∀ later, LruOrder later ((cid, node) :: pairs) → later.max = world.max →
      later.nodeCount = world.nodeCount → (∀ other, other ≠ node → later.nodes other = world.nodes other) →
      post done later)
    (fail : ∀ later code, LruOrder later pairs → later.max = world.max → later.nodeCount = world.nodeCount →
      later.nodes = world.nodes → code ≠ .E_ok → post (failed code) later) :
    Meets allowed (fun _ => True) (do
      let page ← LRUCache.getPage fails offset
      match page with
      | (.E_ok, some addr) => do
          LRUCache.attach node cid addr offset
          pure done
      | (code, _) => pure (failed code)) world post := by
  rw [meets_bind]
  have pooled : ∀ later, PoolOnly world later → LruOrder later pairs := by
    intro later only
    rw [only]
    exact order.congr rfl rfl rfl rfl le_rfl (fun _ _ => rfl) rfl
  apply getPage_poolOnly
  · intro later addr only
    simp only [meets_bind, meets_pure]
    refine attach_order (pooled later only) fresh ?_ ?_ ?_ ?_
    · rw [only]
      exact known
    · rw [only]
      exact room
    · rw [only]
      exact free
    · intro final attached max nodeCount nodes
      rw [only] at max nodeCount nodes
      exact ends final attached max nodeCount nodes
  · intro later code addr wrong only
    have ended : post (failed code) later := by
      apply fail later code (pooled later only) ?_ ?_ ?_ wrong
      iterate 3 rw [only]
    split
    · rename_i same
      exact absurd (congrArg Prod.fst same) wrong
    · rename_i same
      cases same
      exact meets_pure.2 ended

/-- A new node stands at the front, or its page could not be loaded. -/
theorem get_order {post : Code × Nat → World → Prop} {fails : Failures} {offset : Off} (order : LruOrder world pairs)
    (max : 1 ≤ world.max) (free : (world.nodes world.nodeCount).cnode = none)
    (ends : ∀ middle later rest cid, MakesRoom world middle pairs rest →
      LruOrder later ((cid, world.nodeCount) :: rest) → later.max = world.max →
      later.nodeCount = world.nodeCount + 1 →
      (∀ other, other ≠ world.nodeCount → later.nodes other = middle.nodes other) →
      post (.E_ok, world.nodeCount) later)
    (fail : ∀ later rest code node, MakesRoom world later pairs rest → LruOrder later rest → later.max = world.max →
      later.nodeCount = world.nodeCount + 1 → code ≠ .E_ok → post (code, node) later) :
    Meets allowed (fun _ => True) (LRUCache.get fails offset) world post := by
  simp only [LRUCache.get, meets_bind]
  apply getCacheNode_ready order max
  intro middle cid rest ready
  simp only [meets_bind, meets_reads, meets_modifies, ready.nodeCount]
  have grown : LruOrder { middle with nodeCount := world.nodeCount + 1 } rest :=
    ready.order.congr rfl rfl rfl rfl le_rfl (fun _ _ => rfl) rfl
  rw [← meets_bind]
  refine load_order grown ready.fresh ready.known ready.room ?_ ?_ ?_
  · exact ready.makesRoom.free free
  · intro later attached laterMax nodeCount nodes
    exact ends middle later rest cid ready.makesRoom attached (laterMax.trans ready.max) nodeCount nodes
  · intro later code kept laterMax nodeCount nodes wrong
    exact fail later rest code _ (ready.makesRoom.congr nodes) kept (laterMax.trans ready.max) nodeCount wrong

/-- A node that is not cached, or whose place is given up, stands at the front with its new page. -/
theorem update_order {post : Code → World → Prop} {fails : Failures} {node : Nat} {offset : Off}
    (order : LruOrder world pairs) (max : 1 ≤ world.max)
    (free : ∀ middle rest, MakesRoom world middle pairs rest → (middle.nodes node).cnode = none)
    (ends : ∀ middle later rest cid, MakesRoom world middle pairs rest → LruOrder later ((cid, node) :: rest) →
      later.max = world.max → later.nodeCount = world.nodeCount →
      (∀ other, other ≠ node → later.nodes other = middle.nodes other) → post .E_ok later)
    (fail : ∀ later rest code, MakesRoom world later pairs rest → LruOrder later rest → later.max = world.max →
      later.nodeCount = world.nodeCount → code ≠ .E_ok → post code later) :
    Meets allowed (fun _ => True) (LRUCache.update fails node offset) world post := by
  simp only [LRUCache.update, meets_bind]
  apply getCacheNode_ready order max
  intro middle cid rest ready
  simp only
  refine load_order ready.order ready.fresh ready.known ready.room (free middle rest ready.makesRoom) ?_ ?_
  · intro later attached laterMax nodeCount nodes
    exact ends middle later rest cid ready.makesRoom attached (laterMax.trans ready.max)
      (nodeCount.trans ready.nodeCount) nodes
  · intro later code kept laterMax nodeCount nodes wrong
    exact fail later rest code (ready.makesRoom.congr nodes) kept (laterMax.trans ready.max)
      (nodeCount.trans ready.nodeCount) wrong

/-- A cached node that is not the last of several ones comes to the front. -/
theorem touch_order {post : Unit → World → Prop} {node : Nat} (order : LruOrder world pairs)
    (meant : ∀ cid, (world.nodes node).cnode = some cid → (world.nodes node).kp ≠ none →
      world.tail = some cid → world.head = some cid)
    (absent : (world.nodes node).cnode = none → post () world)
    (ends : ∀ later first last cid, pairs = first ++ (cid, node) :: last →
      LruOrder later ((cid, node) :: (first ++ last)) → later.max = world.max → later.nodeCount = world.nodeCount →
      later.nodes = world.nodes → post () later) :
    Meets allowed (fun _ => True) (LRUCache.touch node) world post := by
  simp only [LRUCache.touch, meets_bind, meets_reads]
  cases held : (world.nodes node).cnode with
  | none =>
      split
      · rename_i same
        cases same
      · exact meets_pure.2 (absent held)
  | some cid =>
      have member := order.cached node cid held
      cases loaded : (world.nodes node).kp with
      | none => exact absurd loaded (order.loaded _ member)
      | some addr =>
          obtain ⟨first, last, rfl⟩ := List.append_of_mem member
          obtain ⟨backward, forward⟩ := order.joined.middle
          obtain ⟨notBefore, notAfter⟩ := order.joined.apart order.distinct
          simp only [Option.or_none] at backward forward notBefore notAfter
          simp only [meets_bind, meets_reads]
          cases back : (world.cnodes cid).prev with
          | none =>
              have front : first = [] := by
                rw [back] at backward
                exact List.getLast?_eq_none_iff.1 (Option.map_eq_none_iff.1 backward.symm)
              subst front
              exact meets_pure.2 (ends world [] last cid rfl order rfl rfl rfl)
          | some before =>
              have notFirst : first ≠ [] := by
                rintro rfl
                rw [back] at backward
                cases backward
              have notLast : last ≠ [] := by
                rintro rfl
                have top := meant cid held (loaded ▸ Option.some_ne_none addr) (by rw [order.tail]; simp)
                rw [order.head] at top
                cases first with
                | nil => exact notFirst rfl
                | cons start rest => exact order.apart start (by simp) (Option.some.inj top)
              have finish : ∀ later : World, later.head = some cid → later.tail = world.tail → later.num = world.num →
                  later.max = world.max → later.cnodeCount = world.cnodeCount → later.nodeCount = world.nodeCount →
                  later.nodes = world.nodes →
                  (∀ other, (later.cnodes other).kpn = (world.cnodes other).kpn) →
                  ((later.cnodes cid).prev = none ∧ (later.cnodes cid).next = world.head) →
                  (∀ other, other ≠ cid → (later.cnodes other).prev =
                    if world.head = some other then some cid
                    else if (world.cnodes cid).next = some other then (world.cnodes cid).prev
                    else (world.cnodes other).prev) →
                  (∀ other, other ≠ cid → (later.cnodes other).next =
                    if (world.cnodes cid).prev = some other then (world.cnodes cid).next
                    else (world.cnodes other).next) → post () later := by
                intro later head tail num max cnodeCount nodeCount nodes kpn own prev next
                exact ends later first last cid rfl
                  (order.moveFront notLast notFirst head tail num max cnodeCount kpn own prev next nodes)
                  max nodeCount nodes
              have top : world.head = first.head?.map Prod.fst := by
                rw [order.head]
                cases first with
                | nil => exact absurd rfl notFirst
                | cons start rest => rfl
              cases first with
              | nil => exact absurd rfl notFirst
              | cons start others =>
                  have notStart : start.1 ≠ cid := order.apart start (by simp)
                  cases ahead : (world.cnodes cid).next with
                  | none =>
                      rw [ahead] at forward
                      cases last with
                      | nil => exact absurd rfl notLast
                      | cons after rest => cases forward
                  | some after =>
                      rw [back, ne_eq, Option.some.injEq] at notBefore
                      rw [ahead, ne_eq, Option.some.injEq] at notAfter
                      simp only [List.head?_cons, Option.map_some] at top
                      simp only [LRUCache.setCNode, top, meets_bind, meets_modifies, meets_reads]
                      apply finish
                      iterate 7 rfl
                      · intro other
                        simp only [kpn_relink]
                        grind
                      · simp [notStart.symm, top]
                      all_goals
                        intro other differs
                        simp only [kpn_relink, prev_relink, next_relink, back, ahead, top, Option.some.injEq]
                        grind

end Specs

end SimpleNFast.Rdb
