import SimpleNFast.Construction.Rdb.Cache
import SimpleNFast.Proof.Rdb.LruSpecs

namespace SimpleNFast.Rdb
open Program LinkedList

/-- The list stands in the order of the last uses, and its nodes are valid. -/
structure KeptOrder (state : CacheState) (pairs : List (Nat × Nat)) : Prop where
  order : LruOrder state.world pairs
  max : 1 ≤ state.world.max
  known : ∀ node ∈ state.valid, node < state.world.nodeCount
  owned : ∀ pair ∈ pairs, pair.2 ∈ state.valid
  used : ∀ node, state.lastUse node ≤ state.clock
  recent : pairs.Pairwise fun first second => state.lastUse second.2 < state.lastUse first.2

/-- The pairs that stay are the first ones. -/
theorem MakesRoom.first_pairs {world later : World} {pairs rest : List (Nat × Nat)} (makes : MakesRoom world later pairs rest) :
    rest <+: pairs := by
  cases makes with
  | room => exact List.prefix_refl pairs
  | evicted => exact List.prefix_append _ _

/-- A node has one cache node. -/
theorem LruOrder.otherNode {world : World} {rest : List (Nat × Nat)} {cid node : Nat}
    (order : LruOrder world ((cid, node) :: rest)) : ∀ pair ∈ rest, pair.2 ≠ node := by
  rintro ⟨other, _⟩ member rfl
  have one := (order.attached _ (List.mem_cons_of_mem _ member)).2
  have two := (order.attached (cid, _) List.mem_cons_self).2
  rw [one] at two
  have apart : ∀ pair ∈ [] ++ rest, pair.1 ≠ cid := LruOrder.apart order
  exact apart _ member (Option.some.inj two)

/-- What a run that may not stop early meets holds at its end. -/
theorem ended {α : Type} {call : Call α} {world later : World} {value : α} {post : α → World → Prop}
    (met : Meets (fun _ => True) (fun _ => True) call world post) (ran : (call world).result = .ok (value, later)) :
    post value later := by
  have done := met fun _ _ => trivial
  rw [ran] at done
  exact done

namespace KeptOrder

variable {state : CacheState} {pairs rest : List (Nat × Nat)} {later : World} {valid : List Nat} {node cid : Nat}

/-- A used node that is not in the list changes nothing in it. -/
theorem stay (kept : KeptOrder state pairs) (order : LruOrder later rest) (part : rest.Sublist pairs)
    (max : later.max = state.world.max) (grows : ∀ other ∈ state.valid, other ∈ valid)
    (known : ∀ other ∈ valid, other < later.nodeCount) {used : Option Nat}
    (apart : ∀ pair ∈ rest, used ≠ some pair.2) :
    KeptOrder ⟨later, valid, used.elim state.lastUse fun node => Function.update state.lastUse node (state.clock + 1),
      state.clock + 1⟩ rest where
  order := order
  max := max ▸ kept.max
  known := known
  owned pair member := grows _ (kept.owned pair (part.subset member))
  used other := by
    have before := kept.used other
    cases used with
    | none => exact before.trans (Nat.le_succ _)
    | some node =>
        simp only [Option.elim, Function.update_apply]
        split
        · exact le_rfl
        · exact before.trans (Nat.le_succ _)
  recent := by
    apply (kept.recent.sublist part).imp_of_mem
    intro first second inFirst inSecond earlier
    have one := apart first inFirst
    have two := apart second inSecond
    cases used with
    | none => exact earlier
    | some node =>
        simp only [ne_eq, Option.some.injEq] at one two
        simpa only [Option.elim, Function.update_of_ne (Ne.symm one), Function.update_of_ne (Ne.symm two)] using earlier

/-- A used node at the front was used last. -/
theorem front (kept : KeptOrder state pairs) (order : LruOrder later ((cid, node) :: rest)) (part : rest.Sublist pairs)
    (max : later.max = state.world.max) (grows : ∀ other ∈ state.valid, other ∈ valid)
    (known : ∀ other ∈ valid, other < later.nodeCount) (inside : node ∈ valid) :
    KeptOrder ⟨later, valid, Function.update state.lastUse node (state.clock + 1), state.clock + 1⟩
      ((cid, node) :: rest) where
  order := order
  max := max ▸ kept.max
  known := known
  owned pair member := by
    obtain rfl | member := List.mem_cons.1 member
    · exact inside
    · exact grows _ (kept.owned pair (part.subset member))
  used other := by
    have before := kept.used other
    show Function.update state.lastUse node (state.clock + 1) other ≤ state.clock + 1
    rw [Function.update_apply]
    split
    · exact le_rfl
    · exact before.trans (Nat.le_succ _)
  recent := by
    have apart := order.otherNode
    rw [List.pairwise_cons]
    constructor
    · intro pair member
      have before := kept.used pair.2
      show Function.update state.lastUse node _ pair.2 < Function.update state.lastUse node _ node
      rw [Function.update_of_ne (apart pair member), Function.update_self]
      exact Nat.lt_succ_of_le before
    · apply (kept.recent.sublist part).imp_of_mem
      intro first second inFirst inSecond earlier
      show Function.update state.lastUse node _ second.2 < Function.update state.lastUse node _ first.2
      rwa [Function.update_of_ne (apart first inFirst), Function.update_of_ne (apart second inSecond)]

/-- No node is cached before it exists. -/
theorem free_new (kept : KeptOrder state pairs) : (state.world.nodes state.world.nodeCount).cnode = none := by
  cases held : (state.world.nodes state.world.nodeCount).cnode with
  | none => rfl
  | some cid =>
      have member := kept.order.cached _ _ held
      exact absurd (kept.known _ (kept.owned _ member)) (lt_irrefl _)

/-- A node that gives up its place is not cached any more. -/
theorem free_update (kept : KeptOrder state pairs) {fails : Failures} {offset : Off}
    (meant : KeepsList state (.update fails node offset)) {middle : World}
    (makes : MakesRoom state.world middle pairs rest) : (middle.nodes node).cnode = none := by
  cases held : (state.world.nodes node).cnode with
  | none => exact makes.free held
  | some cid =>
      obtain ⟨full, last⟩ := meant cid held
      have member := kept.order.cached _ _ held
      cases makes with
      | room room nodes => omega
      | @evicted first victimCid victim full others gone =>
          rw [kept.order.tail, List.getLast?_concat] at last
          have same : victimCid = cid := Option.some.inj last
          subst same
          have one := (kept.order.attached _ member).1
          have two := (kept.order.attached (victimCid, victim) (by simp)).1
          have named : node = victim := Option.some.inj (one.symm.trans two)
          rw [named]
          exact gone.2

/-- The list is a list of cache nodes in the order of the last uses. -/
theorem isLruList (kept : KeptOrder state pairs) : IsLruList state (pairs.map Prod.fst) where
  head := by rw [kept.order.head, List.head?_map]
  tail := by rw [kept.order.tail, List.getLast?_map]
  joined := joined_map.2 kept.order.joined
  distinct := kept.order.distinct
  num := by rw [kept.order.num, List.length_map]
  bounded := kept.order.bounded
  owned cid member := by
    obtain ⟨pair, inside, rfl⟩ := List.mem_map.1 member
    exact ⟨pair.2, kept.owned pair inside, kept.order.attached pair inside⟩
  recent := by
    rw [List.pairwise_map]
    apply kept.recent.imp_of_mem
    intro first second inFirst inSecond later one two atOne atTwo
    rw [(kept.order.attached first inFirst).1] at atOne
    rw [(kept.order.attached second inSecond).1] at atTwo
    rw [← Option.some.inj atOne, ← Option.some.inj atTwo]
    exact later

/-- The last node gives up its place in a full cache. -/
theorem evictsOldest (kept : KeptOrder state pairs) : EvictsOldest state := by
  intro full fails offset reply later ran
  have evicts : ∀ later middle rest, MakesRoom state.world middle pairs rest →
      (∀ other ∈ state.valid, later.nodes other = middle.nodes other) → GivesUpOldest state later := by
    intro later middle rest makes nodes
    cases makes with
    | room room => omega
    | @evicted _ cid victim _ others gone =>
        have inside := kept.owned (cid, victim) (by simp)
        refine ⟨victim, inside, ?_, ?_, ?_⟩
        · rw [(kept.order.attached (cid, victim) (by simp)).2]
          exact Option.some_ne_none cid
        · rw [nodes victim inside]
          exact gone.1
        · intro other valid differs
          refine ⟨(nodes other valid).trans (others other differs), ?_⟩
          intro held
          obtain ⟨otherCid, held⟩ := Option.ne_none_iff_exists'.1 held
          have member := kept.order.cached _ _ held
          rw [List.mem_append, List.mem_singleton] at member
          obtain member | same := member
          · exact (List.pairwise_append.1 kept.recent).2.2 _ member _ (List.mem_singleton.2 rfl)
          · exact absurd (congrArg Prod.snd same) differs
  have met : Meets (fun _ => True) (fun _ => True) (LRUCache.get fails offset) state.world
      fun _ later => GivesUpOldest state later := by
    apply get_order kept.order kept.max kept.free_new
    · intro middle later rest cid makes _ _ _ nodes
      exact evicts later middle rest makes fun other valid => nodes other (kept.known other valid).ne
    · intro later rest code node makes _ _ _ _
      exact evicts later later rest makes fun _ _ => rfl
  have done := ended met ran
  exact done

/-- An allowed call keeps the list. -/
theorem call (kept : KeptOrder state pairs) {call : CacheCall} (valid : call.valid state)
    (meant : KeepsList state call) {used : Option Nat} (ran : (call.perform state.world).result = .ok (used, later)) :
    ∃ pairs, KeptOrder (state.after call used later) pairs := by
  have met : Meets (fun _ => True) (fun _ => True) call.perform state.world
      fun used later => ∃ pairs, KeptOrder (state.after call used later) pairs := by
    cases call with
    | get fails offset =>
        simp only [CacheCall.perform, meets_bind, meets_pure]
        apply get_order kept.order kept.max kept.free_new
        · intro middle later rest cid makes order max nodeCount _
          refine ⟨_, kept.front order makes.first_pairs.sublist max ?_ ?_ ?_⟩
          · exact fun other inside => List.mem_cons_of_mem _ inside
          · intro other inside
            rw [nodeCount]
            obtain rfl | inside := List.mem_cons.1 inside
            · exact Nat.lt_succ_self _
            · exact (kept.known other inside).trans (Nat.lt_succ_self _)
          · exact List.mem_cons_self
        · intro later rest code node makes order max nodeCount wrong
          rw [if_neg wrong]
          refine ⟨rest, kept.stay order makes.first_pairs.sublist max ?_ ?_ (by simp)⟩
          · exact fun other inside => inside
          · intro other inside
            rw [nodeCount]
            exact (kept.known other inside).trans (Nat.lt_succ_self _)
    | update fails node offset =>
        simp only [CacheCall.perform, meets_bind, meets_pure]
        apply update_order kept.order kept.max fun middle rest makes => kept.free_update meant makes
        · intro middle later rest cid makes order max nodeCount _
          refine ⟨_, kept.front order makes.first_pairs.sublist max (fun _ inside => inside) ?_ valid⟩
          rw [nodeCount]
          exact kept.known
        · intro later rest code makes order max nodeCount wrong
          rw [if_neg wrong]
          refine ⟨rest, kept.stay order makes.first_pairs.sublist max (fun _ inside => inside) ?_ (by simp)⟩
          rw [nodeCount]
          exact kept.known
    | touch node =>
        simp only [CacheCall.perform, meets_bind, meets_pure]
        apply touch_order kept.order meant
        · intro free
          refine ⟨pairs, kept.stay kept.order (List.Sublist.refl _) rfl (fun _ inside => inside) kept.known ?_⟩
          intro pair member same
          have held := (kept.order.attached pair member).2
          rw [← Option.some.inj same, free] at held
          cases held
        · rintro later first last cid rfl order max nodeCount _
          have part := List.Sublist.append (List.Sublist.refl first) (List.sublist_cons_self (cid, node) last)
          refine ⟨_, kept.front order part max (fun _ inside => inside) ?_ valid⟩
          rw [nodeCount]
          exact kept.known
    | free node =>
        have uncached : (state.world.nodes node).cnode = none := meant
        simp only [CacheCall.perform, LRUCache.free, meets_bind, meets_reads, uncached, meets_pure]
        refine ⟨pairs, kept.stay kept.order (List.Sublist.refl _) rfl ?_ ?_ (by simp)⟩
        · intro other inside
          rwa [CacheCall.validAfter, if_pos uncached]
        · intro other inside
          rw [CacheCall.validAfter, if_pos uncached] at inside
          exact kept.known other inside
  have done := ended met ran
  exact done

end KeptOrder

/-- Every state after such calls has its list. -/
theorem CacheRun.kept {state : CacheState} (run : CacheRun KeepsList state) : ∃ pairs, KeptOrder state pairs := by
  induction run with
  | new new =>
      refine ⟨[], ?_, new.max, by simp, by simp, fun _ => le_rfl, List.Pairwise.nil⟩
      refine ⟨new.head, new.tail, trivial, List.nodup_nil, new.num, ?_, by simp, by simp, ?_, by simp⟩
      · rw [new.num]
        exact Nat.zero_le _
      · intro node cid held
        rw [new.nodes] at held
        cases held
  | call before valid meant ran keptBefore =>
      obtain ⟨pairs, kept⟩ := keptBefore
      exact kept.call valid meant ran

/-- While no cached node is freed, the last of several nodes is not touched, and a node is updated only when it is not
cached or gives up its place, the cache is a list in the order of the last uses and gives up its oldest node. -/
theorem lruCache_isLruList {state : CacheState} (run : CacheRun KeepsList state) :
    (∃ list, IsLruList state list) ∧ EvictsOldest state := by
  obtain ⟨pairs, kept⟩ := run.kept
  exact ⟨⟨_, kept.isLruList⟩, kept.evictsOldest⟩

/-- A new cache with two pages. -/
def twoPages : World where
  created := true
  attr := none
  idx := []
  db := []
  fdp := []
  bkup := none
  kpSize := 1024
  htSize := 1
  poolSize := 2048
  opened := true
  opCount := 0
  hashTable := true
  entries _ := HashEntry.init
  keyFdp := []
  valueFdp := []
  nodes _ := ⟨none, none, none, none, none⟩
  nodeCount := 0
  cnodes _ := ⟨none, none, none⟩
  cnodeCount := 0
  max := 2
  num := 0
  head := none
  tail := none
  pages _ := KeyPage.zero 1024
  nextFreePage := [0]
  numOfFreePages := 2

theorem twoPages_new : NewCache twoPages := ⟨rfl, rfl, rfl, by decide, fun _ => rfl⟩

/-- The state after two pages were loaded. -/
def loaded : CacheState :=
  let first := CacheCall.get noFailure none
  match (first.perform twoPages).result with
  | .error _ => ⟨twoPages, [], fun _ => 0, 0⟩
  | .ok (used, world) =>
      let state := CacheState.after ⟨twoPages, [], fun _ => 0, 0⟩ first used world
      match (first.perform world).result with
      | .error _ => state
      | .ok (used, world) => state.after first used world

theorem loaded_run (allowed : CacheState → CacheCall → Prop)
    (gets : ∀ state, allowed state (.get noFailure none)) : CacheRun allowed loaded :=
  have first := @CacheRun.call allowed _ (.new twoPages_new) (.get noFailure none) trivial (gets _) _ _ rfl
  @CacheRun.call allowed _ first (.get noFailure none) trivial (gets _) _ _ rfl

theorem lruCache_isLruList_twoPages : (∃ list, IsLruList loaded list) ∧ EvictsOldest loaded :=
  lruCache_isLruList (loaded_run KeepsList fun _ => trivial)

/-- A touch of the last node leaves the tail behind: the list goes round from its tail to its head. -/
theorem touch_breaks_list : ¬ ∀ state, CacheRun (fun _ _ => True) state →
    (∃ list, IsLruList state list) ∧ EvictsOldest state := by
  intro claimed
  have member : 0 ∈ loaded.valid := by decide
  have run := @CacheRun.call (fun _ _ => True) _ (loaded_run _ fun _ => trivial) (.touch 0) member trivial _ _ rfl
  obtain ⟨⟨list, isList⟩, -⟩ := claimed _ run
  have head : some 0 = list.head? := isList.head
  have tail : some 0 = list.getLast? := isList.tail
  cases list with
  | nil => cases head
  | cons first rest =>
      cases head
      have next : some 1 = (rest.head?.map id).or none := isList.joined.2.1
      cases rest with
      | nil => cases next
      | cons second rest =>
          rw [List.getLast?_cons_cons] at tail
          exact (List.nodup_cons.1 isList.distinct).1 (List.mem_of_getLast? tail.symm)

end SimpleNFast.Rdb
