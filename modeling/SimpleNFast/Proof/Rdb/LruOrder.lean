import SimpleNFast.Construction.Rdb.Cache
import SimpleNFast.Proof.Rdb.Residence

namespace SimpleNFast.Rdb
open Program LinkedList

/-- The cache nodes stand in a list, each with its key page node. -/
structure LruOrder (world : World) (pairs : List (Nat × Nat)) : Prop where
  head : world.head = pairs.head?.map Prod.fst
  tail : world.tail = pairs.getLast?.map Prod.fst
  joined : Joined Prod.fst (fun pair => (world.cnodes pair.1).prev) (fun pair => (world.cnodes pair.1).next) none none
    pairs
  distinct : (pairs.map Prod.fst).Nodup
  num : world.num = pairs.length
  bounded : world.num ≤ world.max
  known : ∀ pair ∈ pairs, pair.1 < world.cnodeCount
  attached : ∀ pair ∈ pairs, (world.cnodes pair.1).kpn = some pair.2 ∧ (world.nodes pair.2).cnode = some pair.1
  cached : ∀ node cid, (world.nodes node).cnode = some cid → (cid, node) ∈ pairs
  loaded : ∀ pair ∈ pairs, (world.nodes pair.2).kp ≠ none

namespace LruOrder

variable {allowed : Eviction → Prop} {world later : World} {pairs first last : List (Nat × Nat)} {cid node : Nat}

theorem apart (order : LruOrder world (first ++ (cid, node) :: last)) :
    ∀ pair ∈ first ++ last, pair.1 ≠ cid := by
  have around : ((first ++ (cid, node) :: last).map Prod.fst).Perm (((cid, node) :: (first ++ last)).map Prod.fst) :=
    List.perm_middle.map _
  have outside := (List.nodup_cons.1 (around.nodup_iff.1 order.distinct)).1
  intro pair member same
  have inside : pair.1 ∈ (first ++ last).map Prod.fst := List.mem_map_of_mem member
  rw [same] at inside
  exact outside inside

/-- The list depends on the links and on the nodes. -/
theorem congr (order : LruOrder world pairs) (head : later.head = world.head) (tail : later.tail = world.tail)
    (num : later.num = world.num) (max : later.max = world.max) (cnodeCount : world.cnodeCount ≤ later.cnodeCount)
    (cnodes : ∀ pair ∈ pairs, later.cnodes pair.1 = world.cnodes pair.1) (nodes : later.nodes = world.nodes) :
    LruOrder later pairs where
  head := head.trans order.head
  tail := tail.trans order.tail
  joined := order.joined.congr (fun pair member => by rw [cnodes pair member])
    (fun pair member => by rw [cnodes pair member])
  distinct := order.distinct
  num := num.trans order.num
  bounded := by
    rw [num, max]
    exact order.bounded
  known pair member := (order.known pair member).trans_le cnodeCount
  attached pair member := by
    rw [cnodes pair member, nodes]
    exact order.attached pair member
  cached node cid holds := order.cached node cid (by rwa [nodes] at holds)
  loaded pair member := by
    rw [nodes]
    exact order.loaded pair member

/-- The last pair leaves the list. -/
theorem dropLast (order : LruOrder world (first ++ [(cid, node)]))
    (head : later.head = if first = [] then none else world.head)
    (tail : later.tail = first.getLast?.map Prod.fst) (num : later.num = world.num - 1) (max : later.max = world.max)
    (cnodeCount : later.cnodeCount = world.cnodeCount)
    (others : ∀ other, other ≠ cid → (later.cnodes other).kpn = (world.cnodes other).kpn ∧
      (later.cnodes other).prev = (world.cnodes other).prev ∧
      (later.cnodes other).next =
        if (world.cnodes cid).prev = some other then none else (world.cnodes other).next)
    (nodes : ∀ other, other ≠ node → later.nodes other = world.nodes other)
    (freed : (later.nodes node).cnode = none) : LruOrder later first := by
  have apart := order.apart
  rw [List.append_nil] at apart
  obtain ⟨backward, forward⟩ := order.joined.middle
  have otherNode : ∀ pair ∈ first, pair.2 ≠ node := by
    rintro ⟨other, _⟩ member rfl
    have one := (order.attached _ (List.mem_append_left _ member)).2
    have two := (order.attached (cid, _) (List.mem_append_right _ (List.mem_singleton.2 rfl))).2
    rw [one] at two
    exact apart _ member (Option.some.inj two)
  have lengths := order.num
  have bounded := order.bounded
  rw [List.length_append, List.length_singleton] at lengths
  refine ⟨?_, tail, ?_, ?_, by omega, by omega, ?_, ?_, ?_, ?_⟩
  · rw [head, order.head]
    cases first with
    | nil => rfl
    | cons start rest => rfl
  · rw [← List.append_nil first]
    apply order.joined.unlink order.distinct (by simp) (by simp)
    · intro pair member
      rw [List.append_nil] at member
      rw [(others _ (apart pair member)).2.1, forward, if_neg (by simp)]
    · intro pair member
      rw [List.append_nil] at member
      rw [(others _ (apart pair member)).2.2, forward]
      rfl
  · have distinct := order.distinct
    rw [List.map_append] at distinct
    exact (List.nodup_append.1 distinct).1
  · intro pair member
    rw [cnodeCount]
    exact order.known pair (List.mem_append_left _ member)
  · intro pair member
    rw [(others _ (apart pair member)).1, nodes _ (otherNode pair member)]
    exact order.attached pair (List.mem_append_left _ member)
  · intro other another holds
    by_cases same : other = node
    · rw [same, freed] at holds
      cases holds
    · rw [nodes other same] at holds
      have member := order.cached other another holds
      rw [List.mem_append, List.mem_singleton] at member
      refine member.resolve_right ?_
      intro equal
      cases equal
      exact same rfl
  · intro pair member
    rw [nodes _ (otherNode pair member)]
    exact order.loaded pair (List.mem_append_left _ member)

/-- A new pair comes to the front. -/
theorem push (order : LruOrder world pairs) (fresh : cid ∉ pairs.map Prod.fst)
    (free : ∀ other, (world.nodes node).cnode ≠ some other) (known : cid < later.cnodeCount)
    (head : later.head = some cid) (tail : later.tail = if world.head = none then some cid else world.tail)
    (num : later.num = world.num + 1) (bounded : world.num < world.max) (max : later.max = world.max)
    (cnodeCount : world.cnodeCount ≤ later.cnodeCount)
    (own : later.cnodes cid = ⟨some node, none, world.head⟩)
    (others : ∀ other, other ≠ cid → (later.cnodes other).kpn = (world.cnodes other).kpn ∧
      (later.cnodes other).prev = (if world.head = some other then some cid else (world.cnodes other).prev) ∧
      (later.cnodes other).next = (world.cnodes other).next)
    (nodes : ∀ other, other ≠ node → later.nodes other = world.nodes other)
    (held : (later.nodes node).cnode = some cid) (loaded : (later.nodes node).kp ≠ none) :
    LruOrder later ((cid, node) :: pairs) := by
  have apart : ∀ pair ∈ pairs, pair.1 ≠ cid := by
    rintro pair member rfl
    exact fresh (List.mem_map_of_mem member)
  have otherNode : ∀ pair ∈ pairs, pair.2 ≠ node := by
    rintro pair member rfl
    exact free _ (order.attached pair member).2
  refine ⟨head, ?_, ?_, ?_, ?_, by omega, ?_, ?_, ?_, ?_⟩
  · rw [tail, order.head, order.tail]
    cases pairs with
    | nil => rfl
    | cons start rest => simp
  · apply order.joined.pushFront order.distinct
    · rw [own]
    · rw [own, order.head, Option.or_none]
    · intro pair member
      rw [(others _ (apart pair member)).2.1, order.head]
    · intro pair member
      rw [(others _ (apart pair member)).2.2]
  · rw [List.map_cons, List.nodup_cons]
    exact ⟨fresh, order.distinct⟩
  · rw [num, order.num, List.length_cons]
  · intro pair member
    obtain rfl | member := List.mem_cons.1 member
    · exact known
    · exact (order.known pair member).trans_le cnodeCount
  · intro pair member
    obtain rfl | member := List.mem_cons.1 member
    · rw [own]
      exact ⟨rfl, held⟩
    · rw [(others _ (apart pair member)).1, nodes _ (otherNode pair member)]
      exact order.attached pair member
  · intro other another holds
    by_cases same : other = node
    · rw [same, held] at holds
      rw [same, ← Option.some.inj holds]
      exact List.mem_cons_self
    · rw [nodes other same] at holds
      exact List.mem_cons_of_mem _ (order.cached other another holds)
  · intro pair member
    obtain rfl | member := List.mem_cons.1 member
    · exact loaded
    · rw [nodes _ (otherNode pair member)]
      exact order.loaded pair member

/-- A pair that is not the last one comes to the front. -/
theorem moveFront (order : LruOrder world (first ++ (cid, node) :: last)) (behind : last ≠ [])
    (before : first ≠ []) (head : later.head = some cid) (tail : later.tail = world.tail)
    (num : later.num = world.num) (max : later.max = world.max) (cnodeCount : later.cnodeCount = world.cnodeCount)
    (kpn : ∀ other, (later.cnodes other).kpn = (world.cnodes other).kpn)
    (own : (later.cnodes cid).prev = none ∧ (later.cnodes cid).next = world.head)
    (prev : ∀ other, other ≠ cid → (later.cnodes other).prev =
      if world.head = some other then some cid
      else if (world.cnodes cid).next = some other then (world.cnodes cid).prev else (world.cnodes other).prev)
    (next : ∀ other, other ≠ cid → (later.cnodes other).next =
      if (world.cnodes cid).prev = some other then (world.cnodes cid).next else (world.cnodes other).next)
    (nodes : later.nodes = world.nodes) : LruOrder later ((cid, node) :: (first ++ last)) := by
  have apart := order.apart
  have around : (first ++ (cid, node) :: last).Perm ((cid, node) :: (first ++ last)) := List.perm_middle
  have start : world.head = (first ++ last).head?.map Prod.fst := by
    rw [order.head]
    cases first with
    | nil => exact absurd rfl before
    | cons one rest => rfl
  refine ⟨head, ?_, ?_, ?_, ?_, ?_, ?_, ?_, ?_, ?_⟩
  · rw [tail, order.tail]
    obtain ⟨end', final, rfl⟩ := List.eq_nil_or_concat last |>.resolve_left behind
    simp [List.getLast?_append, List.getLast?_cons]
  · apply order.joined.moveFront order.distinct (by simp) (by simp)
    · exact own.1
    · rw [own.2, start, Option.or_none]
    · intro pair member
      rw [prev _ (apart pair member), start]
    · intro pair member
      exact next _ (apart pair member)
  · exact (around.map Prod.fst).nodup_iff.1 order.distinct
  · rw [num, order.num, around.length_eq]
  · rw [num, max]
    exact order.bounded
  · intro pair member
    rw [cnodeCount]
    exact order.known pair (around.mem_iff.2 member)
  · intro pair member
    rw [kpn, nodes]
    exact order.attached pair (around.mem_iff.2 member)
  · intro other another holds
    rw [nodes] at holds
    exact around.mem_iff.1 (order.cached other another holds)
  · intro pair member
    rw [nodes]
    exact order.loaded pair (around.mem_iff.2 member)

end LruOrder

end SimpleNFast.Rdb
