import SimpleNFast.Proof.Rdb.ListSpecs

namespace SimpleNFast.Rdb
open Program LinkedList

/-- The last page that a pass went by, with its place in the pool. -/
def Behind (world : World) (chain : Chain) (list : List Nat) (ki : KeyInfo) : Nat → Prop
  | 0 => ki.lkp = none ∧ ki.lkpoff = none
  | place + 1 => ∃ item node addr, chain[place]? = some item ∧ list[place]? = some node ∧
      (world.nodes node).kp = some addr ∧ ki.lkp = some addr ∧ ki.lkpoff = some item.1

/-- A search found its key on a page of the chain. -/
structure Found (world : World) (chain : Chain) (list : List Nat) (key : Bytes) (ki : KeyInfo)
    (place node index : Nat) (item : Nat × KeyPage) : Prop where
  listed : list[place]? = some node
  there : chain[place]? = some item
  first : ∀ earlier other, earlier < place → chain[earlier]? = some other → other.2.get key = none
  hit : item.2.get key = some index
  ready : Ready world list
  kpn : ki.kpn = some node
  kidx : ki.kidx = some index
  voff : ki.voff = (item.2.krec (some index)).voff

/-- A search went by all pages of the chain. -/
structure Missing (world : World) (chain : Chain) (list : List Nat) (key : Bytes) (ki : KeyInfo) :
    Prop where
  all : ∀ item ∈ chain, item.2.get key = none
  length : list.length = chain.length
  ready : Ready world list
  behind : Behind world chain list ki chain.length

section Walk

variable {evicts : Prop} {allowed : Eviction → Prop} {accepted : Stop → Prop} {world : World} {chains : Nat → Chain}
  {lists : Nat → List Nat} {fails : Failures} {ki : KeyInfo} {post : Code × KeyInfo → World → Prop}

theorem Behind.kept {later : World} {chain : Chain} {list longer : List Nat} {place : Nat}
    (behind : Behind world chain list ki place) (grown : list <+: longer)
    (kept : ∀ node ∈ list, (later.nodes node).kp = (world.nodes node).kp) :
    Behind later chain longer ki place := by
  cases place with
  | zero => exact behind
  | succ place =>
      obtain ⟨item, node, addr, there, listed, loaded, page, offset⟩ := behind
      refine ⟨item, node, addr, there, ?_, ?_, page, offset⟩
      · obtain ⟨rest, rfl⟩ := grown
        rw [List.getElem?_append_left (List.getElem?_eq_some_iff.1 listed).1]
        exact listed
      · rw [kept node (List.mem_of_getElem? listed)]
        exact loaded

/-- The second loop reads the rest of the chain from the file until it finds the key. -/
theorem walkDisk_get {key : Bytes} {bucket place fuel : Nat} (hashed : ki.hash = bucket)
    (keyed : ki.key = key) (rep : Rep evicts world chains lists)
    (harmless : ∀ event, allowed event → evicts ∧ Harmless bucket event)
    (homes : ∀ other, ∀ item ∈ chains other, item.2.hash = other)
    (joined : Joined Prod.fst (fun item => item.2.poff) (fun item => item.2.noff) none none (chains bucket))
    (inside : bucket < world.htSize) (enough : (chains bucket).length < fuel + place)
    (ready : Ready world (lists bucket)) (here : place = (lists bucket).length)
    (before : ∀ earlier other, earlier < place → (chains bucket)[earlier]? = some other →
      other.2.get key = none)
    (behind : Behind world (chains bucket) (lists bucket) ki place)
    (found : ∀ later next info spot node index item, Rep evicts later chains next → MemoryOnly world later →
      Found later (chains bucket) (next bucket) key info spot node index item →
      info.key = key → info.hash = bucket → post (.E_ok, info) later)
    (missing : ∀ later next info, Rep evicts later chains next → MemoryOnly world later →
      Missing later (chains bucket) (next bucket) key info →
      info.key = key → info.hash = bucket → post (.E_not_found, info) later)
    (failed : ∀ later next info offset, fails (.readKeyPage offset) = true → Rep evicts later chains next →
      MemoryOnly world later → post (.E_read_failed, info) later) :
    Meets allowed accepted
      (walkDisk fails .GET fuel ki ((chains bucket)[place]?.map Prod.fst)) world post := by
  have reached := rep.short bucket
  induction fuel generalizing world lists ki place with
  | zero => omega
  | succ fuel later =>
      cases there : (chains bucket)[place]? with
      | none =>
          have ending := List.getElem?_eq_none_iff.1 there
          have length : (lists bucket).length = (chains bucket).length := by omega
          simp only [Option.map_none, walkDisk, meets_pure]
          apply missing world lists ki rep rfl _ keyed hashed
          refine ⟨?_, length, ready, ?_⟩
          · intro item member
            obtain ⟨spot, bound, same⟩ := List.mem_iff_getElem.1 member
            exact before spot item (by omega) (by rw [← same]; exact List.getElem?_eq_getElem bound)
          · rw [← length, ← here]
            exact behind
      | some item =>
          simp only [Option.map_some, walkDisk, meets_bind]
          have source : world.idx[item.1 / world.kpSize]? = some item.2 := by
            apply rep.stored bucket place item there
            intro node listed
            rw [here, List.getElem?_eq_none le_rfl] at listed
            cases listed
          apply get_meets rep harmless homes source
          · intro middle node addr cid middleRep only kept fresh known filled page
            simp only [ne_eq, not_true_eq_false, if_false, meets_bind, hashed]
            have middleReady : Ready middle (lists bucket) := by
              intro other member
              rw [(kept other member).1]
              exact ready other member
            refine addKeyPageNode_meets chains item middleRep middleReady (by rw [only.memory.htSize]; exact inside)
              fresh known filled page (fun _ _ => rfl) (fun _ _ => rfl) (by rw [← here]; exact there) ?_ ?_
            · intro spot entry beyond found
              apply middleRep.stored bucket spot entry found
              intro other listed
              rw [List.getElem?_eq_none (by omega)] at listed
              cases listed
            · intro after afterRep afterOnly pages kps
              have loaded : (after.nodes node).kp = some addr := by rw [kps, filled]
              have listed : (Function.update lists bucket (lists bucket ++ [node]) bucket)[place]? =
                  some node := by
                rw [Function.update_self, here]
                simp
              have afterReady : Ready after (Function.update lists bucket (lists bucket ++ [node]) bucket) := by
                rw [Function.update_self]
                intro other member
                rw [kps]
                rcases List.mem_append.1 member with old | new
                · exact middleReady other old
                · rw [List.mem_singleton.1 new, filled]
                  exact Option.some_ne_none addr
              simp only [pageOf, visit, meets_bind, meets_reads, loaded, meets_pure, pages, page, keyed]
              cases hit : item.2.get key with
              | some index =>
                  simp only [reduceCtorEq, if_false, meets_pure]
                  refine found after _ _ place node index item afterRep (only.memory.trans afterOnly) ?_
                    rfl hashed
                  exact ⟨listed, there, before, hit, afterReady, rfl, rfl, rfl⟩
              | none =>
                  simp only [if_true, meets_bind, meets_reads, pages, page, meets_pure]
                  have forward := joined.next_eq there
                  rw [Option.or_none] at forward
                  rw [forward]
                  refine later hashed rfl afterRep ?_ ?_ afterReady ?_ ?_ ?_ ?_ ?_ ?_ (afterRep.short bucket)
                  · rw [afterOnly.htSize, only.memory.htSize]
                    exact inside
                  · omega
                  · rw [Function.update_self, List.length_append, List.length_singleton, here]
                  · intro earlier other below found
                    by_cases last : earlier = place
                    · subst last
                      rw [there] at found
                      cases found
                      exact hit
                    · exact before earlier other (by omega) found
                  · exact ⟨item, node, addr, there, listed, loaded, rfl, rfl⟩
                  · intro final next info spot target index entry finalRep finalOnly
                    exact found final next info spot target index entry finalRep
                      (only.memory.trans (afterOnly.trans finalOnly))
                  · intro final next info finalRep finalOnly
                    exact missing final next info finalRep (only.memory.trans (afterOnly.trans finalOnly))
                  · intro final next info offset broken finalRep finalOnly
                    exact failed final next info offset broken finalRep
                      (only.memory.trans (afterOnly.trans finalOnly))
          · intro final node offset same broken finalRep only kept
            simp only [ne_eq, reduceCtorEq, not_false_eq_true, if_true, meets_pure]
            exact failed final lists ki offset broken finalRep only.memory

/-- One loaded node makes all nodes of its list loaded. -/
theorem Shows.ready {bucket node : Nat} (shows : Shows evicts world chains lists) (member : node ∈ lists bucket)
    (loaded : (world.nodes node).kp ≠ none) : Ready world (lists bucket) := by
  intro other inside unloaded
  have single := (shows.alone bucket other inside unloaded).2
  rw [single, List.mem_singleton] at member
  rw [member] at loaded
  exact loaded unloaded

/-- The node of a place is touched, and its page is loaded again when it was evicted. -/
theorem touch_load_meets {rest : Code → Call (Code × KeyInfo)} {bucket place node : Nat}
    {item : Nat × KeyPage} (rep : Rep evicts world chains lists)
    (harmless : ∀ event, allowed event → evicts ∧ Harmless bucket event)
    (homes : ∀ other, ∀ item ∈ chains other, item.2.hash = other)
    (listed : (lists bucket)[place]? = some node) (there : (chains bucket)[place]? = some item)
    (passed : 0 < place → Ready world (lists bucket))
    (behind : Behind world (chains bucket) (lists bucket) ki place)
    (ends : ∀ later addr, Rep evicts later chains lists → MemoryOnly world later →
      (later.nodes node).kp = some addr → Behind later (chains bucket) (lists bucket) ki place →
      Meets allowed accepted (rest .E_ok) later post)
    (failed : ∀ later, fails (.readKeyPage item.1) = true → Rep evicts later chains lists →
      MemoryOnly world later → Meets allowed accepted (rest .E_read_failed) later post) :
    Meets allowed accepted (LRUCache.touch node) world fun _ touched =>
      Meets allowed accepted
        (if (touched.nodes node).kp = none then LRUCache.update fails node (some item.1) >>= rest
          else pure .E_ok >>= rest) touched post := by
  have member := List.mem_of_getElem? listed
  apply touch_meets rep
  intro touched touchedRep touchedOnly nodes pages
  have touchedBehind : Behind touched (chains bucket) (lists bucket) ki place :=
    behind.kept List.prefix_rfl (fun _ _ => by rw [nodes])
  cases loaded : (touched.nodes node).kp with
  | some addr =>
      rw [if_neg (Option.some_ne_none addr), meets_bind]
      exact meets_pure.2 (ends touched addr touchedRep touchedOnly.memory loaded touchedBehind)
  | none =>
      have single := (touchedRep.alone bucket node member loaded).2
      have first : place = 0 := by
        have bound := (List.getElem?_eq_some_iff.1 listed).1
        rw [single] at bound
        simpa using bound
      subst first
      rw [if_pos rfl, meets_bind]
      refine update_meets touchedRep harmless homes member loaded
        (by rw [List.head?_eq_getElem?]; exact there) ?_ ?_
      · intro later laterRep only filled
        obtain ⟨addr, held⟩ := Option.ne_none_iff_exists'.1 filled
        exact ends later addr laterRep (touchedOnly.memory.trans only.memory) held behind
      · intro later broken laterRep only
        exact failed later broken laterRep (touchedOnly.memory.trans only.memory)

/-- The first loop follows the nodes in memory and loads an evicted page again. -/
theorem walkCached_get {key : Bytes} {bucket place fuel : Nat} (hashed : ki.hash = bucket)
    (keyed : ki.key = key) (rep : Rep evicts world chains lists)
    (harmless : ∀ event, allowed event → evicts ∧ Harmless bucket event)
    (homes : ∀ other, ∀ item ∈ chains other, item.2.hash = other)
    (joined : Joined Prod.fst (fun item => item.2.poff) (fun item => item.2.noff) none none (chains bucket))
    (inside : bucket < world.htSize) (enough : (chains bucket).length < fuel + place)
    (here : place ≤ (lists bucket).length) (passed : 0 < place → Ready world (lists bucket))
    (before : ∀ earlier other, earlier < place → (chains bucket)[earlier]? = some other →
      other.2.get key = none)
    (behind : Behind world (chains bucket) (lists bucket) ki place)
    (found : ∀ later next info spot node index item, Rep evicts later chains next → MemoryOnly world later →
      Found later (chains bucket) (next bucket) key info spot node index item →
      info.key = key → info.hash = bucket → post (.E_ok, info) later)
    (missing : ∀ later next info, Rep evicts later chains next → MemoryOnly world later →
      Missing later (chains bucket) (next bucket) key info →
      info.key = key → info.hash = bucket → post (.E_not_found, info) later)
    (failed : ∀ later next info offset, fails (.readKeyPage offset) = true → Rep evicts later chains next →
      MemoryOnly world later → post (.E_read_failed, info) later) :
    Meets allowed accepted
      (walkCached fails .GET fuel ki ((chains bucket)[place]?.map Prod.fst) (lists bucket)[place]?)
      world post := by
  have reached := rep.short bucket
  induction fuel generalizing world ki place with
  | zero => omega
  | succ fuel later =>
      cases listed : (lists bucket)[place]? with
      | none =>
          have ending : place = (lists bucket).length := by
            have bound := List.getElem?_eq_none_iff.1 listed
            omega
          have ready : Ready world (lists bucket) := by
            rcases Nat.eq_zero_or_pos place with first | some
            · rw [first] at ending
              rw [List.length_eq_zero_iff.1 ending.symm]
              simp [Ready]
            · exact passed some
          have disk : Meets allowed accepted
              (walkDisk fails .GET (fuel + 1) ki ((chains bucket)[place]?.map Prod.fst)) world post :=
            walkDisk_get hashed keyed rep harmless homes joined inside enough ready ending before behind
              found missing failed
          cases there : (chains bucket)[place]? with
          | none =>
              rw [there] at disk
              exact disk
          | some item =>
              rw [there] at disk
              exact disk
      | some node =>
          have member := List.mem_of_getElem? listed
          have bound := (List.getElem?_eq_some_iff.1 listed).1
          have there : (chains bucket)[place]? = some (chains bucket)[place] :=
            List.getElem?_eq_getElem (by omega)
          generalize (chains bucket)[place] = item at there
          rw [there, Option.map_some]
          simp only [walkCached, meets_bind, meets_reads]
          refine touch_load_meets rep harmless homes listed there passed behind ?_ ?_
          · intro middle addr middleRep only loaded middleBehind
            have ready := middleRep.toShows.ready member (by rw [loaded]; exact Option.some_ne_none addr)
            have page := (middleRep.cached bucket place node item addr listed there loaded).2
            simp only [pageOf, visit, meets_bind, meets_reads, loaded, meets_pure, page, keyed, ne_eq,
              not_true_eq_false, if_false]
            cases hit : item.2.get key with
            | some index =>
                simp only [reduceCtorEq, if_false, meets_pure]
                refine found middle lists _ place node index item middleRep only ?_ rfl hashed
                exact ⟨listed, there, before, hit, ready, rfl, rfl, rfl⟩
            | none =>
                simp only [if_true, meets_bind, meets_reads, page, meets_pure]
                have forward := joined.next_eq there
                have next := (middleRep.buckets.joined bucket).next_eq listed
                rw [Option.or_none] at forward
                rw [Option.or_none, Option.map_id, id_eq] at next
                rw [forward, next]
                refine later hashed rfl middleRep ?_ ?_ bound (fun _ => ready) ?_ ?_ ?_ ?_ ?_
                · rw [only.htSize]
                  exact inside
                · omega
                · intro earlier other below found
                  by_cases last : earlier = place
                  · subst last
                    rw [there] at found
                    cases found
                    exact hit
                  · exact before earlier other (by omega) found
                · exact ⟨item, node, addr, there, listed, loaded, rfl, rfl⟩
                · intro final next info spot target index entry finalRep finalOnly
                  exact found final next info spot target index entry finalRep (only.trans finalOnly)
                · intro final next info finalRep finalOnly
                  exact missing final next info finalRep (only.trans finalOnly)
                · intro final next info offset broken finalRep finalOnly
                  exact failed final next info offset broken finalRep (only.trans finalOnly)
          · intro middle broken middleRep only
            simp only [ne_eq, reduceCtorEq, not_false_eq_true, if_true, meets_pure]
            exact failed middle lists ki item.1 broken middleRep only

/-- The first pass of every operation over a bucket. -/
theorem processKeyPages_get {key : Bytes} {bucket : Nat} (rep : Rep evicts world chains lists)
    (harmless : ∀ event, allowed event → evicts ∧ Harmless bucket event)
    (homes : ∀ other, ∀ item ∈ chains other, item.2.hash = other)
    (joined : Joined Prod.fst (fun item => item.2.poff) (fun item => item.2.noff) none none (chains bucket))
    (inside : bucket < world.htSize) (bounded : (chains bucket).length ≤ world.idx.length)
    (found : ∀ later next info spot node index item, Rep evicts later chains next → MemoryOnly world later →
      Found later (chains bucket) (next bucket) key info spot node index item →
      info.key = key → info.hash = bucket → post (.E_ok, info) later)
    (missing : ∀ later next info, Rep evicts later chains next → MemoryOnly world later →
      Missing later (chains bucket) (next bucket) key info →
      info.key = key → info.hash = bucket → post (.E_not_found, info) later)
    (failed : ∀ later next info offset, fails (.readKeyPage offset) = true → Rep evicts later chains next →
      MemoryOnly world later → post (.E_read_failed, info) later) :
    Meets allowed accepted (processKeyPages fails .GET (KeyInfo.init key bucket)) world post := by
  have start : (world.entries bucket).offset = (chains bucket)[0]?.map Prod.fst := by
    rw [rep.offset, List.head?_eq_getElem?]
  have top : (world.entries bucket).head = (lists bucket)[0]? := by
    rw [rep.buckets.head, List.head?_eq_getElem?]
  simp only [processKeyPages, HashTable.getOffset, HashTable.getKeyPageNodeList, HashTable.getEntry,
    assert, meets_bind, meets_reads, meets_requires, meets_pure, KeyInfo.init, inside, decide_true, if_true,
    start, top]
  refine walkCached_get rfl rfl rep harmless homes joined inside ?_ (Nat.zero_le _) (by simp) ?_ ⟨rfl, rfl⟩
    found missing failed
  · rw [walkBound]
    omega
  · intro earlier other below
    omega

end Walk

end SimpleNFast.Rdb
