import SimpleNFast.Proof.Rdb.WalkGet

namespace SimpleNFast.Rdb
open Program LinkedList

/-- No two pages of the chains have the same place in the file. -/
def Separate (kpSize : Nat) (chains : Nat → Chain) : Prop :=
  ∀ (bucket other place spot : Nat) (item entry : Nat × KeyPage), (chains bucket)[place]? = some item →
    (chains other)[spot]? = some entry → item.1 / kpSize = entry.1 / kpSize →
    bucket = other ∧ place = spot

section Change

variable {evicts : Prop} {world : World} {chains : Nat → Chain} {lists : Nat → List Nat} {bucket place node addr : Nat}
  {item : Nat × KeyPage}

theorem replaced_get (entry : Nat × KeyPage) (other spot : Nat) :
    (replaced chains bucket place entry other)[spot]? =
      if other = bucket ∧ spot = place ∧ spot < (chains bucket).length then some entry
      else (chains other)[spot]? := by
  by_cases here : other = bucket
  · subst here
    rw [replaced, Function.update_self, List.getElem?_set]
    by_cases same : place = spot
    · subst same
      by_cases bound : place < (chains other).length
      · simp [bound]
      · simp [bound]
    · simp [same, Ne.symm same]
  · rw [replaced, Function.update_of_ne here]
    simp [here]

/-- The page of a loaded node changes in memory. -/
theorem Rep.setPage (rep : Rep evicts world chains lists) (listed : (lists bucket)[place]? = some node)
    (there : (chains bucket)[place]? = some item) (loaded : (world.nodes node).kp = some addr)
    (page : KeyPage) :
    Rep evicts { world with pages := Function.update world.pages addr page }
      (replaced chains bucket place (item.1, page)) lists where
  buckets := rep.buckets.congr rfl le_rfl (fun _ _ _ => ⟨rfl, rfl⟩)
  short other := by
    by_cases here : other = bucket
    · subst here
      rw [replaced, Function.update_self, List.length_set]
      exact rep.short other
    · rw [replaced, Function.update_of_ne here]
      exact rep.short other
  cached other spot another entry home here found held := by
    rw [replaced_get] at found
    split at found
    · rename_i own
      obtain ⟨rfl, rfl, -⟩ := own
      cases found
      rw [listed] at here
      cases here
      rw [loaded] at held
      cases held
      exact ⟨(rep.cached other spot node item addr listed there loaded).1, Function.update_self _ _ _⟩
    · rename_i foreign
      have old := rep.cached other spot another entry home here found held
      refine ⟨old.1, ?_⟩
      show Function.update world.pages addr page home = entry.2
      rw [Function.update_of_ne, old.2]
      rintro rfl
      apply foreign
      obtain ⟨lru, cache, pool⟩ := rep.cache
      obtain ⟨first, firstIn, -⟩ := cache.cached loaded
      obtain ⟨second, secondIn, -⟩ := cache.cached held
      have same := List.inj_on_of_nodup_map (Multiset.coe_nodup.1 pool.nodup) firstIn secondIn rfl
      have nodes : node = another := congrArg Cached.node same
      subst nodes
      have buckets := rep.buckets.apart other bucket node (List.mem_of_getElem? here)
        (List.mem_of_getElem? listed)
      subst buckets
      refine ⟨rfl, ?_, (List.getElem?_eq_some_iff.1 found).1⟩
      exact (List.Nodup.getElem_inj_iff (rep.buckets.distinct other)).1
        ((List.getElem?_eq_some_iff.1 here).2.trans (List.getElem?_eq_some_iff.1 listed).2.symm)
  stored other spot entry found free := by
    rw [replaced_get] at found
    split at found
    · rename_i own
      obtain ⟨rfl, rfl, -⟩ := own
      have empty := free node listed
      rw [loaded] at empty
      cases empty
    · exact rep.stored other spot entry found free
  alone := rep.alone
  offset other := by
    rw [List.head?_eq_getElem?, replaced_get]
    split
    · rename_i own
      obtain ⟨rfl, rfl, -⟩ := own
      rw [rep.offset, List.head?_eq_getElem?, there]
      rfl
    · rw [rep.offset, List.head?_eq_getElem?]
  cache := by
    obtain ⟨lru, cache, pool⟩ := rep.cache
    exact ⟨lru, { cache with }, pool.congr rfl rfl rfl rfl rfl⟩

/-- The file changes under pages that are loaded. -/
theorem Rep.writeIdx {idx : List KeyPage} (rep : Rep evicts world chains lists)
    (same : ∀ (other spot : Nat) (entry : Nat × KeyPage), (chains other)[spot]? = some entry →
      (∃ another, (lists other)[spot]? = some another ∧ (world.nodes another).kp ≠ none) ∨
        idx[entry.1 / world.kpSize]? = world.idx[entry.1 / world.kpSize]?) :
    Rep evicts { world with idx := idx } chains lists where
  buckets := { rep.buckets with }
  short := rep.short
  cached := rep.cached
  stored other spot entry found free := by
    rcases same other spot entry found with ⟨another, listed, loaded⟩ | equal
    · exact absurd (free another listed) loaded
    · show idx[entry.1 / world.kpSize]? = some entry.2
      rw [equal]
      exact rep.stored other spot entry found free
  alone := rep.alone
  offset := rep.offset
  cache := by
    obtain ⟨lru, cache, pool⟩ := rep.cache
    exact ⟨lru, { cache with }, pool.congr rfl rfl rfl rfl rfl⟩

/-- A loaded page is written to its place. -/
theorem Rep.writeOwn {idx : List KeyPage} (rep : Rep evicts world chains lists)
    (separate : Separate world.kpSize chains) (listed : (lists bucket)[place]? = some node)
    (there : (chains bucket)[place]? = some item) (loaded : (world.nodes node).kp = some addr)
    (same : ∀ spot, spot ≠ item.1 / world.kpSize → idx[spot]? = world.idx[spot]?) :
    Rep evicts { world with idx := idx } chains lists := by
  apply rep.writeIdx
  intro other spot entry found
  by_cases own : entry.1 / world.kpSize = item.1 / world.kpSize
  · obtain ⟨rfl, rfl⟩ := separate other bucket spot place entry item found there own
    left
    exact ⟨node, listed, by rw [loaded]; exact Option.some_ne_none addr⟩
  · right
    exact same _ own

end Change

theorem stripped_get (key : Bytes) (chain : Chain) (count place : Nat) :
    (stripped key chain count)[place]? =
      chain[place]?.map fun item => if place < count then strip key item else item := by
  rw [stripped, List.getElem?_mapIdx]

theorem stripped_zero (key : Bytes) (chain : Chain) : stripped key chain 0 = chain := by
  apply List.ext_getElem?
  intro place
  rw [stripped_get]
  simp

theorem stripped_succ (key : Bytes) {chain : Chain} {place : Nat} {item : Nat × KeyPage}
    (there : chain[place]? = some item) :
    (stripped key chain place).set place (strip key item) = stripped key chain (place + 1) := by
  apply List.ext_getElem?
  intro spot
  rw [List.getElem?_set, stripped_get, stripped_get]
  by_cases same : place = spot
  · subst same
    obtain ⟨bound, rfl⟩ := List.getElem?_eq_some_iff.1 there
    simp [stripped, bound]
  · rw [if_neg same]
    have order : spot < place ↔ spot < place + 1 := by omega
    simp only [order]

/-- The page counts fewer records than it has. -/
def Roomy (kpSize : Nat) (page : KeyPage) : Prop := page.vcount < numOfKeysInPage kpSize

section Pass

variable {evicts : Prop} {allowed : Eviction → Prop} {accepted : Stop → Prop} {world : World} {chains : Nat → Chain}
  {lists : Nat → List Nat} {fails : Failures} {ki : KeyInfo} {post : Code × KeyInfo → World → Prop}

/-- The removal pass strips the pages before the one that has the key. -/
theorem walkCached_del {key : Bytes} {bucket place target index fuel : Nat} {item : Nat × KeyPage}
    (keyed : ki.key = key)
    (rep : Rep evicts world (Function.update chains bucket (stripped key (chains bucket) place)) lists)
    (joined : Joined Prod.fst (fun item => item.2.poff) (fun item => item.2.noff) none none (chains bucket))
    (header : ∀ other ∈ chains bucket, (other.2.remove key).1.noff = other.2.noff)
    (enough : target < fuel + place) (ready : Ready world (lists bucket)) (ahead : place ≤ target)
    (reached : target < (lists bucket).length) (there : (chains bucket)[target]? = some item)
    (before : ∀ earlier other, earlier < target → (chains bucket)[earlier]? = some other →
      (other.2.remove key).2 = none)
    (hit : (item.2.remove key).2 = some index)
    (written : ∀ later info node addr, 0 < (item.2.remove key).1.vcount →
      Rep evicts later (Function.update chains bucket (stripped key (chains bucket) (target + 1))) lists →
      MemoryOnly world later → Ready later (lists bucket) → (lists bucket)[target]? = some node →
      (later.nodes node).kp = some addr → info.kpn = some node → info.kidx = some index →
      Meets allowed accepted (KeyFile.write fails item.1 (item.2.remove key).1) later
        fun retval final => post (retval, info) final)
    (emptied : ∀ later info node addr, ¬ 0 < (item.2.remove key).1.vcount →
      Rep evicts later (Function.update chains bucket (stripped key (chains bucket) (target + 1))) lists →
      MemoryOnly world later → Ready later (lists bucket) → (lists bucket)[target]? = some node →
      (later.nodes node).kp = some addr → info.kpn = some node → info.kidx = some index →
      post (.E_ok, info) later) :
    Meets allowed accepted
      (walkCached fails .DEL fuel ki ((chains bucket)[place]?.map Prod.fst) (lists bucket)[place]?)
      world post := by
  induction fuel generalizing world ki place with
  | zero => omega
  | succ fuel later =>
      have bound : place < (lists bucket).length := by omega
      have listed : (lists bucket)[place]? = some (lists bucket)[place] := List.getElem?_eq_getElem bound
      generalize (lists bucket)[place] = node at listed
      have inside : place < (chains bucket).length := by
        have target := (List.getElem?_eq_some_iff.1 there).1
        omega
      have here : (chains bucket)[place]? = some (chains bucket)[place] := List.getElem?_eq_getElem inside
      have member : (chains bucket)[place] ∈ chains bucket := List.getElem_mem inside
      generalize (chains bucket)[place] = entry at here member
      rw [listed, here, Option.map_some]
      simp only [walkCached, meets_bind, meets_reads]
      apply touch_meets rep
      intro touched touchedRep touchedOnly nodes pages
      have touchedReady : Ready touched (lists bucket) := by
        intro other inside
        rw [nodes]
        exact ready other inside
      obtain ⟨addr, loaded⟩ := Option.ne_none_iff_exists'.1 (touchedReady node (List.mem_of_getElem? listed))
      have shown : (Function.update chains bucket (stripped key (chains bucket) place) bucket)[place]? =
          some entry := by
        rw [Function.update_self, stripped_get, here]
        simp
      have page := (touchedRep.cached bucket place node entry addr listed shown loaded).2
      have change := touchedRep.setPage listed shown loaded (entry.2.remove key).1
      have chain : replaced (Function.update chains bucket (stripped key (chains bucket) place)) bucket place
          (entry.1, (entry.2.remove key).1) =
          Function.update chains bucket (stripped key (chains bucket) (place + 1)) := by
        rw [replaced, Function.update_self, Function.update_idem]
        congr 1
        exact stripped_succ key here
      rw [chain] at change
      simp only [loaded, reduceCtorEq, if_false, meets_bind, meets_pure, ne_eq, not_true_eq_false, pageOf,
        visit, setPage, meets_reads, meets_modifies, page, keyed]
      rcases Nat.lt_or_eq_of_le ahead with below | same
      · have none := before place entry below here
        simp only [none, if_true, meets_pure, Function.update_self, meets_bind, meets_reads]
        have forward := joined.next_eq here
        have next := (touchedRep.buckets.joined bucket).next_eq listed
        rw [Option.or_none] at forward
        rw [Option.or_none, Option.map_id, id_eq] at next
        rw [header entry member, forward, next]
        refine later rfl change (by omega) touchedReady (by omega) ?_ ?_
        · intro final info spot home some finalRep only
          exact written final info spot home some finalRep (touchedOnly.memory.trans only)
        · intro final info spot home empty finalRep only
          exact emptied final info spot home empty finalRep (touchedOnly.memory.trans only)
      · subst same
        rw [there] at here
        cases here
        simp only [hit, reduceCtorEq, if_false]
        split
        · rename_i some
          simp only [meets_bind, meets_pure]
          exact written _ _ node addr some change (touchedOnly.memory.trans rfl) touchedReady listed loaded rfl
            rfl
        · rename_i empty
          simp only [meets_bind, meets_pure]
          exact emptied _ _ node addr empty change (touchedOnly.memory.trans rfl) touchedReady listed loaded
            rfl rfl

/-- The insertion pass stops at the first page with room, or goes by all pages. -/
theorem walkCached_set {key : Bytes} {voff : Off} {bucket place fuel : Nat} (keyed : ki.key = key)
    (valued : ki.voff = voff) (hashed : ki.hash = bucket) (rep : Rep evicts world chains lists)
    (joined : Joined Prod.fst (fun item => item.2.poff) (fun item => item.2.noff) none none (chains bucket))
    (places : ∀ item ∈ chains bucket, Roomy world.kpSize item.2 →
      (item.2.put key voff).2 ≠ none)
    (enough : (chains bucket).length < fuel + place) (ready : Ready world (lists bucket))
    (here : place ≤ (chains bucket).length) (cover : (lists bucket).length = (chains bucket).length)
    (before : ∀ earlier other, earlier < place → (chains bucket)[earlier]? = some other →
      ¬ Roomy world.kpSize other.2)
    (behind : place = (chains bucket).length → Behind world (chains bucket) (lists bucket) ki place)
    (placed : ∀ later info target item index node addr, (chains bucket)[target]? = some item →
      (∀ earlier other, earlier < target → (chains bucket)[earlier]? = some other →
        ¬ Roomy world.kpSize other.2) →
      Roomy world.kpSize item.2 → (item.2.put key voff).2 = some index →
      Rep evicts later (replaced chains bucket target (item.1, (item.2.put key voff).1)) lists →
      MemoryOnly world later → Ready later (lists bucket) → (lists bucket)[target]? = some node →
      (later.nodes node).kp = some addr →
      Meets allowed accepted (KeyFile.write fails item.1 (item.2.put key voff).1) later
        fun retval final => post (retval, info) final)
    (full : ∀ later info, Rep evicts later chains lists → MemoryOnly world later → Ready later (lists bucket) →
      (∀ (earlier : Nat) (other : Nat × KeyPage), (chains bucket)[earlier]? = some other →
        ¬ Roomy world.kpSize other.2) →
      Behind later (chains bucket) (lists bucket) info (chains bucket).length → info.key = key →
      info.voff = voff → info.hash = bucket → post (.E_not_found, info) later) :
    Meets allowed accepted
      (walkCached fails .SET fuel ki ((chains bucket)[place]?.map Prod.fst) (lists bucket)[place]?)
      world post := by
  induction fuel generalizing world ki place with
  | zero => omega
  | succ fuel later =>
      rcases Nat.lt_or_eq_of_le here with inside | ending
      · have listed : (lists bucket)[place]? = some (lists bucket)[place] :=
          List.getElem?_eq_getElem (by omega)
        generalize (lists bucket)[place] = node at listed
        have there : (chains bucket)[place]? = some (chains bucket)[place] :=
          List.getElem?_eq_getElem inside
        have member : (chains bucket)[place] ∈ chains bucket := List.getElem_mem inside
        generalize (chains bucket)[place] = item at there member
        rw [listed, there, Option.map_some]
        simp only [walkCached, meets_bind, meets_reads]
        apply touch_meets rep
        intro touched touchedRep touchedOnly nodes pages
        have touchedReady : Ready touched (lists bucket) := by
          intro other inside
          rw [nodes]
          exact ready other inside
        obtain ⟨addr, loaded⟩ :=
          Option.ne_none_iff_exists'.1 (touchedReady node (List.mem_of_getElem? listed))
        have page := (touchedRep.cached bucket place node item addr listed there loaded).2
        have size : touched.kpSize = world.kpSize := touchedOnly.kpSize
        simp only [loaded, reduceCtorEq, if_false, meets_bind, meets_pure, ne_eq, not_true_eq_false, pageOf,
          visit, meets_reads, page, keyed, valued, size]
        by_cases room : Roomy world.kpSize item.2
        · obtain ⟨index, spot⟩ := Option.ne_none_iff_exists'.1 (places item member room)
          have less : item.2.vcount < numOfKeysInPage world.kpSize := room
          simp only [less, if_true, setPage, meets_bind, meets_modifies, spot, reduceCtorEq, if_false,
            meets_pure]
          exact placed _ _ place item index node addr there before room spot
            (touchedRep.setPage listed there loaded _) (touchedOnly.memory.trans rfl) touchedReady listed loaded
        · have more : ¬ item.2.vcount < numOfKeysInPage world.kpSize := room
          simp only [more, if_false, meets_pure, meets_bind, meets_reads, page]
          have forward := joined.next_eq there
          have next := (touchedRep.buckets.joined bucket).next_eq listed
          rw [Option.or_none] at forward
          rw [Option.or_none, Option.map_id, id_eq] at next
          rw [forward, next]
          have passed : ∀ earlier other, earlier < place + 1 → (chains bucket)[earlier]? = some other →
              ¬ Roomy world.kpSize other.2 := by
            intro earlier other below found
            by_cases last : earlier = place
            · subst last
              rw [there] at found
              cases found
              exact room
            · exact before earlier other (by omega) found
          refine later keyed valued hashed touchedRep ?_ (by omega) touchedReady inside ?_ ?_ ?_ ?_
          · rw [size]
            exact places
          · rw [size]
            exact passed
          · intro _
            exact ⟨item, node, addr, there, listed, loaded, rfl, rfl⟩
          · intro final info target entry index spot home
            rw [size]
            intro found earlier some put finalRep only
            exact placed final info target entry index spot home found earlier some put finalRep
              (touchedOnly.memory.trans only)
          · intro final info finalRep only
            rw [size]
            exact full final info finalRep (touchedOnly.memory.trans only)
      · have past : (chains bucket)[place]? = none := List.getElem?_eq_none (by omega)
        have absent : (lists bucket)[place]? = none := List.getElem?_eq_none (by omega)
        rw [past, absent, Option.map_none]
        simp only [walkCached, walkDisk, meets_pure]
        refine full world ki rep rfl ready ?_ ?_ keyed valued hashed
        · intro earlier other found
          exact before earlier other (by have bound := (List.getElem?_eq_some_iff.1 found).1; omega) found
        · rw [← ending]
          exact behind ending

end Pass

end SimpleNFast.Rdb
