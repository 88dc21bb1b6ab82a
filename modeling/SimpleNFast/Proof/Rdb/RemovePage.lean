import SimpleNFast.Proof.Rdb.SetCall

namespace SimpleNFast.Rdb
open Program LinkedList

section Patch

variable {evicts : Prop} {world : World} {chains : Nat → Chain} {lists : Nat → List Nat}
  {bucket place node addr : Nat} {item : Nat × KeyPage}

/-- Pages at the same offsets are apart as well. -/
theorem Separate.congr {kpSize : Nat} {fresh : Nat → Chain} (separate : Separate kpSize chains)
    (same : ∀ other, (fresh other).map Prod.fst = (chains other).map Prod.fst) : Separate kpSize fresh := by
  have old : ∀ (other spot : Nat) (entry : Nat × KeyPage), (fresh other)[spot]? = some entry →
      ∃ before : Nat × KeyPage, (chains other)[spot]? = some before ∧ before.1 = entry.1 := by
    intro other spot entry found
    have mapped : ((chains other).map Prod.fst)[spot]? = some entry.1 := by
      rw [← same, List.getElem?_map, found, Option.map_some]
    rw [List.getElem?_map] at mapped
    exact Option.map_eq_some_iff.1 mapped
  intro one two first second item entry here found equal
  obtain ⟨before, was, sameBefore⟩ := old one first item here
  obtain ⟨after, wasAfter, sameAfter⟩ := old two second entry found
  exact separate one two first second before after was wasAfter (by rw [sameBefore, sameAfter, equal])

theorem offsets_replaced (there : (chains bucket)[place]? = some item) (page : KeyPage) (other : Nat) :
    (replaced chains bucket place (item.1, page) other).map Prod.fst = (chains other).map Prod.fst := by
  by_cases here : other = bucket
  · subst here
    obtain ⟨inside, rfl⟩ := List.getElem?_eq_some_iff.1 there
    rw [replaced, Function.update_self, List.map_set]
    have mapped := congrArg (List.map Prod.fst) (List.set_getElem_self inside)
    rwa [List.map_set] at mapped
  · rw [replaced, Function.update_of_ne here]

/-- A loaded page changes in memory and in the file. -/
theorem Rep.patchOwn (rep : Rep evicts world chains lists) (inMemory inFile : KeyPage → KeyPage)
    (separate : Separate world.kpSize chains) (listed : (lists bucket)[place]? = some node)
    (there : (chains bucket)[place]? = some item) (loaded : (world.nodes node).kp = some addr) :
    Rep evicts (KeyFile.patchPage addr inMemory (KeyFile.patch item.1 inFile world))
      (Rdb.replaced chains bucket place (item.1, inMemory item.2)) lists := by
  have page := (rep.cached bucket place node item addr listed there loaded).2
  have written : Rep evicts
      { world with idx := world.idx.modify (item.1 / world.kpSize) inFile } chains lists := by
    apply rep.writeOwn separate listed there loaded
    intro spot differs
    exact List.getElem?_modify_ne _ _ (Ne.symm differs)
  have changed := written.setPage listed there loaded (inMemory item.2)
  rw [KeyFile.patchPage, KeyFile.patch, page]
  exact changed

end Patch

/-- The neighbour of a page that has the given offset, with its place in the pool. -/
def Beside (world : World) (chain : Chain) (list : List Nat) (offset : Off) (found : Option (Nat × Nat)) : Prop :=
  (offset = none ∧ found = none) ∨ ∃ (spot : Nat) (item : Nat × KeyPage) (node addr : Nat),
    chain[spot]? = some item ∧ list[spot]? = some node ∧ (world.nodes node).kp = some addr ∧
      offset = some item.1 ∧ found = some (item.1, addr)

/-- The change of a neighbour in memory and in the file. -/
def patchFound (found : Option (Nat × Nat)) (change : KeyPage → KeyPage) (world : World) : World :=
  match found with
  | none => world
  | some (place, addr) => KeyFile.patchPage addr change (KeyFile.patch place change world)

/-- The page with an offset changes. -/
def changeNamed (offset : Off) (change : KeyPage → KeyPage) (item : Nat × KeyPage) : Nat × KeyPage :=
  (item.1, if offset = some item.1 then change item.2 else item.2)

section Found

variable {evicts : Prop} {world : World} {chains : Nat → Chain} {lists : Nat → List Nat} {bucket : Nat}
  {offset : Off} {found : Option (Nat × Nat)} {change : KeyPage → KeyPage}

@[simp] theorem patchFound_nodes : (patchFound found change world).nodes = world.nodes := by
  cases found <;> rfl

@[simp] theorem patchFound_kpSize : (patchFound found change world).kpSize = world.kpSize := by
  cases found <;> rfl

/-- Only one page of a chain has a given offset. -/
theorem map_changeNamed {chain : Chain} {spot : Nat} {item : Nat × KeyPage}
    (distinct : (chain.map Prod.fst).Nodup) (there : chain[spot]? = some item) :
    chain.map (changeNamed (some item.1) change) = chain.set spot (item.1, change item.2) := by
  apply List.ext_getElem?
  intro other
  rw [List.getElem?_map, List.getElem?_set]
  by_cases same : spot = other
  · subst same
    rw [if_pos rfl, if_pos (List.getElem?_eq_some_iff.1 there).1, there, Option.map_some, changeNamed, if_pos rfl]
  · rw [if_neg same]
    cases here : chain[other]? with
    | none => rfl
    | some entry =>
        rw [Option.map_some, changeNamed, if_neg]
        intro equal
        apply same
        have inside := (List.getElem?_eq_some_iff.1 there).1
        have mapped : (chain.map Prod.fst)[spot]? = (chain.map Prod.fst)[other]? := by
          rw [List.getElem?_map, List.getElem?_map, there, here, Option.map_some, Option.map_some,
            Option.some.inj equal]
        exact (List.getElem?_inj (by simpa using inside) distinct).1 mapped

/-- A neighbour stays where the offsets and the nodes are the same. -/
theorem Beside.congr {later : World} {chain fresh : Chain} {list : List Nat}
    (beside : Beside world chain list offset found) (nodes : later.nodes = world.nodes)
    (same : fresh.map Prod.fst = chain.map Prod.fst) : Beside later fresh list offset found := by
  rcases beside with none | ⟨spot, item, node, addr, there, listed, loaded, rfl, rfl⟩
  · exact Or.inl none
  · right
    have mapped : (fresh.map Prod.fst)[spot]? = some item.1 := by
      rw [same, List.getElem?_map, there, Option.map_some]
    rw [List.getElem?_map] at mapped
    obtain ⟨entry, here, equal⟩ := Option.map_eq_some_iff.1 mapped
    refine ⟨spot, entry, node, addr, here, listed, ?_, by rw [equal], by rw [equal]⟩
    rw [nodes]
    exact loaded

theorem offsets_changeNamed (chain : Chain) : (chain.map (changeNamed offset change)).map Prod.fst =
    chain.map Prod.fst := by
  rw [List.map_map]
  rfl

theorem offsets_changed (other : Nat) :
    (Function.update chains bucket ((chains bucket).map (changeNamed offset change)) other).map Prod.fst =
      (chains other).map Prod.fst := by
  by_cases here : other = bucket
  · subst here
    rw [Function.update_self, offsets_changeNamed]
  · rw [Function.update_of_ne here]

/-- The memory shows the chain in which a neighbour has changed. -/
theorem Rep.patchFound (rep : Rep evicts world chains lists) (change : KeyPage → KeyPage)
    (separate : Separate world.kpSize chains) (distinct : ((chains bucket).map Prod.fst).Nodup)
    (beside : Beside world (chains bucket) (lists bucket) offset found) :
    Rep evicts (Rdb.patchFound found change world)
      (Function.update chains bucket ((chains bucket).map (changeNamed offset change))) lists := by
  rcases beside with ⟨rfl, rfl⟩ | ⟨spot, item, node, addr, there, listed, loaded, rfl, rfl⟩
  · have same : (chains bucket).map (changeNamed none change) = chains bucket := by
      calc (chains bucket).map (changeNamed none change) = (chains bucket).map id := rfl
        _ = chains bucket := List.map_id _
    rw [same, Function.update_eq_self]
    exact rep
  · rw [map_changeNamed distinct there]
    exact rep.patchOwn change change separate listed there loaded

end Found

/-- The operations on the key file that a removal makes after its search do not fail. -/
structure RemoveWorks (fails : Failures) : Prop where
  read : ∀ offset, fails (.readKeyPage offset) = false
  write : ∀ offset, fails (.writeKeyPage offset) = false
  flags : ∀ offset flags, fails (.writeKeyFlags offset flags) = false
  prev : ∀ offset other, fails (.writePrevOffset offset other) = false
  next : ∀ offset other, fails (.writeNextOffset offset other) = false

section Specs

variable {evicts : Prop} {allowed : Eviction → Prop} {accepted : Stop → Prop} {world : World}
  {chains : Nat → Chain} {lists : Nat → List Nat} {fails : Failures} {bucket place node : Nat}
  {item : Nat × KeyPage} {ustk : List UnwindBlock}

/-- The neighbours of a page are linked to each other. -/
theorem relink_meets {previous following : Option (Nat × Nat)} {prevOffset nextOffset : Off}
    {post : Code × List UnwindBlock → World → Prop} (works : RemoveWorks fails)
    (ends : ∀ ustk, post (.E_ok, ustk) (patchFound following (fun page => { page with poff := prevOffset })
      (patchFound previous (fun page => { page with noff := nextOffset }) world))) :
    Meets allowed accepted (relink fails previous following prevOffset nextOffset ustk) world post := by
  cases previous with
  | none =>
      cases following with
      | none =>
          simp only [relink, meets_bind, meets_pure]
          exact ends _
      | some after =>
          simp only [relink, KeyFile.writePrevOffset, meets_bind, meets_pure, meets_reads, meets_attempt,
            works.prev, ne_eq, not_true_eq_false, if_false, Bool.false_eq_true]
          exact ends _
  | some before =>
      cases following with
      | none =>
          simp only [relink, KeyFile.writeNextOffset, meets_bind, meets_pure, meets_reads, meets_attempt,
            works.next, if_false, Bool.false_eq_true]
          exact ends _
      | some after =>
          simp only [relink, KeyFile.writeNextOffset, KeyFile.writePrevOffset, meets_bind, meets_pure,
            meets_reads, meets_attempt, works.next, works.prev, ne_eq, not_true_eq_false, if_false,
            Bool.false_eq_true]
          exact ends _

/-- A neighbour is found with its page. -/
theorem neighbour_meets {offset : Off} {other : Option Nat} {chain : Chain} {list : List Nat}
    {post : Option (Nat × Nat) → World → Prop} (ready : Ready world list)
    (named : offset = none ∨ ∃ (spot : Nat) (item : Nat × KeyPage) (node : Nat), chain[spot]? = some item ∧
      list[spot]? = some node ∧ offset = some item.1 ∧ other = some node)
    (ends : ∀ found, Beside world chain list offset found → post found world) :
    Meets allowed accepted (neighbour offset other) world post := by
  rcases named with rfl | ⟨spot, item, node, there, listed, rfl, rfl⟩
  · simp only [neighbour, meets_pure]
    exact ends none (Or.inl ⟨rfl, rfl⟩)
  · obtain ⟨addr, loaded⟩ := Option.ne_none_iff_exists'.1 (ready node (List.mem_of_getElem? listed))
    simp only [neighbour, meets_bind, meets_reads, meets_pure, loaded, Option.map_some]
    exact ends _ (Or.inr ⟨spot, item, node, addr, there, listed, loaded, rfl, rfl⟩)

/-- The page after a page is loaded. -/
theorem loadNext_meets {post : Code × Option Nat → World → Prop} (rep : Rep evicts world chains lists)
    (harmless : ∀ event, allowed event → evicts ∧ Harmless bucket event)
    (homes : ∀ other, ∀ item ∈ chains other, item.2.hash = other)
    (joined : Joined Prod.fst (fun item => item.2.poff) (fun item => item.2.noff) none none (chains bucket))
    (inside : bucket < world.htSize) (ready : Ready world (lists bucket))
    (there : (chains bucket)[place]? = some item) (listed : (lists bucket)[place]? = some node)
    (works : RemoveWorks fails)
    (ends : ∀ later next, Rep evicts later chains next → MemoryOnly world later → Ready later (next bucket) →
      lists bucket <+: next bucket → (place + 1 < (chains bucket).length → place + 1 < (next bucket).length) →
      (∀ another ∈ lists bucket, (later.nodes another).kp = (world.nodes another).kp) →
      post (.E_ok, (next bucket)[place + 1]?) later) :
    Meets allowed accepted (loadNext fails bucket (lists bucket)[place + 1]? item.2.noff) world post := by
  have forward := joined.next_eq there
  rw [Option.or_none] at forward
  have bound := (List.getElem?_eq_some_iff.1 listed).1
  have short := rep.short bucket
  cases further : (lists bucket)[place + 1]? with
  | some other =>
      have reached := (List.getElem?_eq_some_iff.1 further).1
      have same : loadNext fails bucket (some other) item.2.noff = pure (.E_ok, some other) := by
        cases item.2.noff <;> rfl
      rw [same, meets_pure, ← further]
      exact ends world lists rep rfl ready (List.prefix_refl _) (fun _ => reached) (fun _ _ => rfl)
  | none =>
      have last : (lists bucket).length = place + 1 := by
        have ending := List.getElem?_eq_none_iff.1 further
        omega
      cases after : (chains bucket)[place + 1]? with
      | none =>
          have ending := List.getElem?_eq_none_iff.1 after
          rw [forward, after, Option.map_none]
          simp only [loadNext, meets_pure]
          rw [← further]
          exact ends world lists rep rfl ready (List.prefix_refl _) (fun more => by omega) (fun _ _ => rfl)
      | some entry =>
          rw [forward, after, Option.map_some]
          simp only [loadNext, meets_bind]
          have unlisted : ∀ (spot : Nat), place + 1 ≤ spot → (lists bucket)[spot]? = none := by
            intro spot beyond
            exact List.getElem?_eq_none (by omega)
          have source : world.idx[entry.1 / world.kpSize]? = some entry.2 := by
            apply rep.stored bucket (place + 1) entry after
            intro other here
            rw [unlisted _ le_rfl] at here
            cases here
          apply get_meets rep harmless homes source
          · intro middle fresh addr cid middleRep only kept outside known filled page
            have middleReady : Ready middle (lists bucket) := by
              intro other member
              rw [(kept other member).1]
              exact ready other member
            simp only [if_true, meets_bind]
            refine addKeyPageNode_meets chains entry middleRep middleReady
              (by rw [only.memory.htSize]; exact inside) outside known filled page (fun _ _ => rfl)
              (fun _ _ => rfl) (by rw [last]; exact after) ?_ ?_
            · intro spot another beyond found
              apply middleRep.stored bucket spot another found
              intro other here
              rw [unlisted spot (by omega)] at here
              cases here
            · intro final finalRep finalOnly pages kps
              have grown : Function.update lists bucket (lists bucket ++ [fresh]) bucket =
                  lists bucket ++ [fresh] := Function.update_self ..
              have top : (Function.update lists bucket (lists bucket ++ [fresh]) bucket)[place + 1]? =
                  some fresh := by
                rw [grown, ← last, List.getElem?_concat_length]
              rw [meets_pure, ← top]
              apply ends final _ finalRep (only.memory.trans finalOnly)
              · rw [grown]
                intro other member
                rw [kps]
                rcases List.mem_append.1 member with old | new
                · exact middleReady other old
                · rw [List.mem_singleton.1 new, filled]
                  exact Option.some_ne_none addr
              · rw [grown]
                exact List.prefix_append _ _
              · intro more
                rw [grown, List.length_append, List.length_singleton]
                omega
              · intro another member
                rw [kps, (kept another member).1]
          · intro middle fresh offset named broken
            rw [works.read] at broken
            cases broken

/-- The chain without a page whose neighbours have changed. -/
theorem bypass_eraseIdx (chain : Chain) (offset : Nat) (page flagged : KeyPage) :
    (((chain.set place (offset, flagged)).map
      (changeNamed page.poff fun other => { other with noff := page.noff })).map
      (changeNamed page.noff fun other => { other with poff := page.poff })).eraseIdx place =
      (chain.map (bypass page)).eraseIdx place := by
  have step : ∀ other : Nat × KeyPage, changeNamed page.noff (fun other => { other with poff := page.poff })
      (changeNamed page.poff (fun other => { other with noff := page.noff }) other) = bypass page other := by
    intro other
    simp only [changeNamed, bypass]
    split <;> split <;> rfl
  rw [List.map_map, List.eraseIdx_map, List.eraseIdx_set_eq, List.eraseIdx_map]
  exact List.map_congr_left fun other _ => step other

/-- The page before a page, with its node. -/
theorem chain_before {next : List Nat} (rep : Rep evicts world chains lists)
    (joined : Joined Prod.fst (fun item => item.2.poff) (fun item => item.2.noff) none none (chains bucket))
    (there : (chains bucket)[place]? = some item) (listed : (lists bucket)[place]? = some node)
    (grown : ∀ (spot another : Nat), (lists bucket)[spot]? = some another → next[spot]? = some another) :
    item.2.poff = none ∨ ∃ (spot : Nat) (item' : Nat × KeyPage) (another : Nat),
      (chains bucket)[spot]? = some item' ∧ next[spot]? = some another ∧ item.2.poff = some item'.1 ∧
        (world.nodes node).prev = some another := by
  cases place with
  | zero =>
      left
      exact joined.prev_head there
  | succ place =>
      right
      have bound := (List.getElem?_eq_some_iff.1 there).1
      have bound' := (List.getElem?_eq_some_iff.1 listed).1
      have entry := List.getElem?_eq_getElem (show place < (chains bucket).length by omega)
      have another := List.getElem?_eq_getElem (show place < (lists bucket).length by omega)
      have back := joined.prev_succ there
      have backNode := (rep.buckets.joined bucket).prev_succ listed
      rw [entry, Option.map_some] at back
      rw [another, Option.map_some, id_eq] at backNode
      exact ⟨place, _, _, entry, grown place _ another, back, backNode⟩

/-- The page after a page, with its node. -/
theorem chain_after {next : List Nat}
    (joined : Joined Prod.fst (fun item => item.2.poff) (fun item => item.2.noff) none none (chains bucket))
    (there : (chains bucket)[place]? = some item)
    (reached : place + 1 < (chains bucket).length → place + 1 < next.length) :
    item.2.noff = none ∨ ∃ (spot : Nat) (item' : Nat × KeyPage) (another : Nat),
      (chains bucket)[spot]? = some item' ∧ next[spot]? = some another ∧ item.2.noff = some item'.1 ∧
        next[place + 1]? = some another := by
  have forward := joined.next_eq there
  rw [Option.or_none] at forward
  cases after : (chains bucket)[place + 1]? with
  | none =>
      left
      rw [forward, after, Option.map_none]
  | some entry =>
      right
      have bound := reached (List.getElem?_eq_some_iff.1 after).1
      have another := List.getElem?_eq_getElem bound
      rw [after, Option.map_some] at forward
      exact ⟨place + 1, entry, _, after, another, forward, another⟩

/-- The file after the three writes of a removed page. -/
theorem unlink_idx {later : World} {list : List Nat} {addr : Nat} {previous following : Option (Nat × Nat)}
    (only : MemoryOnly world later) (back : Beside later (chains bucket) list item.2.poff previous)
    (ahead : Beside later (chains bucket) list item.2.noff following) :
    (patchFound following (fun page => { page with poff := item.2.poff })
      (patchFound previous (fun page => { page with noff := item.2.noff })
        (KeyFile.patchPage addr (fun page => { page with flags := pageDeleted })
          (KeyFile.patch item.1 (fun page => { page with flags := pageDeleted, vcount := 0 }) later)))).idx =
      ((world.store chains).unlink bucket place item).idx := by
  rcases back with ⟨poff, rfl⟩ | ⟨-, before, -, -, -, -, -, poff, rfl⟩
  all_goals
    rcases ahead with ⟨noff, rfl⟩ | ⟨-, after, -, -, -, -, -, noff, rfl⟩
    all_goals
      simp only [Store.unlink, Store.patched, poff, noff, patchFound, KeyFile.patchPage, KeyFile.patch,
        World.store, only.idx, only.kpSize]

theorem take_cons_drop {α : Type} {items : List α} {spot : Nat} {one : α} (here : items[spot]? = some one) :
    items = items.take spot ++ one :: items.drop (spot + 1) := by
  obtain ⟨inside, rfl⟩ := List.getElem?_eq_some_iff.1 here
  rw [List.getElem_cons_drop, List.take_append_drop]

/-- A page that lost its last key leaves the chain, the cache and the file. -/
theorem removePage_meets {addr : Nat} {post : Code × List UnwindBlock → World → Prop}
    (rep : Rep evicts world chains lists)
    (harmless : ∀ event, allowed event → evicts ∧ Harmless bucket event)
    (homes : ∀ other, ∀ item ∈ chains other, item.2.hash = other)
    (joined : Joined Prod.fst (fun item => item.2.poff) (fun item => item.2.noff) none none (chains bucket))
    (separate : Separate world.kpSize chains) (distinct : ((chains bucket).map Prod.fst).Nodup)
    (inside : bucket < world.htSize) (ready : Ready world (lists bucket))
    (there : (chains bucket)[place]? = some item) (listed : (lists bucket)[place]? = some node)
    (loaded : (world.nodes node).kp = some addr) (aligned : item.1 % world.kpSize = 0)
    (works : RemoveWorks fails)
    (ends : ∀ later next ustk, Rep evicts later ((world.store chains).unlink bucket place item).chains next →
      MemoryOnly { world with
        idx := ((world.store chains).unlink bucket place item).idx
        keyFdp := item.1 :: world.keyFdp } later → post (.E_ok, ustk) later) :
    Meets allowed accepted (removePage fails bucket node addr ustk) world post := by
  obtain ⟨kpoff, page⟩ := rep.cached bucket place node item addr listed there loaded
  have ahead := (rep.buckets.joined bucket).next_eq listed
  rw [Option.or_none, Option.map_id, id_eq] at ahead
  simp only [removePage, meets_bind, meets_reads, page, kpoff, ahead]
  apply loadNext_meets rep harmless homes joined inside ready there listed works
  intro later next laterRep only laterReady grown reached kps
  obtain ⟨rest, whole⟩ := grown
  have old : ∀ (spot another : Nat), (lists bucket)[spot]? = some another → (next bucket)[spot]? = some another := by
    intro spot another here
    rw [← whole, List.getElem?_append_left (List.getElem?_eq_some_iff.1 here).1, here]
  have nextListed := old place node listed
  have nextLoaded : (later.nodes node).kp = some addr := by
    rw [kps node (List.mem_of_getElem? listed), loaded]
  have size : later.kpSize = world.kpSize := only.kpSize
  have laterSeparate : Separate later.kpSize chains := by
    rw [size]
    exact separate
  simp only [ne_eq, not_true_eq_false, if_false, meets_bind]
  apply neighbour_meets laterReady (chain_before rep joined there listed old)
  intro previous back
  apply neighbour_meets laterReady (chain_after joined there reached)
  intro following ahead
  simp only [KeyFile.writeFlags, meets_attempt, works.flags, Bool.false_eq_true, if_false, not_true_eq_false,
    meets_bind]
  apply relink_meets works
  intro ustk
  simp only [not_true_eq_false, if_false, meets_bind, meets_reads]
  -- the page is flagged first, and its neighbours are linked in this order
  have flagged := laterRep.patchOwn (fun page => { page with flags := pageDeleted })
    (fun page => { page with flags := pageDeleted, vcount := 0 }) laterSeparate nextListed there nextLoaded
  have offsets := offsets_replaced there { item.2 with flags := pageDeleted }
  have separateFlagged := laterSeparate.congr offsets
  have forward := flagged.patchFound (fun page => { page with noff := item.2.noff }) separateFlagged
    (by rw [offsets]; exact distinct) (back.congr rfl (offsets bucket))
  have backward := forward.patchFound (fun page => { page with poff := item.2.poff })
    (by rw [patchFound_kpSize]; exact separateFlagged.congr offsets_changed)
    (by rw [offsets_changed, offsets]; exact distinct)
    (ahead.congr (by rw [patchFound_nodes]; rfl) (by rw [offsets_changed, offsets]))
  generalize final : patchFound following (fun page => { page with poff := item.2.poff })
    (patchFound previous (fun page => { page with noff := item.2.noff })
      (KeyFile.patchPage addr (fun page => { page with flags := pageDeleted })
        (KeyFile.patch item.1 (fun page => { page with flags := pageDeleted, vcount := 0 }) later))) = linked
    at backward
  have nodes : linked.nodes = later.nodes := by
    rw [← final, patchFound_nodes, patchFound_nodes]
    rfl
  have linkedSize : linked.kpSize = world.kpSize := by
    rw [← final, patchFound_kpSize, patchFound_kpSize, ← size]
    rfl
  have linkedPlace : (linked.nodes node).kpoff = some item.1 := by
    rw [nodes]
    exact (laterRep.cached bucket place node item addr nextListed there nextLoaded).1
  have idx : linked.idx = ((world.store chains).unlink bucket place item).idx := by
    rw [← final]
    exact unlink_idx only back ahead
  have linkedOnly : MemoryOnly { world with idx := linked.idx } linked := by
    rw [← final]
    cases previous <;> cases following
    all_goals
      unfold MemoryOnly
      rw [only]
      rfl
  have linkedReady : Ready linked (next bucket) := by
    intro another member
    rw [nodes]
    exact laterReady another member
  have short : place < (chains bucket).length := (List.getElem?_eq_some_iff.1 there).1
  have shortList : place < (next bucket).length := (List.getElem?_eq_some_iff.1 nextListed).1
  simp only [Function.update_self, Function.update_idem, replaced] at backward
  generalize changed : (((chains bucket).set place (item.1, { item.2 with flags := pageDeleted })).map
    (changeNamed item.2.poff fun page => { page with noff := item.2.noff })).map
    (changeNamed item.2.noff fun page => { page with poff := item.2.poff }) = fresh at backward
  have length : fresh.length = (chains bucket).length := by
    rw [← changed, List.length_map, List.length_map, List.length_set]
  have entry := List.getElem?_eq_getElem (show place < fresh.length by omega)
  have split := take_cons_drop nextListed
  simp only [linkedPlace]
  refine removeKeyPageNode_meets backward (by rw [linkedOnly.htSize]; exact inside) linkedReady split
    (by rw [Function.update_self]; exact take_cons_drop entry) ?_ ?_ ?_
  · rw [List.length_take, List.length_take]
    omega
  · intro more
    rw [ne_eq, List.drop_eq_nil_iff] at more ⊢
    have enough := reached (by omega)
    omega
  intro gone goneRep goneOnly gonePages goneKps
  have chained : Function.update (Function.update chains bucket fresh) bucket
      (fresh.take place ++ fresh.drop (place + 1)) = ((world.store chains).unlink bucket place item).chains := by
    rw [Function.update_idem, ← List.eraseIdx_eq_take_drop_succ, ← changed, bypass_eraseIdx]
    rfl
  have outside : ∀ other, node ∉ Function.update next bucket
      ((next bucket).take place ++ (next bucket).drop (place + 1)) other := by
    intro other
    by_cases here : other = bucket
    · subst here
      rw [Function.update_self]
      have whole := laterRep.buckets.distinct other
      rw [split] at whole
      exact (List.nodup_cons.1 (List.perm_middle.nodup_iff.1 whole)).1
    · rw [Function.update_of_ne here]
      intro member
      exact here (laterRep.buckets.apart other bucket node member (List.mem_of_getElem? nextListed))
  rw [chained] at goneRep
  apply free_meets goneRep (by rw [goneKps, nodes]; exact nextLoaded) outside
  intro freed freedRep freedOnly freedKept
  have freedMemory := goneOnly.trans freedOnly.memory
  have freedSize : freed.kpSize = world.kpSize := by rw [freedMemory.kpSize, linkedSize]
  apply key_freePage_meets (by rw [freedSize]; exact aligned)
  rw [meets_pure]
  apply ends _ _ ustk (freedRep.frame rfl)
  rw [← idx]
  unfold MemoryOnly
  rw [freedMemory, linkedOnly]

end Specs

end SimpleNFast.Rdb
