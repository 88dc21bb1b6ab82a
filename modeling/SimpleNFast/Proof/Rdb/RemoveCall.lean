import SimpleNFast.Proof.Rdb.RemovePage

namespace SimpleNFast.Rdb
open Program LinkedList

section Pass

variable {evicts : Prop} {allowed : Eviction → Prop} {accepted : Stop → Prop} {world : World}
  {chains : Nat → Chain} {lists : Nat → List Nat} {fails : Failures} {post : Code × KeyInfo → World → Prop}

/-- The second pass of `remove` over a bucket whose pages are loaded up to the one with the key. -/
theorem processKeyPages_del {key : Bytes} {bucket target index : Nat} {item : Nat × KeyPage}
    (rep : Rep evicts world chains lists)
    (joined : Joined Prod.fst (fun item => item.2.poff) (fun item => item.2.noff) none none (chains bucket))
    (header : ∀ other ∈ chains bucket, (other.2.remove key).1.noff = other.2.noff)
    (inside : bucket < world.htSize) (bounded : (chains bucket).length ≤ world.idx.length)
    (ready : Ready world (lists bucket)) (reached : target < (lists bucket).length)
    (there : (chains bucket)[target]? = some item)
    (before : ∀ earlier other, earlier < target → (chains bucket)[earlier]? = some other →
      (other.2.remove key).2 = none)
    (hit : (item.2.remove key).2 = some index)
    (written : ∀ later info node addr, 0 < (item.2.remove key).1.vcount →
      Rep evicts later (Function.update chains bucket (stripped key (chains bucket) (target + 1))) lists →
      MemoryOnly world later → Ready later (lists bucket) → (lists bucket)[target]? = some node →
      (later.nodes node).kp = some addr → info.kpn = some node → info.kidx = some index →
      Meets allowed accepted (KeyFile.write fails item.1 (item.2.remove key).1) later
        fun retval final => post (retval, info) final)
    (emptied : ∀ later info node addr, ¬ 0 < (item.2.remove key).1.vcount →
      Rep evicts later (Function.update chains bucket (stripped key (chains bucket) (target + 1))) lists →
      MemoryOnly world later → Ready later (lists bucket) → (lists bucket)[target]? = some node →
      (later.nodes node).kp = some addr → info.kpn = some node → info.kidx = some index →
      post (.E_ok, info) later) :
    Meets allowed accepted (processKeyPages fails .DEL (KeyInfo.init key bucket)) world post := by
  have start : (world.entries bucket).offset = (chains bucket)[0]?.map Prod.fst := by
    rw [rep.offset, List.head?_eq_getElem?]
  have top : (world.entries bucket).head = (lists bucket)[0]? := by
    rw [rep.buckets.head, List.head?_eq_getElem?]
  have short : target < (chains bucket).length := (List.getElem?_eq_some_iff.1 there).1
  simp only [processKeyPages, HashTable.getOffset, HashTable.getKeyPageNodeList, HashTable.getEntry,
    assert, meets_bind, meets_reads, meets_requires, meets_pure, KeyInfo.init, inside, decide_true, if_true,
    start, top]
  refine walkCached_del rfl ?_ joined header ?_ ready (Nat.zero_le _) reached there before hit written emptied
  · rw [stripped_zero, Function.update_eq_self]
    exact rep
  · rw [walkBound]
    omega

end Pass

section Remove

variable {strict evicts : Prop} {allowed : Eviction → Prop} {accepted : Stop → Prop} {world middle : World}
  {chains : Nat → Chain} {lists : Nat → List Nat} {map : ByteMap} {fails : Failures} {key : Bytes}

/-- The chains without the key, while its page is still there. -/
def lacking (world : World) (chains : Nat → Chain) (key : Bytes) (place : Nat) : Nat → Chain :=
  Function.update chains (hash key world.htSize) (stripped key (chains (hash key world.htSize)) (place + 1))

/-- The second pass of a removal is over: the value page is flagged, and the key page lost its key. -/
structure Lacking (evicts : Prop) (world later : World) (chains : Nat → Chain) (next : Nat → List Nat)
    (key : Bytes) (place node addr spot : Nat) (entry : Nat × KeyPage) : Prop where
  rep : Rep evicts later (lacking world chains key place) next
  only : MemoryOnly { counted world with
    db := world.db.modify spot fun page => { page with flags := pageDeleted } } later
  ready : Ready later (next (hash key world.htSize))
  listed : (next (hash key world.htSize))[place]? = some node
  there : (chains (hash key world.htSize))[place]? = some entry
  loaded : (later.nodes node).kp = some addr
  offset : (world.store chains).offset key place = spot * valuePageSize

namespace Lacking

variable {later : World} {next : Nat → List Nat} {place node addr spot : Nat} {entry : Nat × KeyPage}

theorem shown (lacks : Lacking evicts world later chains next key place node addr spot entry) :
    (lacking world chains key place (hash key world.htSize))[place]? = some (strip key entry) := by
  rw [lacking, Function.update_self, stripped_get, lacks.there, Option.map_some, if_pos (Nat.lt_succ_self place)]

theorem page (lacks : Lacking evicts world later chains next key place node addr spot entry) :
    later.pages addr = (entry.2.remove key).1 :=
  (lacks.rep.cached _ place node _ addr lacks.listed lacks.shown lacks.loaded).2

theorem kpSize (lacks : Lacking evicts world later chains next key place node addr spot entry) :
    later.kpSize = world.kpSize := lacks.only.kpSize

theorem htSize (lacks : Lacking evicts world later chains next key place node addr spot entry) :
    later.htSize = world.htSize := lacks.only.htSize

theorem idx (lacks : Lacking evicts world later chains next key place node addr spot entry) :
    later.idx = world.idx := lacks.only.idx

theorem calling (lacks : Lacking evicts world later chains next key place node addr spot entry) :
    Calling world later :=
  ((Calling.of_memory (show MemoryOnly (counted world) (counted world) from rfl)).files _ _ _ _ _).memory
    lacks.only

theorem db (lacks : Lacking evicts world later chains next key place node addr spot entry) :
    later.db = ((world.store chains).freeValue ((world.store chains).offset key place)).db := by
  rw [lacks.only, lacks.offset, Store.freeValue, Content.offset_index]
  rfl

theorem keyFdp (lacks : Lacking evicts world later chains next key place node addr spot entry) :
    later.keyFdp = world.keyFdp := by
  rw [lacks.only]
  rfl

theorem valueFdp (lacks : Lacking evicts world later chains next key place node addr spot entry) :
    spot * valuePageSize :: later.valueFdp =
      ((world.store chains).freeValue ((world.store chains).offset key place)).valueFdp := by
  rw [lacks.only, lacks.offset]
  rfl

theorem fdp (lacks : Lacking evicts world later chains next key place node addr spot entry)
    (running : Running world) :
    later.fdp ++ [spot * valuePageSize] = (spot * valuePageSize :: later.valueFdp).reverse := by
  rw [lacks.only, List.reverse_cons]
  show world.fdp ++ _ = _
  rw [running.fdp]
  rfl

/-- The chains have the offsets that they had before. -/
theorem offsets (opened : Opened strict evicts world chains lists map) (bucket : Nat) :
    (lacking world chains key place bucket).map Prod.fst = (chains bucket).map Prod.fst := by
  by_cases here : bucket = hash key world.htSize
  · subst here
    rw [lacking, Function.update_self]
    exact opened.valid.geometry.offsets_stripped key _ _
  · rw [lacking, Function.update_of_ne here]

theorem homes (opened : Opened strict evicts world chains lists map) :
    ∀ other, ∀ item ∈ lacking world chains key place other, item.2.hash = other := by
  intro bucket item inside
  have geometry := opened.valid.geometry
  by_cases here : bucket = hash key world.htSize
  · subst here
    rw [lacking, Function.update_self] at inside
    obtain ⟨place, there⟩ := List.mem_iff_getElem?.1 inside
    rw [stripped_get] at there
    obtain ⟨old, was, rfl⟩ := Option.map_eq_some_iff.1 there
    have oldIn := List.mem_of_getElem? was
    have home := geometry.homes _ old oldIn
    split
    · exact ((opened.valid.sound oldIn).remove_header key).2.1.trans home
    · exact home
  · rw [lacking, Function.update_of_ne here] at inside
    exact geometry.homes bucket item inside

theorem joined (opened : Opened strict evicts world chains lists map) :
    Joined Prod.fst (fun item => item.2.poff) (fun item => item.2.noff) none none
      (lacking world chains key place (hash key world.htSize)) := by
  have geometry := opened.valid.geometry
  rw [lacking, Function.update_self, joined_links,
    show (stripped key (chains (hash key world.htSize)) (place + 1)).map links = _ from
      geometry.links_stripped key _ _, ← joined_links]
  exact geometry.joined _

/-- The call ends with the page written to the file. -/
theorem kept (lacks : Lacking evicts world later chains next key place node addr spot entry)
    (opened : Opened strict evicts world chains lists map)
    (found : (world.store chains).find key = some place) (positive : 0 < (entry.2.remove key).1.vcount) :
    let final := { later with
      idx := PagedFile.writeAt (KeyPage.zero later.kpSize) later.idx (entry.1 / later.kpSize) (entry.2.remove key).1
      fdp := later.fdp ++ [spot * valuePageSize]
      valueFdp := spot * valuePageSize :: later.valueFdp }
    final.store ((world.store chains).delete key place).chains = (world.store chains).delete key place ∧
      Opened strict evicts { final with opCount := final.opCount + -1 }
        ((world.store chains).delete key place).chains next (Function.update map key none) := by
  intro final
  have geometry := opened.valid.geometry
  have member := List.mem_of_getElem? lacks.there
  obtain ⟨valid, holds⟩ := opened.valid.delete opened.holds found
  have equation := Valid.delete_write
    (show ((world.store chains).chains ((world.store chains).home key))[place]? = some entry from lacks.there)
    positive
  have calling : Calling world final := lacks.calling.files _ _ _ _ _
  have same : final.store ((world.store chains).delete key place).chains = (world.store chains).delete key place := by
    apply calling.store_eq
    all_goals rw [equation]
    · rfl
    · rfl
    · show PagedFile.writeAt _ later.idx _ _ = _
      rw [lacks.kpSize, lacks.idx]
      rfl
    · exact lacks.db
    · exact lacks.keyFdp
    · exact lacks.valueFdp
  have chained : ((world.store chains).delete key place).chains = lacking world chains key place := by
    rw [equation]
    rfl
  have separate : Separate later.kpSize (lacking world chains key place) := by
    rw [lacks.kpSize]
    exact geometry.separate.congr (offsets opened)
  have written : Rep evicts { later with
      idx := PagedFile.writeAt (KeyPage.zero later.kpSize) later.idx (entry.1 / later.kpSize)
        (entry.2.remove key).1 } (lacking world chains key place) next := by
    apply lacks.rep.writeOwn separate lacks.listed lacks.shown lacks.loaded
    intro other differs
    have reached : entry.1 / later.kpSize ≤ later.idx.length := by
      rw [lacks.kpSize, lacks.idx]
      exact (geometry.place_lt member).le
    rw [PagedFile.getElem?_writeAt _ _ _ reached]
    exact if_neg differs
  rw [← chained] at written
  exact ⟨same, calling.ends opened.running (lacks.fdp opened.running) same (written.frame rfl) valid holds⟩

/-- The call ends with the page removed from its chain. -/
theorem emptied {final : World} {finalNext : Nat → List Nat}
    (lacks : Lacking evicts world later chains next key place node addr spot entry)
    (opened : Opened strict evicts world chains lists map)
    (found : (world.store chains).find key = some place) (empty : ¬ 0 < (entry.2.remove key).1.vcount)
    (rep : Rep evicts final ((later.store (lacking world chains key place)).unlink (hash key world.htSize) place
      (strip key entry)).chains finalNext)
    (only : MemoryOnly { later with
      idx := ((later.store (lacking world chains key place)).unlink (hash key world.htSize) place
        (strip key entry)).idx
      keyFdp := (strip key entry).1 :: later.keyFdp } final) :
    let freed := { final with
      fdp := final.fdp ++ [spot * valuePageSize]
      valueFdp := spot * valuePageSize :: final.valueFdp }
    freed.store ((world.store chains).delete key place).chains = (world.store chains).delete key place ∧
      Opened strict evicts { freed with opCount := freed.opCount + -1 }
        ((world.store chains).delete key place).chains finalNext (Function.update map key none) := by
  intro freed
  obtain ⟨valid, holds⟩ := opened.valid.delete opened.holds found
  have equation := Valid.delete_unlink
    (show ((world.store chains).chains ((world.store chains).home key))[place]? = some entry from lacks.there)
    empty
  have chained : ((later.store (lacking world chains key place)).unlink (hash key world.htSize) place
      (strip key entry)).chains = ((world.store chains).delete key place).chains := by
    rw [equation, Store.unlink]
    simp only [World.store, lacking, Function.update_self, Function.update_idem]
    rfl
  have calling : Calling world freed := ((lacks.calling.files _ later.db later.fdp _ later.valueFdp).memory
    only).files final.idx final.db (final.fdp ++ [spot * valuePageSize]) final.keyFdp
      (spot * valuePageSize :: final.valueFdp)
  have db : final.db = later.db := by rw [only]
  have keyFdp : final.keyFdp = entry.1 :: later.keyFdp := by
    rw [only]
    rfl
  have valueFdp : final.valueFdp = later.valueFdp := by rw [only]
  have fdp : final.fdp = later.fdp := by rw [only]
  have same : freed.store ((world.store chains).delete key place).chains = (world.store chains).delete key place := by
    apply calling.store_eq
    all_goals rw [equation]
    · rfl
    · rfl
    · show final.idx = _
      rw [only.idx]
      simp only [Store.unlink, Store.patched, World.store, lacks.kpSize, lacks.idx]
      rfl
    · show final.db = _
      rw [db]
      exact lacks.db
    · show final.keyFdp = _
      rw [keyFdp, lacks.keyFdp]
      rfl
    · show spot * valuePageSize :: final.valueFdp = _
      rw [valueFdp]
      exact lacks.valueFdp
  rw [chained] at rep
  refine ⟨same, calling.ends opened.running ?_ same (rep.frame rfl) valid holds⟩
  show final.fdp ++ _ = (_ :: final.valueFdp).reverse
  rw [fdp, valueFdp]
  exact lacks.fdp opened.running

end Lacking

/-- The key that was found leaves the database, or a failure leaves the map as it was. -/
theorem removeFound_meets {post : Reply → World → Prop} {next : Nat → List Nat} {info : KeyInfo}
    {place node index : Nat} {item : Nat × KeyPage}
    (opened : Opened strict evicts world chains lists map) (rep : Rep evicts middle chains next)
    (only : MemoryOnly (counted world) middle)
    (harmless : ∀ event, allowed event → evicts ∧ Harmless (hash key world.htSize) event)
    (found : Found middle (chains (hash key world.htSize)) (next (hash key world.htSize)) key info place node
      index item)
    (keyed : info.key = key) (hashed : info.hash = hash key world.htSize) (works : RemoveWorks fails)
    (aborts : (item.2.remove key).2 ≠ item.2.get key → accepted .aborted)
    (done : ∀ later next, (item.2.remove key).2 = item.2.get key →
      later.store ((world.store chains).delete key place).chains = (world.store chains).delete key place →
      Opened strict evicts later ((world.store chains).delete key place).chains next
        (Function.update map key none) → post ⟨.E_ok, none⟩ later)
    (unchanged : ∀ later next code op, fails op = true → code ≠ .E_ok → SameSizes world later →
      Opened False evicts later chains next map → post ⟨code, none⟩ later) :
    Meets allowed accepted (removeFound fails info) middle
      fun removed later => Meets allowed accepted (finish fails removed) later post := by
  have geometry := opened.valid.geometry
  have member := List.mem_of_getElem? found.there
  have sound := opened.valid.sound member
  obtain ⟨entry, slot, spot, value, there, hit, voff, offset, -⟩ := opened.valid.record found.find
  have same : entry = item := Option.some.inj (there.symm.trans found.there)
  subst same
  have table : middle.htSize = world.htSize := only.htSize
  have idx : middle.idx = world.idx := only.idx
  have located : info.voff = some (spot * valuePageSize) := by
    rw [found.hit] at hit
    cases hit
    rw [found.voff, voff]
  simp only [removeFound, located, ValueFile.writeFlags, meets_bind, meets_attempt, Content.offset_index]
  split
  · rename_i broken
    simp only [ne_eq, reduceCtorEq, not_false_eq_true, if_true, meets_pure]
    apply finish_nil
    apply unchanged _ next _ _ broken (by simp) (counted_memory only).sizes
    exact (opened.memory (counted_memory only) (rep.frame rfl)).weaken
  · obtain ⟨slot, removed⟩ : ∃ slot, (entry.2.remove key).2 = some slot := by
      apply Option.ne_none_iff_exists'.1
      intro missing
      rw [sound.remove_eq_none, found.hit] at missing
      cases missing
    have flagged : Rep evicts { middle with
        db := middle.db.modify spot fun page => { page with flags := pageDeleted } } chains next := rep.frame rfl
    have lacks : ∀ later other addr, Rep evicts later (lacking world chains key place) next →
        MemoryOnly { middle with
          db := middle.db.modify spot fun page => { page with flags := pageDeleted } } later →
        Ready later (next (hash key world.htSize)) → (next (hash key world.htSize))[place]? = some other →
        (later.nodes other).kp = some addr →
        Lacking evicts world later chains next key place other addr spot entry := by
      intro later other addr laterRep laterOnly ready listed loaded
      refine ⟨laterRep, ?_, ready, listed, found.there, loaded, offset⟩
      unfold MemoryOnly at *
      rw [laterOnly, only]
      rfl
    simp only [ne_eq, not_true_eq_false, if_false, meets_bind, keyed, hashed]
    refine processKeyPages_del flagged (geometry.joined _) ?_
      (by show _ < middle.htSize; rw [table]; exact opened.home_lt key)
      (by show _ ≤ middle.idx.length; rw [idx]; exact geometry.length_le _) found.ready
      (List.getElem?_eq_some_iff.1 found.listed).1 found.there ?_ removed ?_ ?_
    · intro other inside
      exact ((opened.valid.sound inside).remove_header key).2.2.2
    · intro earlier other below here
      exact (opened.valid.sound (List.mem_of_getElem? here)).remove_eq_none.2
        (found.first earlier other below here)
    · intro later removedInfo other addr positive laterRep laterOnly ready listed loaded kpn kidx
      have lacks := lacks later other addr laterRep laterOnly ready listed loaded
      have equal : other = node := Option.some.inj (listed.symm.trans found.listed)
      subst equal
      have stays : ¬ (entry.2.remove key).1.vcount ≤ 0 := not_le.2 positive
      simp only [KeyFile.write, meets_attempt, works.write, Bool.false_eq_true, if_false, assert, meets_requires,
        beq_self_eq_true, if_true, found.kpn, kpn, found.kidx, kidx]
      by_cases agree : slot = index
      · subst agree
        simp only [beq_self_eq_true, if_true, pageOf, Option.getD_some, meets_bind, meets_reads, loaded,
          meets_pure, lacks.page, stays, if_false, not_true_eq_false]
        apply value_freePage_meets spot
        apply finish_ok
        obtain ⟨same, final⟩ := lacks.kept opened found.find positive
        exact done _ next (removed.trans found.hit.symm) same final
      · rw [if_neg (by simpa using Ne.symm agree)]
        apply aborts
        rw [removed, found.hit]
        simpa using agree
    · intro later removedInfo other addr empty laterRep laterOnly ready listed loaded kpn kidx
      have lacks := lacks later other addr laterRep laterOnly ready listed loaded
      have equal : other = node := Option.some.inj (listed.symm.trans found.listed)
      subst equal
      have gone : (entry.2.remove key).1.vcount ≤ 0 := not_lt.1 empty
      simp only [assert, meets_requires, beq_self_eq_true, if_true, found.kpn, kpn, found.kidx, kidx]
      by_cases agree : slot = index
      · subst agree
        obtain ⟨line, -, aligned⟩ := geometry.aligned member
        simp only [beq_self_eq_true, if_true, pageOf, Option.getD_some, meets_bind, meets_reads, loaded,
          meets_pure, lacks.page, gone]
        apply removePage_meets laterRep harmless (Lacking.homes opened) (Lacking.joined opened)
          (by rw [lacks.kpSize]; exact geometry.separate.congr (Lacking.offsets opened))
          (by
            rw [show (Function.update chains _ _ _).map Prod.fst = _ from Lacking.offsets opened _]
            exact geometry.distinct _)
          (by rw [lacks.htSize]; exact opened.home_lt key) ready lacks.shown listed loaded
          (by rw [lacks.kpSize]; show entry.1 % _ = 0; rw [← aligned]; exact Nat.mul_mod_left _ _) works
        intro final finalNext ustk finalRep finalOnly
        simp only [not_true_eq_false, if_false, meets_bind]
        apply value_freePage_meets spot
        rw [meets_pure]
        apply finish_ok
        obtain ⟨same, ended⟩ := lacks.emptied opened found.find empty finalRep finalOnly
        exact done _ finalNext (removed.trans found.hit.symm) same ended
      · rw [if_neg (by simpa using Ne.symm agree)]
        apply aborts
        rw [removed, found.hit]
        simpa using agree

/-- A call of `remove` with a key that is not rejected. -/
theorem remove_spec {post : Reply → World → Prop} (opened : Opened strict evicts world chains lists map)
    (harmless : ∀ event, allowed event → evicts ∧ Harmless (hash key world.htSize) event)
    (fine : rejected key = false) (works : RemoveWorks fails)
    (aborts : map key ≠ none → (world.store chains).remove key = none → accepted .aborted)
    (done : map key ≠ none → ∀ later fresh next, (world.store chains).remove key = some (later.store fresh) →
      Opened strict evicts later fresh next (Function.update map key none) → post ⟨.E_ok, none⟩ later)
    (absent : map key = none → ∀ later next, SameSizes world later → Opened strict evicts later chains next map →
      post ⟨.E_not_found, none⟩ later)
    (unchanged : ∀ later next code op, fails op = true → code ≠ .E_ok → SameSizes world later →
      Opened False evicts later chains next map → post ⟨code, none⟩ later) :
    Meets allowed accepted (Rdb.remove fails key) world post := by
  have search : ∀ place item, (world.store chains).find key = some place →
      (chains (hash key world.htSize))[place]? = some item → (world.store chains).remove key =
        if (item.2.remove key).2 = item.2.get key then some ((world.store chains).delete key place) else none := by
    intro place item found there
    rw [Store.remove, found]
    show (if (((world.store chains).item key place).2.remove key).2 = _ then _ else _) = _
    rw [Store.item_eq (show ((world.store chains).chains ((world.store chains).home key))[place]? = _ from there)]
  rw [Rdb.remove, if_neg (by simp [fine])]
  simp only [meets_bind, meets_counted, meets_reads, meets_guarded opened.running]
  apply search_meets opened harmless
  · intro later next info place node index item rep only found keyed hashed
    obtain ⟨entry, slot, spot, old, there, hit, voff, offset, -⟩ := opened.valid.record found.find
    have same : entry = item := Option.some.inj (there.symm.trans found.there)
    subst same
    rw [found.hit] at hit
    cases hit
    simp only [if_true, meets_bind]
    apply assertFound_meets rep found voff
    have present : map key ≠ none := by
      rw [ne_eq, ← opened.valid.find_iff opened.holds, found.find]
      exact Option.some_ne_none _
    apply removeFound_meets opened rep only harmless found keyed hashed works
    · intro differs
      apply aborts present
      rw [search place entry found.find found.there, if_neg differs]
    · intro final finalNext agree same ended
      apply done present final _ finalNext _ ended
      rw [search place entry found.find found.there, if_pos agree, same]
    · exact unchanged
  · intro later next info rep only missing keyed hashed
    simp only [reduceCtorEq, if_false, meets_pure, meets_bind]
    apply finish_nil
    have none := (opened.valid.find_iff opened.holds).1 missing.find
    exact absent none _ next (counted_memory only).sizes (opened.memory (counted_memory only) (rep.frame rfl))
  · intro later next info offset broken rep only
    simp only [reduceCtorEq, if_false, meets_pure, meets_bind]
    apply finish_nil
    apply unchanged _ next _ _ broken (by simp) (counted_memory only).sizes
    exact (opened.memory (counted_memory only) (rep.frame rfl)).weaken

end Remove

end SimpleNFast.Rdb
