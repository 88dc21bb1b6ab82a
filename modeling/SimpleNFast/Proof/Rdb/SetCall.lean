import SimpleNFast.Proof.Rdb.SetSpec

namespace SimpleNFast.Rdb
open Program LinkedList

section Set

variable {strict evicts : Prop} {allowed : Eviction → Prop} {accepted : Stop → Prop} {world middle : World}
  {chains : Nat → Chain} {lists : Nat → List Nat} {map : ByteMap} {fails : Failures} {key value : Bytes}

theorem finish_ok {post : Reply → World → Prop} {ustk : List UnwindBlock}
    (ends : post ⟨.E_ok, none⟩ { middle with opCount := middle.opCount + -1 }) :
    Meets allowed accepted (finish fails (.E_ok, ustk)) middle post := by
  simp only [finish, unwind, if_true, meets_bind, meets_pure, meets_uncounted]
  exact ends

theorem finish_nil {post : Reply → World → Prop} {code : Code}
    (ends : post ⟨code, none⟩ { middle with opCount := middle.opCount + -1 }) :
    Meets allowed accepted (finish fails (code, [])) middle post := by
  simp only [finish, unwind, executeUnwind, ite_self, meets_bind, meets_pure, meets_uncounted]
  exact ends

theorem finish_anyhow {post : Reply → World → Prop} {code : Code} {ustk : List UnwindBlock}
    (stops : ∀ stop, accepted stop) (ends : ∀ later, post ⟨code, none⟩ later) :
    Meets allowed accepted (finish fails (code, ustk)) middle post := by
  simp only [finish, meets_bind]
  apply meets_anyhow stops
  intro _ later
  simp only [meets_uncounted, meets_pure]
  exact ends _

/-- A value page that was taken and written is given back. -/
theorem Valid.given {store : Store} (valid : Valid strict store) (holds : store.Holds map)
    {index : Nat} {rest : List Nat} (page : ValuePage)
    (taken : FreeStack.take valuePageSize store.valueFdp = some (index * valuePageSize, rest)) :
    Content strict store.htSize
        ((PagedFile.writeAt ValuePage.zero store.db index page).modify index
          fun page => { page with flags := pageDeleted })
        (index * valuePageSize :: rest) store.records ∧
      Represents store.htSize
        ((PagedFile.writeAt ValuePage.zero store.db index page).modify index
          fun page => { page with flags := pageDeleted }) store.records map := by
  obtain ⟨found, left, top, -, reached, -⟩ := valid.content.pages.take (by decide)
  rw [taken, Option.some.injEq, Prod.mk.injEq] at top
  have equal := Nat.eq_of_mul_eq_mul_right (by decide) top.1
  subst equal
  have same : ∀ spot, spot ≠ index → ((PagedFile.writeAt ValuePage.zero store.db index page).modify index
      fun page => { page with flags := pageDeleted })[spot]? = store.db[spot]? := by
    intro spot differs
    rw [List.getElem?_modify_ne _ _ (Ne.symm differs), PagedFile.getElem?_writeAt _ _ _ reached,
      if_neg differs]
  constructor
  · apply valid.content.giveBack taken _ _ same
    · intro found read
      rw [List.getElem?_modify_eq] at read
      obtain ⟨old, -, rfl⟩ := Option.map_eq_some_iff.1 read
      rfl
    · rw [List.length_modify]
      exact PagedFile.length_writeAt _ _ _ reached
  · exact valid.content.represents_other holds (valid.content.taken_unused taken) same

/-- A value is written over the old one, or the write fails. -/
theorem overwrite_meets {post : Reply → World → Prop} {next : Nat → List Nat} {place : Nat}
    (opened : Opened strict evicts world chains lists map) (rep : Rep evicts middle chains next)
    (only : MemoryOnly (counted world) middle)
    (found : (world.store chains).find key = some place) (fine : rejected value = false)
    (done : ∀ later next, later.store ((world.store chains).set key value).chains =
        (world.store chains).set key value →
      Opened strict evicts later ((world.store chains).set key value).chains next
        (Function.update map key (some value)) → post ⟨.E_ok, none⟩ later)
    (unchanged : ∀ later next code op, fails op = true → code ≠ .E_ok → SameSizes world later →
      Opened False evicts later chains next map → post ⟨code, none⟩ later) :
    Meets allowed accepted
      (ValueFile.write fails ((world.store chains).offset key place) (ValuePage.init key value)) middle
      fun retval later => Meets allowed accepted (finish fails (retval, [])) later post := by
  have calling := Calling.of_memory only
  simp only [ValueFile.write, meets_attempt]
  split
  · rename_i broken
    apply finish_nil
    apply unchanged _ next _ _ broken (by simp) (counted_memory only).sizes
    exact (opened.memory (counted_memory only) (rep.frame rfl)).weaken
  · apply finish_nil
    obtain ⟨valid, holds⟩ := opened.valid.overwrite opened.holds found fine
    have set : (world.store chains).set key value =
        (world.store chains).writeValue ((world.store chains).offset key place)
          (ValuePage.init key value) := by
      rw [Store.set, found]
    rw [← set] at valid holds
    have written : Calling world { middle with
        db := PagedFile.writeAt ValuePage.zero middle.db
          ((world.store chains).offset key place / valuePageSize) (ValuePage.init key value) } :=
      calling.files _ _ _ _ _
    have same : World.store { middle with
        db := PagedFile.writeAt ValuePage.zero middle.db
          ((world.store chains).offset key place / valuePageSize) (ValuePage.init key value) }
        ((world.store chains).set key value).chains = (world.store chains).set key value := by
      rw [set, only]
      rfl
    refine done _ next same (written.ends opened.running ?_ same ?_ valid holds)
    · rw [only]
      exact opened.running.fdp
    · rw [set]
      exact rep.frame rfl

/-- What the call of `set` needs of the operations on the files: the value page of a new key is written,
its key page is written in place or all is accepted, and the undo works or all stops are accepted. -/
structure SetWorks (fails : Failures) (accepted : Stop → Prop) (post : Reply → World → Prop) (store : Store)
    (key : Bytes) : Prop where
  value : ∀ offset rest, FreeStack.take valuePageSize store.valueFdp = some (offset, rest) →
    store.find key = none → fails (.writeValuePage offset) = false
  inPlace : ∀ target item, store.room key = some target →
    (store.chains (store.home key))[target]? = some item → store.find key = none →
    fails (.writeKeyPage item.1) = true →
    (∀ stop, accepted stop) ∧ ∀ later, post ⟨.E_write_failed, none⟩ later
  undoValue : ∀ offset rest, FreeStack.take valuePageSize store.valueFdp = some (offset, rest) →
    store.find key = none → store.room key = none →
    fails (.writeValueFlags offset pageDeleted) = false ∨ ∀ stop, accepted stop
  undoKey : ∀ offset rest, FreeStack.take store.kpSize store.keyFdp = some (offset, rest) →
    store.find key = none → store.room key = none →
    fails (.writeKeyFlags offset pageDeleted) = false ∨ ∀ stop, accepted stop

/-- A key page that was taken and written is marked as deleted and given back. -/
theorem Geometry.spoiled {kpSize htSize index : Nat} {idx : List KeyPage} {stack rest : List Nat}
    (geometry : Geometry strict kpSize htSize idx stack chains) (page : KeyPage)
    (taken : FreeStack.take kpSize stack = some (index * kpSize, rest)) :
    Geometry False kpSize htSize ((PagedFile.writeAt (KeyPage.zero kpSize) idx index page).modify index
      fun page => { page with flags := pageDeleted, vcount := 0 }) (index * kpSize :: rest) chains := by
  obtain ⟨-, reached⟩ := geometry.taken_unused taken
  have kept : Geometry strict kpSize htSize
      ((PagedFile.writeAt (KeyPage.zero kpSize) idx index page).modify index
        fun page => { page with flags := pageDeleted, vcount := 0 }) (index * kpSize :: rest) chains := by
    apply geometry.giveBack taken
    · intro found read
      rw [List.getElem?_modify_eq] at read
      obtain ⟨old, -, rfl⟩ := Option.map_eq_some_iff.1 read
      rfl
    · rw [List.length_modify]
      exact PagedFile.length_writeAt _ _ _ reached
    · intro spot differs
      rw [List.getElem?_modify_ne _ _ (Ne.symm differs), PagedFile.getElem?_writeAt _ _ _ reached,
        if_neg differs]
  exact { kept with pages := kept.pages.weaken }

/-- A failure after the write of the value page undoes it. -/
theorem undone_meets {post : Reply → World → Prop} {next : Nat → List Nat} {index : Nat} {rest : List Nat}
    {op : FileOp} (page : ValuePage) (opened : Opened strict evicts world chains lists map)
    (calling : Calling world middle) (rep : Rep evicts middle chains next)
    (geometry : Geometry False world.kpSize world.htSize middle.idx middle.keyFdp chains)
    (taken : FreeStack.take valuePageSize world.valueFdp = some (index * valuePageSize, rest))
    (db : middle.db = PagedFile.writeAt ValuePage.zero world.db index page)
    (stack : middle.valueFdp = rest) (fdp : middle.fdp = rest.reverse)
    (undo : fails (.writeValueFlags (index * valuePageSize) pageDeleted) = false ∨ ∀ stop, accepted stop)
    (broken : fails op = true)
    (unchanged : ∀ later next code op, fails op = true → code ≠ .E_ok → SameSizes world later →
      Opened False evicts later chains next map → post ⟨code, none⟩ later) :
    Meets allowed accepted (finish fails (.E_write_failed,
      [.valueFlags (some (index * valuePageSize)) pageDeleted,
        .valueFreePage (some (index * valuePageSize))])) middle post := by
  obtain ⟨content, represents⟩ := opened.valid.given opened.holds page taken
  simp only [finish, unwind, reduceCtorEq, if_false, meets_bind]
  apply unwindValue_meets index undo
  simp only [meets_uncounted, meets_pure]
  have undone := calling.files middle.idx
    (middle.db.modify index fun page => { page with flags := pageDeleted })
    (middle.fdp ++ [index * valuePageSize]) middle.keyFdp (index * valuePageSize :: middle.valueFdp)
  have same : World.store { middle with
      db := middle.db.modify index fun page => { page with flags := pageDeleted }
      fdp := middle.fdp ++ [index * valuePageSize]
      valueFdp := index * valuePageSize :: middle.valueFdp } chains =
      { world.store chains with
        idx := middle.idx
        db := (PagedFile.writeAt ValuePage.zero world.db index page).modify index
          fun page => { page with flags := pageDeleted }
        keyFdp := middle.keyFdp
        valueFdp := index * valuePageSize :: rest } := by
    simp only [World.store, calling.kpSize, calling.htSize, db, stack]
  have valid : Valid False { world.store chains with
      idx := middle.idx
      db := (PagedFile.writeAt ValuePage.zero world.db index page).modify index
        fun page => { page with flags := pageDeleted }
      keyFdp := middle.keyFdp
      valueFdp := index * valuePageSize :: rest } :=
    ⟨opened.valid.table, geometry, { content with pages := content.pages.weaken }⟩
  have persisted : middle.fdp ++ [index * valuePageSize] =
      (index * valuePageSize :: middle.valueFdp).reverse := by
    rw [fdp, stack, List.reverse_cons]
  have final := undone.ends opened.running persisted same (rep.frame rfl) valid represents
  exact unchanged _ next _ op broken (by simp) ⟨calling.kpSize, calling.htSize⟩ final

/-- A new key gets its value page and its record, or a failure leaves the map as it was. -/
theorem setNew_meets {post : Reply → World → Prop} {next : Nat → List Nat} {info : KeyInfo}
    (opened : Opened strict evicts world chains lists map) (rep : Rep evicts middle chains next)
    (only : MemoryOnly (counted world) middle)
    (harmless : ∀ event, allowed event → evicts ∧ Harmless (hash key world.htSize) event)
    (missing : Missing middle (chains (hash key world.htSize)) (next (hash key world.htSize)) key info)
    (keyed : info.key = key) (hashed : info.hash = hash key world.htSize)
    (fineKey : rejected key = false) (fine : rejected value = false)
    (limit : ∀ item ∈ chains (hash key world.htSize), Roomy world.kpSize item.2 →
      item.2.entries.card < countLimit)
    (works : SetWorks fails accepted post (world.store chains) key)
    (done : ∀ later next, later.store ((world.store chains).set key value).chains =
        (world.store chains).set key value →
      Opened strict evicts later ((world.store chains).set key value).chains next
        (Function.update map key (some value)) → post ⟨.E_ok, none⟩ later)
    (unchanged : ∀ later next code op, fails op = true → code ≠ .E_ok → SameSizes world later →
      Opened False evicts later chains next map → post ⟨code, none⟩ later) :
    Meets allowed accepted (setNew fails key value info) middle
      fun stored later => Meets allowed accepted (finish fails stored) later post := by
  have absent : (world.store chains).find key = none := missing.find
  have calling := Calling.of_memory only
  have geometry := opened.valid.geometry
  obtain ⟨valid, holds⟩ := opened.valid.insert opened.holds absent fineKey fine limit
  obtain ⟨vindex, vrest, vtaken, -⟩ := opened.valid.content.pages.take (by decide)
  obtain ⟨kindex, krest, ktaken, -⟩ := geometry.pages.take geometry.positive
  have set : (world.store chains).set key value = (world.store chains).insert key value := by
    rw [Store.set, absent]
  rw [← set] at valid holds
  have size := calling.kpSize
  have table := calling.htSize
  have idx : middle.idx = world.idx := by
    rw [only]
    rfl
  have stack : middle.valueFdp = world.valueFdp := by
    rw [only]
    rfl
  simp only [setNew, meets_bind]
  apply value_append_meets
  · rw [stack]
    exact vtaken
  · rw [only]
    exact opened.running.fdp
  · exact works.value _ _ vtaken absent
  have written := calling.files middle.idx
    (PagedFile.writeAt ValuePage.zero middle.db vindex (ValuePage.init key value)) vrest.reverse middle.keyFdp
    vrest
  have writtenRep : Rep evicts { middle with
      db := PagedFile.writeAt ValuePage.zero middle.db vindex (ValuePage.init key value)
      fdp := vrest.reverse
      valueFdp := vrest } chains next := rep.frame rfl
  have places : ∀ item ∈ chains (hash key world.htSize), Roomy middle.kpSize item.2 →
      (item.2.put key (some (vindex * valuePageSize))).2 ≠ none := by
    intro item member room
    rw [size] at room
    exact (opened.valid.sound member).put_placed key _ ((opened.valid.roomy member).1 room)
  have newKey : KeyInfo.key { info with voff := some (vindex * valuePageSize) } = key := keyed
  have newValue : KeyInfo.voff { info with voff := some (vindex * valuePageSize) } =
      some (vindex * valuePageSize) := rfl
  simp only [ne_eq, not_true_eq_false, if_false, meets_bind]
  apply processKeyPages_set newKey newValue hashed writtenRep (geometry.joined _)
    (by rw [table]; exact opened.home_lt key) (by rw [idx]; exact geometry.length_le _) places missing.ready
    missing.length (missing.behind.valued _)
  · intro later placedInfo target item slot node addr there before room put laterRep laterOnly ready listed loaded
    change Roomy middle.kpSize item.2 at room
    change ∀ earlier other, earlier < target → (chains (hash key world.htSize))[earlier]? = some other →
      ¬ Roomy middle.kpSize other.2 at before
    rw [size] at room before
    have chosen : (world.store chains).room key = some target :=
      Store.room_eq_some.2 ⟨⟨item, there, room⟩, before⟩
    simp only [KeyFile.write, meets_attempt]
    split
    · rename_i broken
      obtain ⟨stops, all⟩ := works.inPlace target item chosen there absent broken
      simp only [reduceCtorEq, if_false, meets_pure]
      exact finish_anyhow stops all
    · simp only [reduceCtorEq, if_false, meets_pure]
      apply finish_ok
      have equation : (world.store chains).set key value = { (world.store chains).place key
          (vindex * valuePageSize) target with
          db := PagedFile.writeAt ValuePage.zero world.db vindex (ValuePage.init key value)
          valueFdp := vrest } := by
        rw [set, Valid.insert_place vtaken chosen]
        rfl
      rw [Valid.place_eq there] at equation
      have placed := (written.memory laterOnly).files
        (PagedFile.writeAt (KeyPage.zero later.kpSize) later.idx (item.1 / later.kpSize)
          (item.2.put key (some (vindex * valuePageSize))).1) later.db later.fdp later.keyFdp later.valueFdp
      have laterSize : later.kpSize = world.kpSize := (written.memory laterOnly).kpSize
      have laterIdx : later.idx = world.idx := laterOnly.idx.trans idx
      have same : World.store { later with
          idx := PagedFile.writeAt (KeyPage.zero later.kpSize) later.idx (item.1 / later.kpSize)
            (item.2.put key (some (vindex * valuePageSize))).1 }
          ((world.store chains).set key value).chains = (world.store chains).set key value := by
        apply placed.store_eq
        all_goals rw [equation]
        · rfl
        · rfl
        · show PagedFile.writeAt _ later.idx _ _ = _
          rw [laterSize, laterIdx]
          rfl
        · show later.db = _
          rw [laterOnly, only]
          rfl
        · show later.keyFdp = _
          rw [laterOnly, only]
          rfl
        · show later.valueFdp = _
          rw [laterOnly]
      have chained : ((world.store chains).set key value).chains =
          replaced chains (hash key world.htSize) target
            (item.1, (item.2.put key (some (vindex * valuePageSize))).1) := by
        rw [equation]
        rfl
      refine done _ next same (placed.ends opened.running ?_ same ?_ valid holds)
      · rw [laterOnly]
      · rw [← chained] at laterRep
        have separate := valid.geometry.separate
        have sameSize : ((world.store chains).set key value).kpSize = later.kpSize := by
          rw [equation, laterSize]
          rfl
        rw [sameSize] at separate
        have shown : (((world.store chains).set key value).chains (hash key world.htSize))[target]? =
            some (item.1, (item.2.put key (some (vindex * valuePageSize))).1) := by
          rw [chained, replaced_get, if_pos ⟨rfl, rfl, (List.getElem?_eq_some_iff.1 there).1⟩]
        apply laterRep.writeOwn separate listed shown loaded
        intro spot differs
        have member := List.mem_of_getElem? there
        have reached : item.1 / world.kpSize ≤ world.idx.length := (geometry.place_lt member).le
        rw [laterSize, laterIdx] at *
        rw [PagedFile.getElem?_writeAt _ _ _ reached, if_neg differs]
  · intro later fullInfo laterRep laterOnly ready full behind fullKey fullValue fullHash
    have inCall := written.memory laterOnly
    change ∀ (earlier : Nat) (other : Nat × KeyPage),
      (chains (hash key world.htSize))[earlier]? = some other → ¬ Roomy middle.kpSize other.2 at full
    rw [size] at full
    have none : (world.store chains).room key = none := by
      apply Store.room_eq_none.2
      intro item member
      obtain ⟨spot, there⟩ := List.mem_iff_getElem?.1 member
      exact full spot item there
    have laterStore : later.store chains = { world.store chains with
        db := PagedFile.writeAt ValuePage.zero world.db vindex (ValuePage.init key value)
        valueFdp := vrest } := by
      rw [laterOnly, only]
      rfl
    have equation : (world.store chains).set key value =
        (later.store chains).extend key (vindex * valuePageSize) := by
      rw [set, laterStore]
      simp only [Store.insert, vtaken, none, Store.writeValue, Content.offset_index]
      rfl
    have laterGeometry : Geometry strict later.kpSize later.htSize later.idx later.keyFdp chains := by
      rw [laterOnly, only]
      exact geometry
    have laterTaken : FreeStack.take later.kpSize later.keyFdp = some (kindex * later.kpSize, krest) := by
      rw [laterOnly, only]
      exact ktaken
    have ended : later.fdp = vrest.reverse := by rw [laterOnly]
    have laterSize : later.kpSize = world.kpSize := inCall.kpSize
    simp only [if_true, meets_bind]
    apply addNewPage_meets laterRep laterGeometry harmless (by rw [inCall.htSize])
      (by rw [inCall.htSize]; exact opened.home_lt key) fullKey fullValue fullHash ready missing.length behind
      laterTaken
    · rw [laterSize]
      exact works.undoKey _ _ ktaken absent none
    · intro final finalNext addedInfo finalRep finalOnly
      rw [← equation] at finalRep finalOnly
      simp only [meets_pure]
      apply finish_ok
      have added := (inCall.files _ later.db later.fdp krest later.valueFdp).memory finalOnly
      have same : final.store ((world.store chains).set key value).chains =
          (world.store chains).set key value := by
        have top : FreeStack.take (later.store chains).kpSize (later.store chains).keyFdp =
            some (kindex * (later.store chains).kpSize, krest) := laterTaken
        have extended : (later.store chains).extend key (vindex * valuePageSize) = _ := Valid.extend_eq top
        apply added.store_eq
        · rw [equation, extended]
          exact laterSize
        · rw [equation, extended]
          exact inCall.htSize
        · rw [finalOnly]
        · rw [finalOnly, equation, extended]
          rfl
        · rw [finalOnly, equation, extended]
        · rw [finalOnly, equation, extended]
          rfl
      refine done _ finalNext same (added.ends opened.running ?_ same finalRep valid holds)
      rw [finalOnly, laterOnly]
    · intro final finalNext addedInfo op broken finalRep finalOnly
      simp only [meets_pure]
      have inFinal := (inCall.files later.idx later.db later.fdp (kindex * later.kpSize :: krest)
        later.valueFdp).memory finalOnly
      apply undone_meets (ValuePage.init key value) opened inFinal finalRep _ vtaken _ _ _ (works.undoValue _ _ vtaken absent none) broken
        unchanged
      · have idxSame : final.idx = world.idx := by
          rw [finalOnly, laterOnly]
          exact idx
        have stackSame : final.keyFdp = kindex * world.kpSize :: krest := by
          rw [finalOnly, ← laterSize]
        rw [idxSame, stackSame]
        exact geometry.returned ktaken
      · rw [finalOnly, laterOnly, only]
        rfl
      · rw [finalOnly, laterOnly]
      · rw [finalOnly, laterOnly]
    · intro final finalNext addedInfo page op broken finalRep finalOnly
      simp only [meets_pure]
      have inFinal := (inCall.files _ later.db later.fdp (kindex * later.kpSize :: krest)
        later.valueFdp).memory finalOnly
      apply undone_meets (ValuePage.init key value) opened inFinal finalRep _ vtaken _ _ _ (works.undoValue _ _ vtaken absent none) broken
        unchanged
      · have idxSame : final.idx = (PagedFile.writeAt (KeyPage.zero world.kpSize) world.idx kindex page).modify
            kindex fun page => { page with flags := pageDeleted, vcount := 0 } := by
          rw [finalOnly, laterSize, laterOnly, ← idx]
        have stackSame : final.keyFdp = kindex * world.kpSize :: krest := by
          rw [finalOnly, ← laterSize]
        rw [idxSame, stackSame]
        exact geometry.spoiled page ktaken
      · rw [finalOnly, laterOnly, only]
        rfl
      · rw [finalOnly, laterOnly]
      · rw [finalOnly, laterOnly]

/-- A call of `set` with a key and a value that are not rejected. -/
theorem set_spec {post : Reply → World → Prop} (opened : Opened strict evicts world chains lists map)
    (harmless : ∀ event, allowed event → evicts ∧ Harmless (hash key world.htSize) event)
    (fineKey : rejected key = false) (fine : rejected value = false)
    (limit : ∀ item ∈ chains (hash key world.htSize), Roomy world.kpSize item.2 →
      item.2.entries.card < countLimit)
    (works : SetWorks fails accepted post (world.store chains) key)
    (done : ∀ later next, later.store ((world.store chains).set key value).chains =
        (world.store chains).set key value →
      Opened strict evicts later ((world.store chains).set key value).chains next
        (Function.update map key (some value)) → post ⟨.E_ok, none⟩ later)
    (unchanged : ∀ later next code op, fails op = true → code ≠ .E_ok → SameSizes world later →
      Opened False evicts later chains next map → post ⟨code, none⟩ later) :
    Meets allowed accepted (Rdb.set fails key value) world post := by
  rw [Rdb.set, if_neg (by simp [fineKey, fine])]
  simp only [meets_bind, meets_counted, meets_reads, meets_guarded opened.running]
  apply search_meets opened harmless
  · intro later next info place node index item rep only found keyed hashed
    obtain ⟨entry, slot, spot, old, there, hit, voff, offset, -⟩ := opened.valid.record found.find
    have same : entry = item := Option.some.inj (there.symm.trans found.there)
    subst same
    rw [found.hit] at hit
    cases hit
    simp only [if_true, meets_bind]
    apply assertFound_meets rep found voff
    simp only [found.voff, voff, Option.getD_some, ← offset, meets_pure]
    exact overwrite_meets opened rep only found.find fine done unchanged
  · intro later next info rep only missing keyed hashed
    simp only [reduceCtorEq, if_false, if_true, meets_bind]
    exact setNew_meets opened rep only harmless missing keyed hashed fineKey fine limit works done unchanged
  · intro later next info offset broken rep only
    simp only [reduceCtorEq, if_false, meets_pure, meets_bind]
    apply finish_nil
    apply unchanged _ next _ _ broken (by simp) (counted_memory only).sizes
    exact (opened.memory (counted_memory only) (rep.frame rfl)).weaken

end Set

end SimpleNFast.Rdb
