import SimpleNFast.Construction.Rdb.Commands
import SimpleNFast.Proof.Rdb.OpenCall

namespace SimpleNFast.Rdb
open Program FreeStack

/-- An updater ends a call with an error or makes a value. -/
theorem Updater.run_error {updater : Updater} {old : Bytes} {code : Code} (failed : updater.run old = .error code) :
    code ≠ .E_ok := by
  unfold Updater.run at failed
  dsimp only at failed
  split at failed
  · rename_i refused
    cases failed
    exact refused
  · split at failed
    · rename_i refused
      cases failed
      exact refused
    · cases failed

namespace ByteMap

variable {map : ByteMap} {key value old : Bytes} {updater : Option Updater} {object : Updater}

theorem stored_plain : map.stored key value none = .ok value := by
  unfold stored
  cases map key <;> rfl

theorem stored_absent (absent : map key = none) : map.stored key value updater = .ok value := by
  unfold stored
  rw [absent]

theorem stored_update (present : map key = some old) : map.stored key value (some object) = object.run old := by
  unfold stored
  rw [present]

theorem stored_error {code : Code} (failed : map.stored key value updater = .error code) : code ≠ .E_ok := by
  unfold stored at failed
  split at failed
  · exact Updater.run_error failed
  · cases failed

theorem stored_ok {result : Bytes} (done : map.stored key value updater = .ok result) :
    result = value ∨ ∃ object old, updater = some object ∧ map key = some old ∧ object.run old = .ok result := by
  unfold stored at done
  split at done
  · rename_i old object present
    exact Or.inr ⟨object, old, rfl, present, done⟩
  · cases done
    exact Or.inl rfl

end ByteMap

section Update

variable {strict evicts : Prop} {allowed : Eviction → Prop} {accepted : Stop → Prop} {world : World}
  {chains : Nat → Chain} {lists : Nat → List Nat} {map : ByteMap} {fails : Failures} {key value : Bytes}
  {updater : Option Updater}

/-- A call of `set` with or without an updater. -/
theorem setWith_spec {post : Reply → World → Prop} (opened : Opened strict evicts world chains lists map)
    (harmless : ∀ event, allowed event → evicts ∧ Harmless (hash key world.htSize) event)
    (fineKey : rejected key = false) (fine : rejected value = false)
    (updates : ∀ object old updated, updater = some object → object.run old = .ok updated →
      rejected updated = false)
    (limit : ∀ item ∈ chains (hash key world.htSize), Roomy world.kpSize item.2 →
      item.2.entries.card < countLimit)
    (works : SetWorks fails accepted post (world.store chains) key)
    (done : ∀ later fresh next stored, map.stored key value updater = .ok stored →
      later.store fresh = (world.store chains).set key stored →
      Opened strict evicts later fresh next (Function.update map key (some stored)) → post ⟨.E_ok, none⟩ later)
    (refused : ∀ later next code, map.stored key value updater = .error code → SameSizes world later →
      Opened strict evicts later chains next map → post ⟨code, none⟩ later)
    (unchanged : ∀ later next code op, fails op = true → code ≠ .E_ok → SameSizes world later →
      Opened False evicts later chains next map → post ⟨code, none⟩ later) :
    Meets allowed accepted (setWith fails key value updater) world post := by
  rw [setWith, if_neg (by simp [fineKey, fine])]
  simp only [meets_bind, meets_counted, meets_reads, meets_guarded opened.running]
  apply search_meets opened harmless
  · intro later next info place node index item rep only found keyed hashed
    obtain ⟨entry, spot, page, old, there, hit, voff, read, present⟩ :=
      opened.valid.value_eq opened.holds found.find
    have same : entry = item := Option.some.inj (there.symm.trans found.there)
    subst same
    rw [found.hit] at hit
    cases hit
    have offset : (world.store chains).offset key place = page * valuePageSize := by
      rw [Store.offset, Store.item_eq there, found.hit, voff, Option.getD_some]
    simp only [if_true, meets_bind]
    apply assertFound_meets rep found voff
    cases updater with
    | none =>
        simp only [setFound, found.voff, voff, Option.getD_some, ← offset, meets_pure]
        exact overwrite_meets opened rep only found.find fine
          (fun later next same ended => done later _ next value ByteMap.stored_plain same ended) unchanged
    | some object =>
        have stored : map.stored key value (some object) = object.run old := ByteMap.stored_update present
        have db : later.db = world.db := by
          rw [only]
          rfl
        have again : later.db[page * valuePageSize / valuePageSize]? = some (ValuePage.init key old) := by
          rw [Content.offset_index, db]
          exact read
        have final := opened.memory (counted_memory only) (rep.frame rfl)
        simp only [setFound, found.voff, voff, Option.getD_some, ValueFile.read, meets_bind]
        split
        · rename_i broken
          simp only [meets_pure]
          apply finish_nil
          exact unchanged _ next _ _ broken (by simp) (counted_memory only).sizes final.weaken
        · have alive : (!((0 : Int) % 2 == 1)) = true := rfl
          simp only [meets_reads, again, assertValue, assert, meets_bind, meets_requires, ValuePage.init,
            ValuePage.isDeleted, beq_self_eq_true, if_true]
          rw [if_pos alive]
          cases made : object.run old with
          | error code =>
              rw [made] at stored
              simp only [meets_pure]
              apply finish_nil
              exact refused _ next code stored (counted_memory only).sizes final
          | ok updated =>
              rw [made] at stored
              simp only [meets_pure]
              rw [← offset]
              exact overwrite_meets opened rep only found.find (updates object old updated rfl made)
                (fun later next same ended => done later _ next updated stored same ended) unchanged
  · intro later next info rep only missing keyed hashed
    have absent := (opened.valid.find_iff opened.holds).1 missing.find
    have stored : map.stored key value updater = .ok value := ByteMap.stored_absent absent
    simp only [reduceCtorEq, if_false, if_true, meets_bind]
    exact setNew_meets opened rep only harmless missing keyed hashed fineKey fine limit works
      (fun later next same ended => done later _ next value stored same ended) unchanged
  · intro later next info offset broken rep only
    simp only [reduceCtorEq, if_false, meets_pure, meets_bind]
    apply finish_nil
    apply unchanged _ next _ _ broken (by simp) (counted_memory only).sizes
    exact (opened.memory (counted_memory only) (rep.frame rfl)).weaken

end Update

/-- The sizes of a database whose pages count their records right. -/
structure Sized (kpSize htSize : Nat) : Prop where
  large : minKeyPageSize ≤ kpSize
  counted : numOfKeysInPage kpSize ≤ countLimit
  table : 0 < htSize

/-- A store without pages. -/
def Store.empty (kpSize htSize : Nat) : Store := ⟨kpSize, htSize, [], [], [0], [0], fun _ => []⟩

/-- A store without pages is empty. -/
theorem Sized.empty {strict : Prop} {kpSize htSize : Nat} (sized : Sized kpSize htSize) :
    Valid strict (Store.empty kpSize htSize) ∧ (Store.empty kpSize htSize).Holds fun _ => none := by
  have records : (Store.empty kpSize htSize).records = fun _ => 0 := rfl
  have offsets : pageOffsets (Store.empty kpSize htSize).chains = fun _ => 0 := rfl
  have fits : numOfKeysInPage kpSize ≤ slotLimit := sized.counted.trans (by decide)
  refine ⟨⟨sized.table, ⟨fits, sized.large, ?_, ?_, ?_, ?_⟩, ⟨?_, ?_, ?_, ?_⟩⟩, ?_⟩
  · intro bucket some
    exact (some rfl).elim
  · intro bucket item member
    cases member
  · intro bucket
    exact trivial
  · rw [offsets, total_zero]
    exact accounts_empty _
  · intro bucket
    rw [records]
    exact Multiset.nodup_zero
  · intro bucket entry member
    rw [records] at member
    exact (Multiset.notMem_zero entry member).elim
  · intro bucket entry member
    rw [records] at member
    exact (Multiset.notMem_zero entry member).elim
  · rw [records]
    simp only [Multiset.map_zero, total_zero]
    exact accounts_empty _
  · intro key value
    constructor
    · intro some
      cases some
    · rintro ⟨place, member, -⟩
      rw [records] at member
      exact (Multiset.notMem_zero _ member).elim

/-- The pages of a value file that are not deleted. -/
def livePages (db : List ValuePage) : List ValuePage := db.filter fun page => !page.isDeleted

/-- The map after the pages of a value file were set one after the other. -/
def copied (map : ByteMap) (pages : List ValuePage) : ByteMap :=
  pages.foldl (fun map page => Function.update map page.key (some page.value)) map

section Copied

variable {map : ByteMap} {pages : List ValuePage} {key : Bytes} {page : ValuePage}

theorem copied_other (absent : ∀ page ∈ pages, page.key ≠ key) : copied map pages key = map key := by
  induction pages generalizing map with
  | nil => rfl
  | cons first rest restOther =>
      have others : ∀ page ∈ rest, page.key ≠ key := fun page member =>
        absent page (List.mem_cons_of_mem first member)
      have later : copied (Function.update map first.key (some first.value)) rest key = _ := restOther others
      refine later.trans (Function.update_of_ne ?_ _ _)
      exact (absent first List.mem_cons_self).symm

theorem copied_mem (distinct : (pages.map ValuePage.key).Nodup) (member : page ∈ pages) :
    copied map pages page.key = some page.value := by
  induction pages generalizing map with
  | nil => cases member
  | cons first pages rest =>
      obtain ⟨fresh, distinct⟩ := List.nodup_cons.1 distinct
      rcases List.mem_cons.1 member with rfl | member
      · have others : ∀ other ∈ pages, other.key ≠ page.key := by
          intro other inside same
          exact fresh (same ▸ List.mem_map_of_mem inside)
        exact (copied_other others).trans (Function.update_self _ _ _)
      · exact rest distinct member

end Copied

/-- The loop passes over the deleted pages. -/
theorem copyPages_live (pages : List ValuePage) : copyPages pages = copyPages (livePages pages) := by
  induction pages with
  | nil => rfl
  | cons page pages rest =>
      cases deleted : page.isDeleted with
      | true => simp only [livePages, copyPages, deleted, if_true, List.filter_cons, Bool.not_true,
          Bool.false_eq_true, if_false, rest]
      | false => simp only [livePages, copyPages, deleted, Bool.false_eq_true, if_false, List.filter_cons,
          Bool.not_false, if_true, rest]

namespace Content

variable {strict : Prop} {htSize index : Nat} {db : List ValuePage} {stack : List Nat} {records : Records}
  {map : ByteMap} {page : ValuePage}

/-- A page that is not deleted has the value of a record. -/
theorem live_page (content : Content strict htSize db stack records) (read : db[index]? = some page)
    (live : page.isDeleted = false) :
    (page.key, some (index * valuePageSize)) ∈ records (hash page.key htSize) ∧
      page = ValuePage.init page.key page.value ∧ rejected page.key = false ∧ rejected page.value = false := by
  have inside := (List.getElem?_eq_some_iff.1 read).1
  rcases content.pages.covered inside with used | idle
  · obtain ⟨bucket, -, own⟩ := mem_total.1 used
    obtain ⟨entry, member, named⟩ := Multiset.mem_map.1 own
    obtain ⟨place, value, offset, stored, fineKey, fine⟩ := content.live bucket entry member
    obtain ⟨-, home⟩ := content.home bucket entry member
    have spot : place = index * valuePageSize := by
      rw [← named, valueOffset, offset, Option.getD_some]
    rw [spot, offset_index, read] at stored
    have same : page = ValuePage.init entry.1 value := Option.some.inj stored
    rw [same]
    refine ⟨?_, rfl, fineKey, fine⟩
    rw [← spot, ← offset]
    show entry ∈ records (hash entry.1 htSize)
    rw [home]
    exact member
  · have deleted := idle page (by rw [offset_index, read])
    rw [live] at deleted
    cases deleted

/-- The pages that are not deleted have different keys. -/
theorem live_distinct (content : Content strict htSize db stack records) :
    ((livePages db).map ValuePage.key).Nodup := by
  rw [List.Nodup, List.pairwise_map, livePages, List.pairwise_filter, List.pairwise_iff_getElem]
  intro first second firstIn secondIn below firstLive secondLive same
  have one := content.live_page (List.getElem?_eq_getElem firstIn) (by simpa using firstLive)
  have two := content.live_page (List.getElem?_eq_getElem secondIn) (by simpa using secondLive)
  rw [← same] at two
  have equal := Option.some.inj (content.place_unique one.1 two.1)
  have indexes : second = first := by
    rw [← offset_index second, ← offset_index first, equal]
  omega

/-- The pages that are not deleted have the content. -/
theorem copied_live (content : Content strict htSize db stack records)
    (holds : Represents htSize db records map) : copied (fun _ => none) (livePages db) = map := by
  funext key
  by_cases present : ∃ page ∈ livePages db, page.key = key
  · obtain ⟨page, member, rfl⟩ := present
    rw [copied_mem content.live_distinct member]
    obtain ⟨inside, live⟩ := List.mem_filter.1 member
    obtain ⟨index, read⟩ := List.mem_iff_getElem?.1 inside
    obtain ⟨recorded, whole, -⟩ := content.live_page read (by simpa using live)
    symm
    apply (holds page.key page.value).2
    refine ⟨_, recorded, ?_⟩
    rw [offset_index, read]
    exact congrArg some whole
  · have others : ∀ page ∈ livePages db, page.key ≠ key := fun page member same => present ⟨page, member, same⟩
    rw [copied_other others]
    symm
    rw [Option.eq_none_iff_forall_ne_some]
    intro value some
    obtain ⟨place, -, read⟩ := (holds key value).1 some
    apply present
    refine ⟨ValuePage.init key value, ?_, rfl⟩
    exact List.mem_filter.2 ⟨List.mem_of_getElem? read, rfl⟩

end Content

namespace Store

variable {store : Store} {key value : Bytes}

theorem extend_sizes (store : Store) (key : Bytes) (voff : Nat) :
    (store.extend key voff).kpSize = store.kpSize ∧ (store.extend key voff).htSize = store.htSize := by
  rw [extend]
  cases FreeStack.take store.kpSize store.keyFdp with
  | none => exact ⟨rfl, rfl⟩
  | some found => exact ⟨rfl, rfl⟩

theorem set_sizes (store : Store) (key value : Bytes) :
    (store.set key value).kpSize = store.kpSize ∧ (store.set key value).htSize = store.htSize := by
  rw [set]
  cases store.find key with
  | some place => exact ⟨rfl, rfl⟩
  | none =>
      show (store.insert key value).kpSize = _ ∧ (store.insert key value).htSize = _
      rw [insert]
      cases FreeStack.take valuePageSize store.valueFdp with
      | none => exact ⟨rfl, rfl⟩
      | some found =>
          cases store.room key with
          | some target => exact ⟨rfl, rfl⟩
          | none => exact extend_sizes _ key found.1

theorem remove_sizes {later : Store} (removed : store.remove key = some later) :
    later.kpSize = store.kpSize ∧ later.htSize = store.htSize := by
  unfold remove at removed
  cases found : store.find key with
  | none =>
      rw [found] at removed
      cases removed
      exact ⟨rfl, rfl⟩
  | some place =>
      simp only [found] at removed
      split at removed
      · cases removed
        unfold delete
        dsimp only
        split
        · exact ⟨rfl, rfl⟩
        · exact ⟨rfl, rfl⟩
      · cases removed

/-- A new key at the end of the value file. -/
theorem set_end (value : Bytes) (missing : store.find key = none)
    (bottom : store.valueFdp = [store.db.length * valuePageSize]) :
    (store.set key value).db = store.db ++ [ValuePage.init key value] ∧
      (store.set key value).valueFdp = [(store.set key value).db.length * valuePageSize] := by
  have top : FreeStack.take valuePageSize store.valueFdp =
      some (store.db.length * valuePageSize, [store.db.length * valuePageSize + valuePageSize]) := by
    rw [bottom]
    rfl
  have written : PagedFile.writeAt ValuePage.zero store.db store.db.length (ValuePage.init key value) =
      store.db ++ [ValuePage.init key value] := by
    simp [PagedFile.writeAt]
  have next : store.db.length * valuePageSize + valuePageSize =
      (store.db ++ [ValuePage.init key value]).length * valuePageSize := by
    rw [List.length_append, List.length_singleton, Nat.succ_mul]
  have set : store.set key value = store.insert key value := by
    rw [Store.set, missing]
  rw [set]
  cases room : store.room key with
  | some target =>
      rw [Valid.insert_place top room, written, next]
      exact ⟨rfl, rfl⟩
  | none =>
      rw [Valid.insert_extend top room, written, next]
      exact ⟨rfl, rfl⟩

end Store

section Calls

variable {strict evicts : Prop} {allowed : Eviction → Prop} {accepted : Stop → Prop} {world : World}
  {chains : Nat → Chain} {lists : Nat → List Nat} {map : ByteMap} {store : Store}

/-- A page with room counts less than a `short` holds. -/
theorem Opened.limit (opened : Opened strict evicts world chains lists map)
    (counted : numOfKeysInPage world.kpSize ≤ countLimit) (key : Bytes) :
    ∀ item ∈ chains (hash key world.htSize), Roomy world.kpSize item.2 → item.2.entries.card < countLimit := by
  intro item member roomy
  have inside : item ∈ (world.store chains).chains (hash key world.htSize) := member
  exact lt_of_lt_of_le ((opened.valid.roomy inside).1 roomy) counted

/-- The pages are set one after the other, each at the end of the value file. -/
theorem copyPages_meets {post : Code → World → Prop} (pages : List ValuePage)
    (opened : Opened True True world chains lists map)
    (counted : numOfKeysInPage world.kpSize ≤ countLimit)
    (bottom : world.valueFdp = [world.db.length * valuePageSize])
    (live : ∀ page ∈ pages, page.isDeleted = false ∧ page = ValuePage.init page.key page.value ∧
      rejected page.key = false ∧ rejected page.value = false)
    (distinct : (pages.map ValuePage.key).Nodup) (fresh : ∀ page ∈ pages, map page.key = none)
    (ends : ∀ later fresh next, Opened True True later fresh next (copied map pages) →
      later.db = world.db ++ pages → later.kpSize = world.kpSize → later.htSize = world.htSize →
      post .E_eof_detected later) :
    Meets (fun _ => False) accepted (copyPages pages) world post := by
  induction pages generalizing world chains lists map with
  | nil =>
      rw [copyPages, meets_pure]
      exact ends world chains lists opened (List.append_nil _).symm rfl rfl
  | cons page pages rest =>
      obtain ⟨alive, whole, fineKey, fine⟩ := live page List.mem_cons_self
      obtain ⟨unused, others⟩ := List.nodup_cons.1 distinct
      have absent : (world.store chains).find page.key = none :=
        (opened.valid.find_iff opened.holds).2 (fresh page List.mem_cons_self)
      obtain ⟨db, valueFdp⟩ := Store.set_end page.value absent bottom
      obtain ⟨kpSize, htSize⟩ := (world.store chains).set_sizes page.key page.value
      simp only [copyPages, alive, Bool.false_eq_true, if_false, meets_bind]
      apply set_spec opened (fun event impossible => impossible.elim) fineKey fine (opened.limit counted page.key)
      · exact ⟨fun _ _ _ _ => rfl, fun _ _ _ _ _ broken => (Bool.false_ne_true broken).elim,
          fun _ _ _ _ _ => Or.inl rfl, fun _ _ _ _ _ => Or.inl rfl⟩
      · intro later next same ended
        have laterDb : later.db = world.db ++ [page] := by
          rw [← whole] at db
          exact (congrArg Store.db same).trans db
        have laterSize : later.kpSize = world.kpSize := (congrArg Store.kpSize same).trans kpSize
        have laterTable : later.htSize = world.htSize := (congrArg Store.htSize same).trans htSize
        simp only [ne_eq, not_true_eq_false, if_false]
        apply rest ended
        · rw [laterSize]
          exact counted
        · rw [← same] at valueFdp
          exact valueFdp
        · exact fun other member => live other (List.mem_cons_of_mem page member)
        · exact others
        · intro other member
          have differs : other.key ≠ page.key := by
            intro equal
            exact unused (equal ▸ List.mem_map_of_mem member)
          rw [Function.update_of_ne differs]
          exact fresh other (List.mem_cons_of_mem page member)
        · intro final fresh next ended finalDb finalSize finalTable
          refine ends final fresh next ended ?_ (finalSize.trans laterSize) (finalTable.trans laterTable)
          rw [finalDb, laterDb, List.append_assoc, List.singleton_append]
      · intro later next code op broken
        exact (Bool.false_ne_true broken).elim

/-- The close forgets the memory. -/
theorem closeDb_meets {post : Code → World → Prop} (opened : Opened strict evicts world chains lists map)
    (ends : ∀ later, later = { world with hashTable := false, opened := false } →
      Closed strict later (world.store chains) map → post .E_ok later) :
    Meets allowed accepted closeDb world post := by
  have running := opened.running
  have idle : ¬0 < world.opCount := by
    rw [running.idle]
    exact lt_irrefl 0
  simp only [closeDb, meets_bind, meets_reads, running.opened, idle, Bool.not_true, Bool.false_eq_true,
    if_false, meets_modifies, meets_pure]
  refine ends _ rfl ⟨opened.valid, opened.holds, rfl, rfl, ?_, rfl, rfl, running.idle⟩
  show world.attr.getD (world.kpSize, world.htSize) = (world.kpSize, world.htSize)
  rw [running.attr, Option.getD_some]

/-- A rebuild keeps the content, drops the deleted pages and takes the sizes of the members. -/
theorem rebuild_meets {post : Code → World → Prop} (closed : Closed strict world store map)
    (sized : Sized world.kpSize world.htSize) (created : world.created = true)
    (ends : ∀ later fresh, Closed True later fresh map → later.created = true →
      later.attr = some (world.kpSize, world.htSize) → later.kpSize = world.kpSize →
      later.htSize = world.htSize → later.db = livePages world.db → later.bkup = none → post .E_ok later) :
    Meets (fun _ => False) accepted rebuild world post := by
  have there : (!world.created) = false := by
    rw [created]
    rfl
  obtain ⟨valid, holds⟩ : Valid True (Store.empty world.kpSize world.htSize) ∧ _ := sized.empty
  have backed : Closed True (backupFiles world) (Store.empty world.kpSize world.htSize) fun _ => none :=
    ⟨valid, holds, rfl, rfl, rfl, closed.opened, closed.table, closed.idle⟩
  obtain ⟨-, opened⟩ : _ ∧ Opened True True _ _ _ _ := reopened_opened backed
  simp only [rebuild, meets_bind, meets_reads, meets_modifies, closed.not_opened, there, Bool.false_eq_true,
    if_false]
  apply openDb_meets backed
  simp only [ne_eq, not_true_eq_false, if_false, meets_bind]
  rw [copyPages_live]
  have content := closed.valid.content
  rw [← closed.db] at content
  have holds := closed.holds
  rw [Store.Holds, ← closed.db] at holds
  apply copyPages_meets _ opened
  · exact sized.counted
  · rfl
  · intro page member
    obtain ⟨inside, live⟩ := List.mem_filter.1 member
    obtain ⟨index, read⟩ := List.mem_iff_getElem?.1 inside
    have live : page.isDeleted = false := by simpa using live
    exact ⟨live, (content.live_page read live).2⟩
  · exact content.live_distinct
  · intro page member
    rfl
  · intro later fresh next ended db kpSize htSize
    rw [content.copied_live holds] at ended
    apply closeDb_meets ended
    intro final equal shut
    have laterKp : later.kpSize = world.kpSize := kpSize
    have laterHt : later.htSize = world.htSize := htSize
    have files : later.db = livePages world.db := db
    simp only [if_true, meets_modifies, meets_pure, not_true_eq_false, if_false]
    subst equal
    apply ends _ (later.store fresh)
    · exact { shut with }
    · exact ended.running.created
    · show later.attr = _
      rw [ended.running.attr, laterKp, laterHt]
    · exact laterKp
    · exact laterHt
    · exact files
    · rfl

end Calls

end SimpleNFast.Rdb
