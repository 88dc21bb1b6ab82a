import SimpleNFast.Proof.Rdb.History

namespace SimpleNFast.Rdb
open Program FreeStack LinkedList

namespace World

/-- The page of the key file at an offset. -/
def keyPage (world : World) (offset : Nat) : KeyPage :=
  world.idx.getD (offset / world.kpSize) (KeyPage.zero world.kpSize)

/-- The offsets of the pages of the key file that are in use. -/
def keyOffsets (world : World) : Multiset Nat :=
  (offsets world.kpSize world.idx.length).filter fun offset => scannedFree (world.keyPage offset) = false

/-- The records on the pages of the key file that are in use. -/
def fileRecords (world : World) : Multiset (Bytes × Off) :=
  world.keyOffsets.bind fun offset => (world.keyPage offset).entries

end World

/-- The pages of both files are in use or free, and their stacks have the free pages above the end of the file. -/
structure Accounted (world : World) : Prop where
  keys : ∃ free, world.keyFdp = free ++ [world.idx.length * world.kpSize] ∧
    world.keyOffsets + (free : Multiset Nat) = offsets world.kpSize world.idx.length ∧
    ∀ offset ∈ free, (world.keyPage offset).isDeleted = true
  values : ∃ free, world.valueFdp = free ++ [world.db.length * valuePageSize] ∧
    world.fileRecords.map valueOffset + (free : Multiset Nat) = offsets valuePageSize world.db.length ∧
    ∀ offset ∈ free, Deleted world.db offset
  carried : ∀ entry ∈ world.fileRecords, ∃ offset value, entry.2 = some offset ∧
    world.db[offset / valuePageSize]? = some (ValuePage.init entry.1 value)
  persisted : world.fdp.Perm (Store.scanned valuePageSize ValuePage.isDeleted world.db)

section Files

variable {strict evicts : Prop} {world : World} {chains : Nat → Chain} {lists : Nat → List Nat} {map : ByteMap}
  {bucket : Nat} {item : Nat × KeyPage}

/-- The file has the twin of each page of a bucket. -/
theorem Opened.keyPage_twin (opened : Opened strict evicts world chains lists map) (member : item ∈ chains bucket) :
    world.idx[item.1 / world.kpSize]? = some (world.keyPage item.1) ∧ Twin (world.keyPage item.1) item.2 := by
  obtain ⟨disk, read, -, twin⟩ := (opened.valid.geometry.filled bucket item member).stored
  have same : world.keyPage item.1 = disk := by
    rw [World.keyPage, List.getD_eq_getElem?_getD, show world.idx[item.1 / world.kpSize]? = some disk from read,
      Option.getD_some]
  rw [same]
  exact ⟨read, twin⟩

/-- The pages in use are those of the buckets. -/
theorem Opened.keyOffsets_eq (opened : Opened strict evicts world chains lists map) :
    world.keyOffsets = total world.htSize (pageOffsets chains) := by
  have geometry : Geometry strict world.kpSize world.htSize world.idx world.keyFdp chains := opened.valid.geometry
  have positive := geometry.positive
  have nodup : (total world.htSize (pageOffsets chains)).Nodup := geometry.pages.nodup positive
  apply (Multiset.Nodup.ext ((nodup_offsets positive _).filter _) nodup).2
  intro offset
  rw [Multiset.mem_filter]
  constructor
  · rintro ⟨inside, live⟩
    obtain ⟨index, below, rfl⟩ := mem_offsets.1 inside
    have read : world.idx[index]? = some (world.keyPage (index * world.kpSize)) := by
      rw [World.keyPage, geometry.index_div, List.getD_eq_getElem?_getD, List.getElem?_eq_getElem below,
        Option.getD_some]
    obtain ⟨bucket, place, item, there, named, -⟩ := geometry.live_chained read live
    rw [← named]
    exact geometry.mem_offsets (List.mem_of_getElem? there)
  · intro member
    obtain ⟨bucket, -, own⟩ := mem_total.1 member
    obtain ⟨item, chained, rfl⟩ := List.mem_map.1 (Multiset.mem_coe.1 own)
    obtain ⟨read, -⟩ := opened.keyPage_twin chained
    refine ⟨?_, (geometry.chained_live chained read).1⟩
    apply mem_offsets.2
    refine ⟨item.1 / world.kpSize, (List.getElem?_eq_some_iff.1 read).1, ?_⟩
    exact geometry.offset_div chained

/-- The records in the file are those of the buckets. -/
theorem Opened.fileRecords_eq (opened : Opened strict evicts world chains lists map) :
    world.fileRecords = total world.htSize (world.store chains).records := by
  rw [World.fileRecords, opened.keyOffsets_eq, total, total, Multiset.bind_assoc]
  apply Multiset.bind_congr
  intro bucket _
  show (((chains bucket).map Prod.fst : List Nat) : Multiset Nat).bind _ = chainRecords (chains bucket)
  rw [chainRecords, ← Multiset.map_coe, Multiset.bind_map, ← Multiset.map_coe, ← Multiset.bind]
  apply Multiset.bind_congr
  intro item member
  exact (opened.keyPage_twin (Multiset.mem_coe.1 member)).2.entries

/-- Without failures both files are accounted for. -/
theorem Opened.accounted (opened : Opened True evicts world chains lists map) : Accounted world := by
  have geometry : Geometry True world.kpSize world.htSize world.idx world.keyFdp chains := opened.valid.geometry
  have content := opened.valid.content
  refine ⟨?_, ?_, ?_, ?_⟩
  · obtain ⟨free, whole, partition, idle⟩ := geometry.pages.closed
    rw [← opened.keyOffsets_eq] at partition
    refine ⟨free, whole, partition, ?_⟩
    intro offset member
    have inside : offset ∈ offsets world.kpSize world.idx.length := by
      rw [← partition]
      exact Multiset.mem_add.2 (Or.inr member)
    obtain ⟨index, below, rfl⟩ := mem_offsets.1 inside
    apply idle _ member
    rw [World.keyPage, geometry.index_div, List.getD_eq_getElem?_getD, List.getElem?_eq_getElem below,
      Option.getD_some]
  · obtain ⟨free, whole, partition, idle⟩ := content.pages.closed
    rw [total_map] at partition
    rw [opened.fileRecords_eq]
    exact ⟨free, whole, partition, idle⟩
  · intro entry member
    rw [opened.fileRecords_eq] at member
    obtain ⟨bucket, -, recorded⟩ := mem_total.1 member
    obtain ⟨offset, value, named, read, -⟩ := content.live bucket entry recorded
    exact ⟨offset, value, named, read⟩
  · rw [opened.running.fdp]
    exact (List.reverse_perm _).trans (content.pages.perm opened.valid.reopened_values)

end Files

section Runs

variable {kpsize htsize poolSize : Nat} {history : List Made} {world : World}

/-- An open database of a history has the memory and the files of its view. -/
theorem History.opened (reached : History kpsize htsize poolSize history world) (isOpen : world.opened = true) :
    ∃ chains lists, Opened (Clean history) True world chains lists (viewAfter history).content := by
  rcases reached.shown with ⟨state, -, -, -⟩ | ⟨state, -⟩
  · exact ⟨_, _, state⟩
  · obtain ⟨store, closed, -⟩ := state.stored
    rw [closed.opened] at isOpen
    cases isOpen

/-- A closed database of a history has the files of its view. -/
theorem History.shut (reached : History kpsize htsize poolSize history world) (isShut : world.opened = false) :
    Shut (Clean history) world (viewAfter history).content (viewAfter history).created := by
  rcases reached.shown with ⟨state, -, -, -⟩ | ⟨state, -⟩
  · rw [state.running.opened] at isShut
    cases isShut
  · exact state

/-- The content of a value file: its pages that are not deleted are those of its records. -/
theorem History.content (reached : History kpsize htsize poolSize history world) :
    ∃ stack records htSize, Content (Clean history) htSize world.db stack records ∧
      Represents htSize world.db records (viewAfter history).content := by
  rcases reached.shown with ⟨state, -, -, -⟩ | ⟨state, -⟩
  · exact ⟨_, _, _, state.valid.content, state.holds⟩
  · obtain ⟨store, closed, -⟩ := state.stored
    rw [closed.db]
    exact ⟨_, _, _, closed.valid.content, closed.holds⟩

/-- The keys and the values of a view keep to their sizes. -/
theorem History.short (reached : History kpsize htsize poolSize history world) (key value : Bytes)
    (present : (viewAfter history).content key = some value) :
    key.length ≤ maxKeyLength ∧ value.length ≤ maxValueLength := by
  induction reached generalizing key value with
  | start sized small created => cases present
  | @call history world later command fails reply before fits recovers spares returns ih =>
      rw [viewAfter] at present
      split at present
      · cases command with
        | set target given updater =>
            change Function.update (viewAfter history).content target _ key = some value at present
            by_cases same : key = target
            · subst same
              rw [Function.update_self] at present
              cases chosen : (viewAfter history).content.stored key given updater with
              | error code =>
                  rw [chosen] at present
                  cases present
              | ok result =>
                  rw [chosen] at present
                  cases present
                  refine ⟨fits.1, ?_⟩
                  rcases ByteMap.stored_ok chosen with rfl | ⟨object, old, updates, -, made⟩
                  · exact fits.2.1
                  · exact (fits.2.2 object old _ updates made).2
            · rw [Function.update_of_ne same] at present
              exact ih key value present
        | remove target =>
            change Function.update (viewAfter history).content target none key = some value at present
            by_cases same : key = target
            · rw [same, Function.update_self] at present
              cases present
            · rw [Function.update_of_ne same] at present
              exact ih key value present
        | openDb => exact ih key value present
        | closeDb => exact ih key value present
        | get target vlen => exact ih key value present
        | setKeyPageSize size => exact ih key value present
        | setHashTableSize size => exact ih key value present
        | rebuild => exact ih key value present
      · exact ih key value present

end Runs

end SimpleNFast.Rdb
