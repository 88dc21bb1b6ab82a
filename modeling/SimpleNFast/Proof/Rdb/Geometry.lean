import SimpleNFast.Proof.Rdb.Content
import SimpleNFast.Proof.Rdb.WalkPass

namespace SimpleNFast.Rdb
open FreeStack LinkedList

/-- The page in the file has the header and the entries of the page in memory. -/
structure Twin (disk page : KeyPage) : Prop where
  flags : disk.flags = page.flags
  hash : disk.hash = page.hash
  poff : disk.poff = page.poff
  noff : disk.noff = page.noff
  entries : disk.entries = page.entries

theorem Twin.refl (page : KeyPage) : Twin page page := ⟨rfl, rfl, rfl, rfl, rfl⟩

/-- A page of the key file that is marked as deleted, or that is not yet there. -/
def Vacated (kpSize : Nat) (idx : List KeyPage) (offset : Nat) : Prop :=
  ∀ page, idx[offset / kpSize]? = some page → page.isDeleted = true

/-- The offsets of the pages of each bucket. -/
def pageOffsets (chains : Nat → Chain) (bucket : Nat) : Multiset Nat :=
  ((chains bucket).map Prod.fst : List Nat)

/-- A page of a bucket: it is sound, not empty, not deleted and counted, and the file has its twin. -/
structure Filled (kpSize : Nat) (idx : List KeyPage) (bucket : Nat) (item : Nat × KeyPage) : Prop where
  hash : item.2.hash = bucket
  flags : item.2.flags = 0
  sound : Sound (numOfKeysInPage kpSize) item.2
  entries : item.2.entries ≠ 0
  counted : item.2.entries.card ≤ countLimit
  stored : ∃ disk, idx[item.1 / kpSize]? = some disk ∧ Sound (numOfKeysInPage kpSize) disk ∧
    Twin disk item.2

/-- The pages of the buckets are linked in the file, and its stack has all other pages. -/
structure Geometry (strict : Prop) (kpSize htSize : Nat) (idx : List KeyPage) (stack : List Nat)
    (chains : Nat → Chain) : Prop where
  fits : numOfKeysInPage kpSize ≤ slotLimit
  large : minKeyPageSize ≤ kpSize
  inside : ∀ bucket, chains bucket ≠ [] → bucket < htSize
  filled : ∀ bucket, ∀ item ∈ chains bucket, Filled kpSize idx bucket item
  joined : ∀ bucket, Joined Prod.fst (fun item => item.2.poff) (fun item => item.2.noff) none none
    (chains bucket)
  pages : Accounts strict kpSize idx.length (total htSize (pageOffsets chains)) stack
    (Vacated kpSize idx)

namespace Geometry

variable {strict : Prop} {kpSize htSize : Nat} {idx later : List KeyPage} {stack : List Nat}
  {chains : Nat → Chain} {bucket place : Nat} {item : Nat × KeyPage} {chain : Chain}

theorem positive (geometry : Geometry strict kpSize htSize idx stack chains) : 0 < kpSize := by
  have large := geometry.large
  unfold minKeyPageSize at large
  omega

theorem mem_offsets (geometry : Geometry strict kpSize htSize idx stack chains)
    (member : item ∈ chains bucket) : item.1 ∈ total htSize (pageOffsets chains) := by
  refine mem_total.2 ⟨bucket, geometry.inside bucket (List.ne_nil_of_mem member), ?_⟩
  exact Multiset.mem_coe.2 (List.mem_map_of_mem member)

/-- The offset of a page is that of a page of the file. -/
theorem aligned (geometry : Geometry strict kpSize htSize idx stack chains)
    (member : item ∈ chains bucket) : ∃ index, index < idx.length ∧ index * kpSize = item.1 :=
  geometry.pages.used_lt geometry.positive (geometry.mem_offsets member)

theorem offset_div (geometry : Geometry strict kpSize htSize idx stack chains)
    (member : item ∈ chains bucket) : item.1 / kpSize * kpSize = item.1 := by
  obtain ⟨index, -, same⟩ := geometry.aligned member
  rw [← same, Nat.mul_div_cancel _ geometry.positive]

theorem distinct (geometry : Geometry strict kpSize htSize idx stack chains) (bucket : Nat) :
    ((chains bucket).map Prod.fst).Nodup := by
  by_cases empty : chains bucket = []
  · rw [empty]
    exact List.nodup_nil
  · exact Multiset.coe_nodup.1
      (row_nodup (geometry.pages.nodup geometry.positive) (geometry.inside bucket empty))

/-- No two pages have the same place in the file. -/
theorem separate (geometry : Geometry strict kpSize htSize idx stack chains) :
    Separate kpSize chains := by
  intro bucket other place spot item entry here there same
  have itemIn := List.mem_of_getElem? here
  have entryIn := List.mem_of_getElem? there
  have offsets : item.1 = entry.1 := by
    rw [← geometry.offset_div itemIn, same, geometry.offset_div entryIn]
  have buckets : bucket = other := by
    apply row_unique (geometry.pages.nodup geometry.positive) (geometry.inside bucket (List.ne_nil_of_mem itemIn))
      (geometry.inside other (List.ne_nil_of_mem entryIn))
    · exact Multiset.mem_coe.2 (List.mem_map_of_mem itemIn)
    · rw [offsets]
      exact Multiset.mem_coe.2 (List.mem_map_of_mem entryIn)
  subst buckets
  refine ⟨rfl, ?_⟩
  have bound : place < ((chains bucket).map Prod.fst).length := by
    rw [List.length_map]
    exact (List.getElem?_eq_some_iff.1 here).1
  apply (List.getElem?_inj bound (geometry.distinct bucket)).1
  rw [List.getElem?_map, List.getElem?_map, here, there, Option.map_some, Option.map_some, offsets]

theorem homes (geometry : Geometry strict kpSize htSize idx stack chains) :
    ∀ other, ∀ item ∈ chains other, item.2.hash = other :=
  fun other item member => (geometry.filled other item member).hash

/-- A bucket has no more pages than the file. -/
theorem length_le (geometry : Geometry strict kpSize htSize idx stack chains) (bucket : Nat) :
    (chains bucket).length ≤ idx.length := by
  have sub : ((chains bucket).map fun item => item.1 / kpSize).Subperm (List.range idx.length) := by
    apply List.Nodup.subperm
    · apply List.Nodup.of_map (· * kpSize)
      rw [List.map_map]
      have same : (chains bucket).map ((· * kpSize) ∘ fun item => item.1 / kpSize) =
          (chains bucket).map Prod.fst := by
        apply List.map_congr_left
        intro item member
        exact geometry.offset_div member
      rw [same]
      exact geometry.distinct bucket
    · intro index member
      obtain ⟨item, inside, rfl⟩ := List.mem_map.1 member
      obtain ⟨spot, bound, same⟩ := geometry.aligned inside
      rw [← same, Nat.mul_div_cancel _ geometry.positive]
      exact List.mem_range.2 bound
  have length := sub.length_le
  rwa [List.length_map, List.length_range] at length

/-- A page of another bucket stands at another offset. -/
theorem elsewhere (geometry : Geometry strict kpSize htSize idx stack chains) {other : Nat}
    (differs : other ≠ bucket) (member : item ∈ chains other) : item.1 ∉ pageOffsets chains bucket := by
  intro twice
  apply differs
  obtain ⟨twin, inside, -⟩ := List.mem_map.1 (Multiset.mem_coe.1 twice)
  apply row_unique (geometry.pages.nodup geometry.positive)
    (geometry.inside other (List.ne_nil_of_mem member)) (geometry.inside bucket (List.ne_nil_of_mem inside))
  · exact Multiset.mem_coe.2 (List.mem_map_of_mem member)
  · exact twice

theorem pageOffsets_update (chains : Nat → Chain) (bucket : Nat) (fresh : Chain) :
    pageOffsets (Function.update chains bucket fresh) =
      Function.update (pageOffsets chains) bucket (fresh.map Prod.fst : List Nat) := by
  funext other
  by_cases here : other = bucket
  · subst here
    simp [pageOffsets]
  · simp [pageOffsets, here]

/-- One bucket gets another chain, and the account is settled. -/
theorem change {relaxed : Prop} {fresh : Chain} {left : List Nat}
    (geometry : Geometry strict kpSize htSize idx stack chains)
    (inside : fresh ≠ [] → bucket < htSize)
    (filled : ∀ item ∈ fresh, Filled kpSize later bucket item)
    (joined : Joined Prod.fst (fun item => item.2.poff) (fun item => item.2.noff) none none fresh)
    (same : ∀ other, other ≠ bucket → ∀ item ∈ chains other,
      later[item.1 / kpSize]? = idx[item.1 / kpSize]?)
    (pages : Accounts relaxed kpSize later.length
      (total htSize (Function.update (pageOffsets chains) bucket (fresh.map Prod.fst : List Nat))) left
      (Vacated kpSize later)) :
    Geometry relaxed kpSize htSize later left (Function.update chains bucket fresh) where
  fits := geometry.fits
  large := geometry.large
  inside other some := by
    by_cases here : other = bucket
    · subst here
      rw [Function.update_self] at some
      exact inside some
    · rw [Function.update_of_ne here] at some
      exact geometry.inside other some
  filled other item member := by
    by_cases here : other = bucket
    · subst here
      rw [Function.update_self] at member
      exact filled item member
    · rw [Function.update_of_ne here] at member
      have old := geometry.filled other item member
      refine { old with stored := ?_ }
      rw [same other here item member]
      exact old.stored
  joined other := by
    by_cases here : other = bucket
    · subst here
      rw [Function.update_self]
      exact joined
    · rw [Function.update_of_ne here]
      exact geometry.joined other
  pages := by
    rw [pageOffsets_update]
    exact pages

theorem index_div (geometry : Geometry strict kpSize htSize idx stack chains) (index : Nat) :
    index * kpSize / kpSize = index := Nat.mul_div_cancel _ geometry.positive

/-- The pages of a bucket change in their places. -/
theorem rewrite {fresh : Chain} (geometry : Geometry strict kpSize htSize idx stack chains)
    (offsets : fresh.map Prod.fst = (chains bucket).map Prod.fst)
    (filled : ∀ item ∈ fresh, Filled kpSize later bucket item)
    (joined : Joined Prod.fst (fun item => item.2.poff) (fun item => item.2.noff) none none fresh)
    (length : later.length = idx.length)
    (same : ∀ spot, spot * kpSize ∉ pageOffsets chains bucket → later[spot]? = idx[spot]?) :
    Geometry strict kpSize htSize later stack (Function.update chains bucket fresh) := by
  have whole : Function.update (pageOffsets chains) bucket (fresh.map Prod.fst : List Nat) =
      pageOffsets chains := by
    rw [offsets]
    exact Function.update_eq_self bucket (pageOffsets chains)
  apply geometry.change _ filled joined
  · intro other differs item member
    apply same
    rw [geometry.offset_div member]
    exact geometry.elsewhere differs member
  · rw [whole, length]
    apply geometry.pages.mono _ geometry.positive
    intro spot unused vacated page read
    rw [geometry.index_div, same spot, ← geometry.index_div spot] at read
    · exact vacated page read
    · intro own
      apply unused
      obtain ⟨item, member, named⟩ := List.mem_map.1 (Multiset.mem_coe.1 own)
      rw [← named]
      exact geometry.mem_offsets member
  · intro some
    apply geometry.inside bucket
    rintro empty
    rw [empty, List.map_nil, List.map_eq_nil_iff] at offsets
    exact some offsets

/-- The page on top of the stack is not a page of a bucket. -/
theorem taken_unused {index : Nat} {rest : List Nat}
    (geometry : Geometry strict kpSize htSize idx stack chains)
    (taken : FreeStack.take kpSize stack = some (index * kpSize, rest)) :
    index * kpSize ∉ total htSize (pageOffsets chains) ∧ index ≤ idx.length := by
  obtain ⟨found, left, top, unused, reached, -⟩ := geometry.pages.take geometry.positive
  rw [taken, Option.some.injEq, Prod.mk.injEq] at top
  rw [top.1, Nat.eq_of_mul_eq_mul_right geometry.positive top.1]
  exact ⟨unused, reached⟩

/-- A change outside the pages of the other buckets leaves these as they are. -/
theorem others_same {index : Nat} (geometry : Geometry strict kpSize htSize idx stack chains)
    (unused : index * kpSize ∉ total htSize (pageOffsets chains))
    (same : ∀ spot, spot ≠ index → spot * kpSize ∉ pageOffsets chains bucket →
      later[spot]? = idx[spot]?) :
    ∀ other, other ≠ bucket → ∀ item ∈ chains other,
      later[item.1 / kpSize]? = idx[item.1 / kpSize]? := by
  intro other differs item member
  apply same
  · rintro rfl
    apply unused
    rw [geometry.offset_div member]
    exact geometry.mem_offsets member
  · rw [geometry.offset_div member]
    exact geometry.elsewhere differs member

/-- A bucket gets a new page from the stack. -/
theorem grow {fresh : Chain} {index : Nat} {rest : List Nat}
    (geometry : Geometry strict kpSize htSize idx stack chains) (inside : bucket < htSize)
    (taken : FreeStack.take kpSize stack = some (index * kpSize, rest))
    (offsets : fresh.map Prod.fst = (chains bucket).map Prod.fst ++ [index * kpSize])
    (filled : ∀ item ∈ fresh, Filled kpSize later bucket item)
    (joined : Joined Prod.fst (fun item => item.2.poff) (fun item => item.2.noff) none none fresh)
    (length : later.length = max idx.length (index + 1))
    (same : ∀ spot, spot ≠ index → spot * kpSize ∉ pageOffsets chains bucket →
      later[spot]? = idx[spot]?) :
    Geometry strict kpSize htSize later rest (Function.update chains bucket fresh) := by
  obtain ⟨unused, -⟩ := geometry.taken_unused taken
  apply geometry.change (fun _ => inside) filled joined (geometry.others_same unused same)
  obtain ⟨found, left, top, -, -, account, -⟩ := geometry.pages.take geometry.positive
  rw [taken, Option.some.injEq, Prod.mk.injEq] at top
  obtain ⟨place, rfl⟩ := top
  have equal := Nat.eq_of_mul_eq_mul_right geometry.positive place
  subst equal
  have grown : total htSize
      (Function.update (pageOffsets chains) bucket (fresh.map Prod.fst : List Nat)) =
      index * kpSize ::ₘ total htSize (pageOffsets chains) := by
    obtain ⟨others, before, after⟩ := total_split (pageOffsets chains) inside
    rw [after, before, offsets, ← Multiset.coe_add, Multiset.coe_singleton, add_comm _ {index * kpSize},
      add_assoc, Multiset.singleton_add]
    rfl
  rw [length, grown]
  apply account.mono _ geometry.positive
  rintro spot free ⟨differs, vacated⟩ page read
  rw [geometry.index_div, same spot, ← geometry.index_div spot] at read
  · exact vacated page read
  · rintro rfl
    exact differs rfl
  · intro own
    apply free
    apply Multiset.mem_cons_of_mem
    obtain ⟨item, member, named⟩ := List.mem_map.1 (Multiset.mem_coe.1 own)
    rw [← named]
    exact geometry.mem_offsets member

/-- A page leaves its bucket and goes to the stack. -/
theorem shrink {fresh : Chain} {index : Nat} {nearer farther : List Nat}
    (geometry : Geometry strict kpSize htSize idx stack chains)
    (split : (chains bucket).map Prod.fst = nearer ++ index * kpSize :: farther)
    (offsets : fresh.map Prod.fst = nearer ++ farther)
    (filled : ∀ item ∈ fresh, Filled kpSize later bucket item)
    (joined : Joined Prod.fst (fun item => item.2.poff) (fun item => item.2.noff) none none fresh)
    (flagged : ∀ page, later[index]? = some page → page.isDeleted = true)
    (length : later.length = idx.length)
    (same : ∀ spot, spot * kpSize ∉ pageOffsets chains bucket → later[spot]? = idx[spot]?) :
    Geometry strict kpSize htSize later (index * kpSize :: stack)
      (Function.update chains bucket fresh) := by
  have inside : bucket < htSize := by
    apply geometry.inside
    intro empty
    rw [empty, List.map_nil] at split
    simp at split
  apply geometry.change (fun _ => inside) filled joined
  · intro other differs item member
    apply same
    rw [geometry.offset_div member]
    exact geometry.elsewhere differs member
  · obtain ⟨others, before, after⟩ := total_split (pageOffsets chains) inside
    have whole : total htSize (pageOffsets chains) = index * kpSize ::ₘ
        total htSize (Function.update (pageOffsets chains) bucket (fresh.map Prod.fst : List Nat)) := by
      rw [after, before, offsets, ← Multiset.cons_add, Multiset.cons_coe]
      congr 1
      show ((chains bucket).map Prod.fst : Multiset Nat) = _
      rw [split]
      exact Multiset.coe_eq_coe.2 List.perm_middle
    have pages := geometry.pages
    rw [whole] at pages
    rw [length]
    apply Accounts.push _ _
    · apply pages.mono _ geometry.positive
      intro spot unused vacated page read
      rw [geometry.index_div, same spot, ← geometry.index_div spot] at read
      · exact vacated page read
      · intro own
        apply unused
        rw [← whole]
        obtain ⟨item, member, named⟩ := List.mem_map.1 (Multiset.mem_coe.1 own)
        rw [← named]
        exact geometry.mem_offsets member
    · intro page read
      rw [geometry.index_div] at read
      exact flagged page read

/-- A page that was taken and written is marked as deleted and given back. -/
theorem giveBack {index : Nat} {rest : List Nat}
    (geometry : Geometry strict kpSize htSize idx stack chains)
    (taken : FreeStack.take kpSize stack = some (index * kpSize, rest))
    (flagged : ∀ page, later[index]? = some page → page.isDeleted = true)
    (length : later.length = max idx.length (index + 1))
    (same : ∀ spot, spot ≠ index → later[spot]? = idx[spot]?) :
    Geometry strict kpSize htSize later (index * kpSize :: rest) chains := by
  obtain ⟨found, left, top, unused, -, account, -⟩ := geometry.pages.take geometry.positive
  rw [taken, Option.some.injEq, Prod.mk.injEq] at top
  obtain ⟨place, rfl⟩ := top
  have equal := Nat.eq_of_mul_eq_mul_right geometry.positive place
  subst equal
  refine { geometry with filled := ?_, pages := ?_ }
  · intro other item member
    have old := geometry.filled other item member
    refine { old with stored := ?_ }
    rw [same]
    · exact old.stored
    · rintro rfl
      apply unused
      rw [geometry.offset_div member]
      exact geometry.mem_offsets member
  · rw [length]
    apply Accounts.push
    · apply account.mono _ geometry.positive
      rintro spot - ⟨differs, vacated⟩ page read
      rw [geometry.index_div, same spot, ← geometry.index_div spot] at read
      · exact vacated page read
      · rintro rfl
        exact differs rfl
    · intro page read
      rw [geometry.index_div] at read
      exact flagged page read

/-- A page that was taken is given back without a write. -/
theorem returned {index : Nat} {rest : List Nat}
    (geometry : Geometry strict kpSize htSize idx stack chains)
    (taken : FreeStack.take kpSize stack = some (index * kpSize, rest)) :
    Geometry False kpSize htSize idx (index * kpSize :: rest) chains := by
  obtain ⟨found, left, top, unused, -, -, account⟩ := geometry.pages.take geometry.positive
  rw [taken, Option.some.injEq, Prod.mk.injEq] at top
  obtain ⟨place, rfl⟩ := top
  rw [place]
  refine { geometry with pages := account.mono ?_ geometry.positive }
  rintro spot - (behind | vacated)
  · intro page read
    rw [behind, geometry.index_div, List.getElem?_eq_none le_rfl] at read
    cases read
  · exact vacated

end Geometry

end SimpleNFast.Rdb
