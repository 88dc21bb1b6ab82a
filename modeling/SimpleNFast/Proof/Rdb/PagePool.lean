import SimpleNFast.Construction.Rdb.PagePool

namespace SimpleNFast.Rdb

namespace PagePool

section Pages

variable {start : PagePool} {index count addr : Nat}

/-- The address of the page with this number. -/
def page (start : PagePool) (index : Nat) : Nat := start.pool + index * start.pageSize

/-- The addresses of the first pages of the pool. -/
def pages (start : PagePool) (count : Nat) : Multiset Nat := (Multiset.range count).map start.page

theorem page_succ (start : PagePool) (index : Nat) : start.page (index + 1) = start.page index + start.pageSize := by
  rw [page, page, Nat.succ_mul, Nat.add_assoc]

theorem mem_pages : addr ∈ start.pages count ↔ ∃ index, index < count ∧ start.page index = addr := by
  simp [pages]

theorem pages_succ (start : PagePool) (count : Nat) :
    start.pages (count + 1) = start.page count ::ₘ start.pages count := by
  rw [pages, Multiset.range_succ, Multiset.map_cons, pages]

theorem card_pages (start : PagePool) (count : Nat) : (start.pages count).card = count := by
  rw [pages, Multiset.card_map, Multiset.card_range]

theorem page_injective (positive : 0 < start.pageSize) : Function.Injective start.page := by
  intro first second same
  exact Nat.eq_of_mul_eq_mul_right positive (Nat.add_left_cancel same)

theorem nodup_pages (positive : 0 < start.pageSize) (count : Nat) : (start.pages count).Nodup :=
  Multiset.Nodup.map (page_injective positive) (Multiset.nodup_range count)

theorem page_notMem_pages (positive : 0 < start.pageSize) (count : Nat) : start.page count ∉ start.pages count := by
  intro member
  obtain ⟨index, below, same⟩ := mem_pages.1 member
  exact below.ne (page_injective positive same)

theorem page_end_le (fits : count * start.pageSize ≤ start.poolSize) (below : index < count) :
    start.page index + start.pageSize ≤ start.pool + start.poolSize := by
  have scaled := Nat.mul_le_mul_right start.pageSize (Nat.succ_le_of_lt below)
  rw [Nat.succ_mul] at scaled
  rw [page]
  omega

theorem isPage_page (fits : count * start.pageSize ≤ start.poolSize) (below : index < count) :
    start.IsPage (start.page index) where
  above := Nat.le_add_right _ _
  aligned := ⟨index, by rw [page, Nat.add_sub_cancel_left, Nat.mul_comm]⟩
  inside := page_end_le fits below

end Pages

section Get

variable {mgr next : PagePool} {top addr : Nat} {rest : List Nat}

theorem get_of_cons (stack : mgr.nextFreePage = top :: rest) (free : 0 < mgr.numOfFreePages) :
    mgr.get = (some top,
      { mgr with numOfFreePages := mgr.numOfFreePages - 1, nextFreePage := mgr.refill top rest }) := by
  rw [PagePool.get, stack]
  exact if_pos free

theorem get_of_full (full : ¬0 < mgr.numOfFreePages) : mgr.get = (none, mgr) := by
  cases stack : mgr.nextFreePage with
  | nil => rw [PagePool.get, stack]
  | cons top rest =>
      rw [PagePool.get, stack]
      exact if_neg full

theorem get_of_nil (stack : mgr.nextFreePage = []) : mgr.get = (none, mgr) := by
  rw [PagePool.get, stack]

theorem get_none (done : mgr.get = (none, next)) : next = mgr := by
  by_cases free : 0 < mgr.numOfFreePages
  · cases stack : mgr.nextFreePage with
    | nil =>
        rw [get_of_nil stack] at done
        exact (congrArg Prod.snd done).symm
    | cons top rest =>
        rw [get_of_cons stack free] at done
        cases done
  · rw [get_of_full free] at done
    exact (congrArg Prod.snd done).symm

/-- A page that `get` returns is the top of the stack. -/
theorem get_some (done : mgr.get = (some addr, next)) : 0 < mgr.numOfFreePages ∧ ∃ rest,
    mgr.nextFreePage = addr :: rest ∧
    next = { mgr with numOfFreePages := mgr.numOfFreePages - 1, nextFreePage := mgr.refill addr rest } := by
  have free : 0 < mgr.numOfFreePages := by
    by_contra full
    rw [get_of_full full] at done
    cases done
  refine ⟨free, ?_⟩
  cases stack : mgr.nextFreePage with
  | nil =>
      rw [get_of_nil stack] at done
      cases done
  | cons top rest =>
      rw [get_of_cons stack free] at done
      cases done
      exact ⟨rest, rfl, rfl⟩

end Get

/-- The stack has the free pages among those that were touched, and below them the first untouched page while
there is one. When all pages are touched, the entry below the free pages may be any address. -/
structure Holds (start : PagePool) (count : Nat) (mgr : PagePool) (out : List Nat) : Prop where
  frame : mgr = { start with numOfFreePages := mgr.numOfFreePages, nextFreePage := mgr.nextFreePage }
  split : ∃ free bottom touched, mgr.nextFreePage = free ++ bottom ∧
    (out : Multiset Nat) + (free : Multiset Nat) = start.pages touched ∧ touched ≤ count ∧
    (touched < count → bottom = [start.page touched]) ∧
    mgr.numOfFreePages = free.length + (count - touched : Int)

section Calls

variable {start mgr next : PagePool} {count addr : Nat} {out : List Nat}

theorem Holds.numOfFreePages_eq (holds : Holds start count mgr out) :
    mgr.numOfFreePages = (count : Int) - out.length := by
  obtain ⟨free, bottom, touched, -, partition, -, -, number⟩ := holds.split
  have size := congrArg Multiset.card partition
  rw [Multiset.card_add, Multiset.coe_card, Multiset.coe_card, card_pages] at size
  omega

/-- While a page is free the stack has an entry for it. -/
theorem Holds.nonempty (holds : Holds start count mgr out) (some : 0 < mgr.numOfFreePages) :
    ∃ top rest, mgr.nextFreePage = top :: rest := by
  obtain ⟨free, bottom, touched, stack, -, -, untouched, number⟩ := holds.split
  cases free with
  | cons top free => exact ⟨top, free ++ bottom, stack⟩
  | nil =>
      rw [List.length_nil] at number
      have below := untouched (by omega)
      rw [below] at stack
      exact ⟨start.page touched, [], stack⟩

/-- The new page is the first untouched one, and its successor is the next entry where it is a page. -/
theorem Holds.touch (holds : Holds start count mgr out) (positive : 0 < start.pageSize)
    (fits : count * start.pageSize ≤ start.poolSize) {touched : Nat} {number : Int}
    (partition : (out : Multiset Nat) = start.pages touched) (below : touched < count)
    (left : number = (count - (touched + 1) : Int)) :
    Holds start count { mgr with numOfFreePages := number, nextFreePage := mgr.refill (start.page touched) [] }
      (start.page touched :: out) := by
  have frame := holds.frame
  refine ⟨?_, [], mgr.refill (start.page touched) [], touched + 1, rfl, ?_, below, ?_, ?_⟩
  · rw [frame]
  · rw [pages_succ, ← partition, Multiset.coe_nil, add_zero, Multiset.cons_coe]
  · intro further
    have last := page_end_le fits further
    rw [page_succ] at last ⊢
    rw [frame, refill, if_pos (by dsimp only; omega)]
  · rw [left]
    simp

/-- A page that was given back is handed out again. -/
theorem Holds.reuse (holds : Holds start count mgr out) {free bottom : List Nat} {touched : Nat} {number : Int}
    (partition : (out : Multiset Nat) + ((addr :: free : List Nat) : Multiset Nat) = start.pages touched)
    (bounded : touched ≤ count) (untouched : touched < count → bottom = [start.page touched])
    (left : number = free.length + (count - touched : Int)) :
    Holds start count { mgr with numOfFreePages := number, nextFreePage := mgr.refill addr (free ++ bottom) }
      (addr :: out) := by
  have moved : ((addr :: out : List Nat) : Multiset Nat) + (free : Multiset Nat) = start.pages touched := by
    rw [← partition, ← Multiset.cons_coe, ← Multiset.cons_coe, Multiset.cons_add, Multiset.add_cons]
  have frame : mgr = _ := holds.frame
  cases rest : free ++ bottom with
  | nil =>
      obtain ⟨rfl, rfl⟩ := List.append_eq_nil_iff.1 rest
      refine ⟨by rw [frame], [], mgr.refill addr [], touched, rfl, moved, bounded, ?_, left⟩
      intro further
      cases untouched further
  | cons top below =>
      exact ⟨by rw [frame], free, bottom, touched, rest.symm, moved, bounded, untouched, left⟩

/-- A page that is taken from the stack is a page of the pool that was not handed out. -/
theorem Holds.get (holds : Holds start count mgr out) (positive : 0 < start.pageSize)
    (fits : count * start.pageSize ≤ start.poolSize) (done : mgr.get = (some addr, next)) :
    (start.IsPage addr ∧ addr ∉ out) ∧ Holds start count next (addr :: out) := by
  obtain ⟨some, rest, top, rfl⟩ := get_some done
  obtain ⟨free, bottom, touched, stack, partition, bounded, untouched, number⟩ := holds.split
  rw [top] at stack
  cases free with
  | nil =>
      rw [Multiset.coe_nil, add_zero] at partition
      rw [List.length_nil, Nat.cast_zero, zero_add] at number
      have below : touched < count := by omega
      rw [untouched below, List.nil_append] at stack
      obtain ⟨rfl, rfl⟩ := List.cons.inj stack
      refine ⟨⟨isPage_page fits below, ?_⟩, holds.touch positive fits partition below (by omega)⟩
      intro taken
      apply page_notMem_pages positive touched
      rw [← partition]
      exact taken
  | cons addr free =>
      obtain ⟨rfl, rfl⟩ := List.cons.inj stack
      rw [List.length_cons] at number
      have all := nodup_pages positive touched
      rw [← partition, Multiset.nodup_add] at all
      have member : addr ∈ start.pages touched := by
        rw [← partition]
        simp
      obtain ⟨index, below, rfl⟩ := mem_pages.1 member
      refine ⟨⟨isPage_page fits (below.trans_le bounded), ?_⟩,
        holds.reuse partition bounded untouched (by omega)⟩
      intro taken
      exact Multiset.disjoint_left.1 all.2.2 taken (by simp)

/-- No page is handed out only where all of them are. -/
theorem Holds.get_none_iff (holds : Holds start count mgr out) : mgr.get.1 = none ↔ out.length = count := by
  have number := holds.numOfFreePages_eq
  obtain ⟨free, bottom, touched, -, -, bounded, -, left⟩ := holds.split
  by_cases some : 0 < mgr.numOfFreePages
  · obtain ⟨top, rest, stack⟩ := holds.nonempty some
    rw [get_of_cons stack some]
    exact iff_of_false (Option.some_ne_none top) (by omega)
  · rw [get_of_full some]
    exact iff_of_true rfl (by omega)

/-- A page that is handed out can be given back. -/
theorem Holds.free (holds : Holds start count mgr out) (positive : 0 < start.pageSize)
    (fits : count * start.pageSize ≤ start.poolSize) (taken : addr ∈ out) :
    ∃ next, mgr.free addr = some next ∧ Holds start count next (out.erase addr) := by
  obtain ⟨free, bottom, touched, stack, partition, bounded, untouched, number⟩ := holds.split
  have frame := holds.frame
  have member : addr ∈ start.pages touched := by
    rw [← partition]
    exact Multiset.mem_add.2 (Or.inl taken)
  obtain ⟨index, below, same⟩ := mem_pages.1 member
  have isPage : start.IsPage addr := same ▸ isPage_page fits (below.trans_le bounded)
  have inside := isPage.inside
  have pool : mgr.pool = start.pool := by rw [frame]
  have poolSize : mgr.poolSize = start.poolSize := by rw [frame]
  have pageSize : mgr.pageSize = start.pageSize := by rw [frame]
  have done : mgr.free addr = some
      { mgr with numOfFreePages := mgr.numOfFreePages + 1, nextFreePage := addr :: mgr.nextFreePage } := by
    rw [PagePool.free, pool, poolSize, pageSize, if_pos ⟨isPage.above, by omega⟩,
      if_pos (Nat.mod_eq_zero_of_dvd isPage.aligned)]
  have moved : ((out.erase addr : List Nat) : Multiset Nat) + ((addr :: free : List Nat) : Multiset Nat) =
      start.pages touched := by
    rw [← partition, ← Multiset.cons_coe, Multiset.add_cons, ← Multiset.cons_add, Multiset.cons_coe]
    congr 1
    exact Multiset.coe_eq_coe.2 (List.perm_cons_erase taken).symm
  refine ⟨_, done, by rw [frame], addr :: free, bottom, touched, ?_, moved, bounded, untouched, ?_⟩
  · exact congrArg (addr :: ·) stack
  · dsimp only
    rw [number, List.length_cons]
    omega

theorem holds_new {pool poolSize pageSize : Nat} (number : castInt ↑(poolSize / pageSize) = count) :
    Holds (new pool poolSize pageSize) count (new pool poolSize pageSize) [] := by
  refine ⟨rfl, [], [pool], 0, rfl, rfl, count.zero_le, fun _ => ?_, ?_⟩
  · rw [page, Nat.zero_mul, Nat.add_zero, new]
  · rw [numOfFreePages_new, number]
    simp

/-- Every sequence of calls keeps the account of the pages. -/
theorem Used.holds (used : Used start mgr out) (begins : Holds start count start []) (positive : 0 < start.pageSize)
    (fits : count * start.pageSize ≤ start.poolSize) : Holds start count mgr out := by
  induction used with
  | start => exact begins
  | get used done holds => exact (holds.get positive fits done).2
  | refused used done holds => exact get_none done ▸ holds
  | free used taken done holds =>
      obtain ⟨next, given, after⟩ := holds.free positive fits taken
      rw [done] at given
      injection given with same
      exact same ▸ after

theorem Holds.safe (holds : Holds start count mgr out) (positive : 0 < start.pageSize)
    (fits : count * start.pageSize ≤ start.poolSize) (number : start.numOfPages = count) : Safe start mgr out where
  exhausted := by
    rw [holds.get_none_iff, number]
    exact Nat.cast_inj.symm
  fresh addr found := by
    have done : mgr.get = (some addr, mgr.get.2) := Prod.ext found rfl
    exact (holds.get positive fits done).1
  count := by rw [holds.numOfFreePages_eq, number]
  frees addr taken := by
    obtain ⟨next, done, -⟩ := holds.free positive fits taken
    rw [done]
    rfl

/-- The number of pages of the pool is at least the number that the manager counts. -/
theorem castInt_le (size : Nat) : castInt size ≤ size := by
  rw [castInt, BitVec.toInt_ofInt, Int.bmod_def]
  omega

end Calls

/-- In every sequence of calls on a pool with at least one page the pool is safe. -/
theorem used_safe (pool poolSize pageSize : Nat) (some : 1 ≤ (new pool poolSize pageSize).numOfPages)
    {mgr : PagePool} {out : List Nat} (used : Used (new pool poolSize pageSize) mgr out) :
    Safe (new pool poolSize pageSize) mgr out := by
  obtain ⟨count, number⟩ := Int.eq_ofNat_of_zero_le (zero_le_one.trans some)
  have bounded : count ≤ poolSize / pageSize := by
    have below := castInt_le (poolSize / pageSize)
    rw [numOfPages_new] at number
    omega
  have positive : 0 < pageSize := by
    by_contra none
    obtain rfl : pageSize = 0 := by omega
    rw [Nat.div_zero] at bounded
    omega
  have fits : count * pageSize ≤ poolSize := (Nat.le_div_iff_mul_le positive).1 bounded
  exact (used.holds (holds_new number) positive fits).safe positive fits number

/-- In a pool of ten bytes with pages of four bytes both pages are handed out and one is freed. -/
theorem used_safe_ten : ∃ mgr, 1 ≤ (new 16 10 4).numOfPages ∧ Used (new 16 10 4) mgr [20] ∧
    Safe (new 16 10 4) mgr [20] := by
  have some : 1 ≤ (new 16 10 4).numOfPages := by decide
  have used : Used (new 16 10 4) ⟨16, 10, 4, 2, 1, [16, 24]⟩ [20] :=
    .free (.get (.get .start rfl) rfl) (List.mem_cons_of_mem 20 (List.mem_singleton_self 16)) rfl
  exact ⟨_, some, used, used_safe 16 10 4 some used⟩

end PagePool

end SimpleNFast.Rdb
