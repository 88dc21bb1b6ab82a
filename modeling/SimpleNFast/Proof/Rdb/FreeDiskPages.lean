import SimpleNFast.Construction.Rdb.FreeDiskPages
import SimpleNFast.Library.FreeStack

namespace SimpleNFast.Rdb

theorem Code.value_neg {code : Code} (failed : code ≠ .E_ok) : code.value < 0 := by
  cases code <;> first | exact absurd rfl failed | decide

namespace FreeDiskPageMgr

variable {reply : DiskReply} {offset : Int} {mgr next : FreeDiskPageMgr}

/-- The operations on the file leave the stack and the page size alone. -/
theorem addOffsetToFile_frame (reply : DiskReply) (offset : Int) (mgr : FreeDiskPageMgr) :
    (addOffsetToFile reply offset mgr).2.nextFreeOffset = mgr.nextFreeOffset ∧
      (addOffsetToFile reply offset mgr).2.pageSize = mgr.pageSize := by
  unfold addOffsetToFile
  split
  · exact ⟨rfl, rfl⟩
  · split
    · split <;> exact ⟨rfl, rfl⟩
    · exact ⟨rfl, rfl⟩

theorem removeOffsetFromFile_frame (reply : DiskReply) (mgr : FreeDiskPageMgr) :
    (removeOffsetFromFile reply mgr).2.nextFreeOffset = mgr.nextFreeOffset ∧
      (removeOffsetFromFile reply mgr).2.pageSize = mgr.pageSize := by
  unfold removeOffsetFromFile
  split
  · exact ⟨rfl, rfl⟩
  · split <;> exact ⟨rfl, rfl⟩

/-- A successful call of `get` pops the stack, and it refills an empty stack with the page behind. -/
theorem get_cases (done : mgr.get reply = .ok (offset, next)) (success : 0 ≤ offset) :
    ∃ rest removed, mgr.nextFreeOffset = offset :: rest ∧
      removeOffsetFromFile reply { mgr with nextFreeOffset := rest } = (.E_ok, removed) ∧
      ((rest ≠ [] ∧ next = removed) ∨
        (rest = [] ∧ (-2 ^ 63 ≤ offset + mgr.pageSize ∧ offset + mgr.pageSize < 2 ^ 63) ∧
          addOffsetToFile reply (offset + mgr.pageSize)
            { removed with nextFreeOffset := [offset + mgr.pageSize] } = (.E_ok, next))) := by
  unfold get at done
  split at done
  · cases done
  · rename_i top rest stack
    split at done
    · rename_i removed cut
      split at done
      · rename_i empty
        split at done
        · rename_i fits
          split at done
          · rename_i added written
            cases done
            exact ⟨rest, removed, stack, cut, Or.inr ⟨empty, fits, written⟩⟩
          · rename_i retval failed notOk written
            have negative := Code.value_neg notOk
            cases done
            omega
        · cases done
      · rename_i more
        cases done
        exact ⟨rest, _, stack, cut, Or.inl ⟨more, rfl⟩⟩
    · rename_i retval failed notOk cut
      have negative := Code.value_neg notOk
      cases done
      omega

/-- A successful call of `free` pushes an offset of a page. -/
theorem free_cases (done : mgr.free reply offset = .ok (.E_ok, next)) :
    0 ≤ offset ∧ offset.tmod mgr.pageSize = 0 ∧
      addOffsetToFile reply offset { mgr with nextFreeOffset := offset :: mgr.nextFreeOffset } = (.E_ok, next) := by
  unfold free at done
  split at done
  · cases done
  · rename_i valid
    rw [not_or, not_lt, not_not] at valid
    split at done
    · rename_i added written
      cases done
      exact ⟨valid.1, valid.2, written⟩
    · rename_i retval failed notOk written
      cases done
      exact absurd rfl notOk

/-- The stack after a successful call of `get`. -/
theorem get_stack (done : mgr.get reply = .ok (offset, next)) (success : 0 ≤ offset) :
    ∃ rest, mgr.nextFreeOffset = offset :: rest ∧
      next.nextFreeOffset = (if rest = [] then [offset + mgr.pageSize] else rest) ∧
      next.pageSize = mgr.pageSize := by
  obtain ⟨rest, removed, stack, cut, final⟩ := get_cases done success
  have kept := removeOffsetFromFile_frame reply { mgr with nextFreeOffset := rest }
  rw [cut] at kept
  refine ⟨rest, stack, ?_⟩
  rcases final with ⟨more, rfl⟩ | ⟨empty, -, written⟩
  · rw [if_neg more]
    exact kept
  · have pushed := addOffsetToFile_frame reply (offset + mgr.pageSize)
      { removed with nextFreeOffset := [offset + mgr.pageSize] }
    rw [written] at pushed
    rw [if_pos empty]
    exact ⟨pushed.1, pushed.2.trans kept.2⟩

/-- The stack after a successful call of `free`. -/
theorem free_stack (done : mgr.free reply offset = .ok (.E_ok, next)) :
    next.nextFreeOffset = offset :: mgr.nextFreeOffset ∧ next.pageSize = mgr.pageSize := by
  obtain ⟨-, -, written⟩ := free_cases done
  have pushed := addOffsetToFile_frame reply offset { mgr with nextFreeOffset := offset :: mgr.nextFreeOffset }
  rw [written] at pushed
  exact pushed

section Usages

open FreeStack

variable {unit pages : Nat} {initial : List Int}

theorem natCast_inj : Function.Injective (Nat.cast : Nat → Int) := fun _ _ same => by omega

/-- An offset of a page is a multiple of the page size. -/
theorem exists_page {unit : Nat} {offset : Int} (valid : 0 ≤ offset) (aligned : offset.tmod unit = 0) :
    ∃ index : Nat, offset = (index * unit : Nat) := by
  obtain ⟨natural, rfl⟩ := Int.eq_ofNat_of_zero_le valid
  rw [← Int.ofNat_tmod] at aligned
  refine ⟨natural / unit, ?_⟩
  rw [Nat.div_mul_cancel (Nat.dvd_of_mod_eq_zero (by omega))]

/-- The stack of the manager accounts for all pages of the file. -/
structure Accounted (unit size : Nat) (used : Multiset Nat) (mgr : FreeDiskPageMgr) : Prop where
  pageSize : mgr.pageSize = unit
  stack : ∃ stack : List Nat, mgr.nextFreeOffset = stack.map Nat.cast ∧
    Accounts True unit size used stack fun _ => True

theorem initiallyUsed_iff {index : Nat} (positive : 0 < unit) :
    InitiallyUsed unit (pages * unit : Nat) initial (index * unit : Nat) ↔
      index < pages ∧ ((index * unit : Nat) : Int) ∉ initial := by
  unfold InitiallyUsed
  have below : ((index * unit : Nat) : Int) < (pages * unit : Nat) ↔ index < pages := by
    rw [Nat.cast_lt]
    exact Nat.mul_lt_mul_right positive
  rw [below]
  constructor
  · rintro ⟨-, inside, -, other⟩
    exact ⟨inside, other⟩
  · rintro ⟨inside, other⟩
    exact ⟨by omega, inside, ⟨index, by push_cast; ring⟩, other⟩

/-- At the start the pages of the file are accounted for as used or free. -/
theorem started_accounted {fileSize : Int} (positive : 0 < unit)
    (started : Started unit fileSize initial mgr) :
    ∃ (pages : Nat) (held : Multiset Nat), fileSize = (pages * unit : Nat) ∧ Accounted unit pages held mgr ∧
      ∀ index : Nat, index * unit ∈ held ↔ InitiallyUsed unit fileSize initial (index * unit : Nat) := by
  induction started with
  | @size file reply mgr done =>
      obtain ⟨valid, aligned, -⟩ := free_cases done
      obtain ⟨pages, rfl⟩ := exists_page valid aligned
      obtain ⟨stack, pageSize⟩ := free_stack done
      refine ⟨pages, offsets unit pages, rfl, ⟨pageSize, [pages * unit], stack, ?_⟩, ?_⟩
      · exact ⟨⟨[], pages, rfl, by simp, by simp, Or.inl rfl⟩⟩
      · intro index
        rw [initiallyUsed_iff positive, mem_offsets]
        constructor
        · rintro ⟨other, below, same⟩
          have equal := Nat.eq_of_mul_eq_mul_right positive same
          exact ⟨equal ▸ below, List.not_mem_nil⟩
        · rintro ⟨below, -⟩
          exact ⟨index, below, rfl⟩
  | @page initial offset reply mgr next started other inside done inductionHypothesis =>
      obtain ⟨pages, held, rfl, accounted, holds⟩ := inductionHypothesis
      obtain ⟨valid, aligned, -⟩ := free_cases done
      rw [accounted.pageSize] at aligned
      obtain ⟨index, rfl⟩ := exists_page valid aligned
      obtain ⟨pushed, pageSize⟩ := free_stack done
      obtain ⟨stack, same, accounts⟩ := accounted.stack
      have below : index < pages := by
        by_contra above
        have grown := Nat.mul_le_mul_right unit (not_lt.1 above)
        omega
      have member : index * unit ∈ held := (holds index).2 ((initiallyUsed_iff positive).2 ⟨below, other⟩)
      obtain ⟨rest, rfl⟩ := Multiset.exists_cons_of_mem member
      have fresh := (Multiset.nodup_cons.1 (accounts.nodup positive)).1
      refine ⟨pages, rest, rfl, ⟨pageSize.trans accounted.pageSize, index * unit :: stack, ?_, accounts.push trivial⟩, ?_⟩
      · rw [pushed, same]
        rfl
      · intro page
        have before := holds page
        rw [initiallyUsed_iff positive, Multiset.mem_cons] at before
        rw [initiallyUsed_iff positive, List.mem_cons, not_or]
        constructor
        · intro kept
          have old := before.1 (Or.inr kept)
          refine ⟨old.1, ?_, old.2⟩
          intro again
          exact fresh (natCast_inj again ▸ kept)
        · rintro ⟨smaller, different, old⟩
          apply (before.2 ⟨smaller, old⟩).resolve_left
          intro again
          exact different (congrArg Nat.cast again)

/-- What the stack, the pages in use and the mark have to do with each other after every call. -/
structure Balanced (unit : Nat) (held : Multiset Nat) (usage : Usage) : Prop where
  counted : ∃ (size : Nat) (outs : List Nat), usage.mark = (size * unit : Nat) ∧
    usage.out = outs.map Nat.cast ∧ Accounted unit size (held + (outs : Multiset Nat)) usage.mgr

/-- A successful `get` takes a page that is not in use. -/
theorem Balanced.get {held : Multiset Nat} {usage : Usage} (balanced : Balanced unit held usage)
    (positive : 0 < unit) (done : usage.mgr.get reply = .ok (offset, next)) (success : 0 ≤ offset) :
    Balanced unit held ⟨next, offset :: usage.out, max usage.mark (offset + unit)⟩ := by
  obtain ⟨size, outs, mark, out, accounted⟩ := balanced.counted
  obtain ⟨stack, same, accounts⟩ := accounted.stack
  obtain ⟨rest, whole, later, pageSize⟩ := get_stack done success
  obtain ⟨index, others, taken, -, -, further, -⟩ := accounts.take positive
  rw [accounted.pageSize] at later
  have split : offset = (index * unit : Nat) ∧ next.nextFreeOffset = others.map Nat.cast := by
    rw [same] at whole
    match stack, taken with
    | [top], taken =>
        simp only [FreeStack.take, Option.some.injEq, Prod.mk.injEq] at taken
        simp only [List.map_cons, List.map_nil, List.cons.injEq] at whole
        rw [later, if_pos whole.2.symm, ← taken.2, ← whole.1, ← taken.1]
        exact ⟨rfl, rfl⟩
    | top :: second :: tail, taken =>
        simp only [FreeStack.take, Option.some.injEq, Prod.mk.injEq] at taken
        simp only [List.map_cons, List.cons.injEq] at whole
        rw [later, if_neg (by rw [← whole.2]; exact List.cons_ne_nil _ _), ← taken.2, ← whole.1, ← taken.1,
          ← whole.2]
        exact ⟨rfl, rfl⟩
  obtain ⟨rfl, stacked⟩ := split
  refine ⟨max size (index + 1), index * unit :: outs, ?_, ?_, pageSize.trans accounted.pageSize, others, stacked, ?_⟩
  · have product : max size (index + 1) * unit = max (size * unit) (index * unit + unit) := by
      rw [← Nat.succ_mul]
      exact (Nat.mul_max_mul_right ..).symm
    show max usage.mark _ = _
    rw [mark, product, Nat.cast_max, Nat.cast_add]
  · exact congrArg (List.cons _) out
  · rw [← Multiset.cons_coe, Multiset.add_cons]
    exact further.mono (fun _ _ _ => trivial) positive

/-- A successful `free` gives back a page in use. -/
theorem Balanced.free {held : Multiset Nat} {usage : Usage} (balanced : Balanced unit held usage)
    (taken : offset ∈ usage.out) (done : usage.mgr.free reply offset = .ok (.E_ok, next)) :
    Balanced unit held ⟨next, usage.out.erase offset, usage.mark⟩ := by
  obtain ⟨size, outs, mark, out, accounted⟩ := balanced.counted
  obtain ⟨stack, same, accounts⟩ := accounted.stack
  obtain ⟨pushed, pageSize⟩ := free_stack done
  rw [out] at taken
  obtain ⟨page, member, rfl⟩ := List.mem_map.1 taken
  refine ⟨size, outs.erase page, mark, ?_, pageSize.trans accounted.pageSize, page :: stack, ?_, ?_⟩
  · show usage.out.erase _ = _
    rw [out, List.map_erase natCast_inj]
  · rw [pushed, same]
    rfl
  · rw [← Multiset.cons_erase (show page ∈ (outs : Multiset Nat) from member), Multiset.add_cons] at accounts
    exact accounts.push trivial

/-- The account is right after every sequence of calls. -/
theorem used_balanced {fileSize : Int} {usage : Usage} (positive : 0 < unit)
    (used : Used unit fileSize initial usage) :
    ∃ held : Multiset Nat, Balanced unit held usage ∧
      ∀ index : Nat, index * unit ∈ held ↔ InitiallyUsed unit fileSize initial (index * unit : Nat) := by
  induction used with
  | start started =>
      obtain ⟨pages, held, rfl, accounted, holds⟩ := started_accounted positive started
      refine ⟨held, ⟨pages, [], rfl, rfl, ?_⟩, holds⟩
      rw [Multiset.coe_nil, add_zero]
      exact accounted
  | get _ done success inductionHypothesis =>
      obtain ⟨held, balanced, holds⟩ := inductionHypothesis
      exact ⟨held, balanced.get positive done success, holds⟩
  | free _ taken done inductionHypothesis =>
      obtain ⟨held, balanced, holds⟩ := inductionHypothesis
      exact ⟨held, balanced.free taken done, holds⟩

/-- Over every sequence of successful calls no page is handed out twice. -/
theorem handsOutOnce {pageSize fileSize : Int} {usage : Usage} (positive : 0 < pageSize)
    (used : Used pageSize fileSize initial usage) : HandsOutOnce pageSize fileSize initial usage := by
  obtain ⟨unit, rfl⟩ := Int.eq_ofNat_of_zero_le positive.le
  replace positive : 0 < unit := Int.natCast_pos.1 positive
  obtain ⟨held, ⟨size, outs, mark, out, accounted⟩, holds⟩ := used_balanced positive used
  obtain ⟨stack, same, accounts⟩ := accounted.stack
  obtain ⟨free, split, -, below⟩ := accounts.bottom positive
  have whole : usage.mgr.nextFreeOffset = free.map Nat.cast ++ [((size * unit : Nat) : Int)] := by
    rw [same, split, List.map_append]
    rfl
  have picked {reply : DiskReply} {offset : Int} {next : FreeDiskPageMgr}
      (done : usage.mgr.get reply = .ok (offset, next)) (success : 0 ≤ offset) :
      ∃ (index : Nat) (rest : List Nat), offset = (index * unit : Nat) ∧ stack = index * unit :: rest ∧
        index * unit ∉ held + (outs : Multiset Nat) := by
    obtain ⟨others, top, -⟩ := get_stack done success
    obtain ⟨index, rest, taken, unused, -⟩ := accounts.take positive
    cases stack with
    | nil => cases taken
    | cons first tail =>
        have head : first = index * unit := by
          cases tail <;> exact (Prod.mk.inj (Option.some.inj taken)).1
        rw [same, List.map_cons, List.cons.injEq] at top
        exact ⟨index, tail, by rw [← top.1, head], by rw [head], unused⟩
  constructor
  · rw [whole, List.getLast?_concat, mark]
  · rw [whole, List.dropLast_concat]
    intro offset member
    obtain ⟨page, inside, rfl⟩ := List.mem_map.1 member
    rw [mark]
    exact Nat.cast_lt.2 (below page inside)
  · rw [out, mark]
    intro offset member
    obtain ⟨page, inside, rfl⟩ := List.mem_map.1 member
    obtain ⟨index, smaller, rfl⟩ := accounts.used_lt positive (Multiset.mem_add.2 (Or.inr inside))
    exact Nat.cast_lt.2 (Nat.mul_lt_mul_of_pos_right smaller positive)
  · intro reply offset next done success
    obtain ⟨index, rest, rfl, -, unused⟩ := picked done success
    rw [Multiset.mem_add, not_or] at unused
    refine ⟨?_, ?_, ⟨index, by push_cast; ring⟩⟩
    · rw [out]
      intro member
      exact unused.2 ((List.mem_map_of_injective natCast_inj).1 member)
    · rw [← holds]
      exact unused.1
  · rintro reply offset next done success ⟨page, valid, lower, ⟨index, rfl⟩, notOut, notUsed⟩
    obtain ⟨top, rest, rfl, stacked, -⟩ := picked done success
    obtain ⟨index, rfl⟩ := Int.eq_ofNat_of_zero_le (show 0 ≤ index by nlinarith)
    have cast : (unit : Int) * index = (index * unit : Nat) := by
      push_cast
      ring
    rw [cast] at lower notOut notUsed
    rw [mark] at lower ⊢
    have unused : index * unit ∉ held + (outs : Multiset Nat) := by
      rw [Multiset.mem_add, not_or, holds]
      refine ⟨notUsed, ?_⟩
      intro member
      rw [out] at notOut
      exact notOut (List.mem_map_of_mem member)
    have inside : index < size := Nat.lt_of_mul_lt_mul_right (Nat.cast_lt.1 lower)
    exact Nat.cast_lt.2 (accounts.reuses positive inside unused stacked)

/-- One page of a file of two pages is free and is taken first. -/
theorem handsOutOnce_of_two_pages :
    HandsOutOnce 16 32 [16] ⟨⟨16, [32], none, 0⟩, [16], max 32 (16 + 16)⟩ := by
  have sized : Started 16 32 [] ⟨16, [32], none, 0⟩ := @Started.size 16 32 none ⟨true, true, some 8⟩ _ rfl
  have started : Started 16 32 [16] ⟨16, [16, 32], none, 0⟩ :=
    @Started.page 16 32 [] 16 ⟨true, true, some 8⟩ _ _ sized (by decide) (by decide) rfl
  exact handsOutOnce (by decide) (@Used.get 16 32 [16] _ ⟨true, true, some 8⟩ 16 _ (.start started) rfl (by decide))

end Usages

end FreeDiskPageMgr

end SimpleNFast.Rdb
