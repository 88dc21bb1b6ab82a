/-
This file develops the stack of free pages of a file. Its bottom entry is the first page behind the
end of the file, and the other entries are free pages of the file.
-/

import Mathlib.Tactic

namespace SimpleNFast.FreeStack

/-- The top of the stack is taken; below the last entry comes the next new page. -/
def take (unit : Nat) : List Nat → Option (Nat × List Nat)
  | [] => none
  | [next] => some (next, [next + unit])
  | next :: rest => some (next, rest)

/-- The offsets of the first pages of a file. -/
def offsets (unit count : Nat) : Multiset Nat := (Multiset.range count).map (· * unit)

/-- The stack accounts for all pages of a file of the given size that are not in use. Unless the account
is strict, the page behind the end may have been taken and given back. -/
structure Accounts (strict : Prop) (unit size : Nat) (used : Multiset Nat) (stack : List Nat)
    (idle : Nat → Prop) : Prop where
  split : ∃ free bottom, stack = free ++ [bottom * unit] ∧ used + (free : Multiset Nat) = offsets unit bottom ∧
    (∀ offset ∈ free, idle offset) ∧
    (bottom = size ∨ (¬strict ∧ bottom = size + 1 ∧ free.getLast? = some (size * unit)))

section Rules

variable {strict : Prop} {unit size offset : Nat} {used : Multiset Nat} {stack : List Nat}
  {idle later : Nat → Prop}

theorem nodup_offsets (positive : 0 < unit) (count : Nat) : (offsets unit count).Nodup :=
  Multiset.Nodup.map (fun _ _ same => Nat.eq_of_mul_eq_mul_right positive same) (Multiset.nodup_range count)

theorem mem_offsets {count : Nat} : offset ∈ offsets unit count ↔ ∃ index, index < count ∧ index * unit = offset := by
  simp [offsets]

theorem offsets_succ (count : Nat) : offsets unit (count + 1) = count * unit ::ₘ offsets unit count := by
  simp [offsets, Multiset.range_succ]

theorem mem_of_take {rest : List Nat} (taken : take unit stack = some (offset, rest)) : offset ∈ stack := by
  unfold take at taken
  split at taken
  · cases taken
  · cases taken
    exact List.mem_cons_self
  · cases taken
    exact List.mem_cons_self

/-- An empty file has only its bottom entry. -/
theorem accounts_empty (idle : Nat → Prop) : Accounts strict unit 0 0 [0] idle :=
  ⟨⟨[], 0, by simp, by simp [offsets], by simp, Or.inl rfl⟩⟩

theorem Accounts.mono (accounts : Accounts strict unit size used stack idle)
    (still : ∀ index, index * unit ∉ used → idle (index * unit) → later (index * unit))
    (positive : 0 < unit) : Accounts strict unit size used stack later := by
  obtain ⟨free, bottom, whole, partition, flagged, close⟩ := accounts.split
  refine ⟨free, bottom, whole, partition, ?_, close⟩
  intro offset member
  have inside : offset ∈ offsets unit bottom := by
    rw [← partition]
    exact Multiset.mem_add.2 (Or.inr member)
  obtain ⟨index, -, rfl⟩ := mem_offsets.1 inside
  apply still index _ (flagged _ member)
  have all := nodup_offsets positive bottom
  rw [← partition, Multiset.nodup_add] at all
  intro twice
  exact Multiset.disjoint_left.1 all.2.2 twice member

theorem Accounts.weaken (accounts : Accounts strict unit size used stack idle) :
    Accounts False unit size used stack idle := by
  obtain ⟨free, bottom, whole, partition, flagged, close⟩ := accounts.split
  refine ⟨free, bottom, whole, partition, flagged, ?_⟩
  rcases close with same | ⟨-, grown, final⟩
  · exact Or.inl same
  · exact Or.inr ⟨not_false, grown, final⟩

/-- The pages in use are different pages of the file. -/
theorem Accounts.nodup (accounts : Accounts strict unit size used stack idle) (positive : 0 < unit) :
    used.Nodup := by
  obtain ⟨free, bottom, whole, partition, -⟩ := accounts.split
  have all := nodup_offsets positive bottom
  rw [← partition, Multiset.nodup_add] at all
  exact all.1

theorem Accounts.used_lt (accounts : Accounts strict unit size used stack idle) (positive : 0 < unit)
    (member : offset ∈ used) : ∃ index, index < size ∧ index * unit = offset := by
  obtain ⟨free, bottom, whole, partition, -, close⟩ := accounts.split
  have inside : offset ∈ offsets unit bottom := by
    rw [← partition]
    exact Multiset.mem_add.2 (Or.inl member)
  obtain ⟨index, below, rfl⟩ := mem_offsets.1 inside
  refine ⟨index, ?_, rfl⟩
  rcases close with rfl | ⟨-, grown, final⟩
  · exact below
  · have all := nodup_offsets positive bottom
    rw [← partition, Multiset.nodup_add] at all
    have differs : index ≠ size := by
      rintro rfl
      exact Multiset.disjoint_left.1 all.2.2 member (List.mem_of_getLast? final)
    omega

/-- A page that is taken was not in use, and after its write the account holds again. -/
theorem Accounts.take (accounts : Accounts strict unit size used stack idle) (positive : 0 < unit) :
    ∃ index rest, FreeStack.take unit stack = some (index * unit, rest) ∧ index * unit ∉ used ∧
      index ≤ size ∧ Accounts strict unit (max size (index + 1)) (index * unit ::ₘ used) rest
        (fun other => other ≠ index * unit ∧ idle other) ∧
      Accounts False unit size used (index * unit :: rest) (fun other => other = size * unit ∨ idle other) := by
  obtain ⟨free, bottom, whole, partition, flagged, close⟩ := accounts.split
  have all := nodup_offsets positive bottom
  rw [← partition, Multiset.nodup_add] at all
  cases free with
  | nil =>
      have same : bottom = size := by
        rcases close with same | ⟨-, -, final⟩
        · exact same
        · simp at final
      subst same
      simp only [Multiset.coe_nil, add_zero] at partition
      refine ⟨bottom, [(bottom + 1) * unit], ?_, ?_, le_rfl, ⟨[], bottom + 1, rfl, ?_, by simp, ?_⟩,
        ⟨[bottom * unit], bottom + 1, rfl, ?_, by simp, ?_⟩⟩
      · rw [whole, List.nil_append, FreeStack.take, Nat.succ_mul]
      · rw [partition]
        intro inside
        obtain ⟨index, below, same⟩ := mem_offsets.1 inside
        have equal := Nat.eq_of_mul_eq_mul_right positive same
        omega
      · rw [Multiset.coe_nil, add_zero, partition, offsets_succ]
      · left
        omega
      · rw [partition, offsets_succ, ← Multiset.cons_coe, Multiset.coe_nil, Multiset.add_cons, add_zero]
      · exact Or.inr ⟨not_false, rfl, rfl⟩
  | cons top free =>
      have inside : top ∈ offsets unit bottom := by
        rw [← partition]
        simp
      obtain ⟨index, below, rfl⟩ := mem_offsets.1 inside
      have freeNodup := List.nodup_cons.1 (Multiset.coe_nodup.1 all.2.1)
      have room : index ≤ size := by
        rcases close with rfl | ⟨-, grown, -⟩ <;> omega
      refine ⟨index, free ++ [bottom * unit], ?_, ?_, room,
        ⟨free, bottom, rfl, ?_, ?_, ?_⟩, ⟨index * unit :: free, bottom, rfl, partition, ?_, ?_⟩⟩
      · rw [whole]
        cases free <;> rfl
      · intro twice
        exact Multiset.disjoint_left.1 all.2.2 twice (by simp)
      · rw [← partition, ← Multiset.cons_coe, Multiset.cons_add, Multiset.add_cons]
      · intro other member
        refine ⟨?_, flagged other (List.mem_cons_of_mem _ member)⟩
        rintro rfl
        exact freeNodup.1 member
      · rcases close with rfl | ⟨lax, grown, final⟩
        · left
          omega
        · cases free with
          | nil =>
              left
              simp only [List.getLast?_singleton, Option.some.injEq] at final
              have equal := Nat.eq_of_mul_eq_mul_right positive final
              omega
          | cons second free =>
              rw [List.getLast?_cons_cons] at final
              have differs : index ≠ size := by
                rintro rfl
                exact freeNodup.1 (List.mem_of_getLast? final)
              have shorter : max size (index + 1) = size := by omega
              rw [shorter]
              exact Or.inr ⟨lax, grown, final⟩
      · exact fun other member => Or.inr (flagged other member)
      · rcases close with same | ⟨-, grown, final⟩
        · exact Or.inl same
        · exact Or.inr ⟨not_false, grown, final⟩

/-- A page in use that is given back becomes free. -/
theorem Accounts.push (accounts : Accounts strict unit size (offset ::ₘ used) stack idle)
    (flagged : idle offset) : Accounts strict unit size used (offset :: stack) idle := by
  obtain ⟨free, bottom, whole, partition, idles, close⟩ := accounts.split
  refine ⟨offset :: free, bottom, by rw [whole]; rfl, ?_, ?_, ?_⟩
  · rw [← partition, ← Multiset.cons_coe, Multiset.cons_add, Multiset.add_cons]
  · intro other member
    rcases List.mem_cons.1 member with rfl | old
    · exact flagged
    · exact idles other old
  · rcases close with same | ⟨lax, grown, final⟩
    · exact Or.inl same
    · right
      refine ⟨lax, grown, ?_⟩
      cases free with
      | nil => simp at final
      | cons second free => exact (List.getLast?_cons_cons).trans final

/-- Every page of the file is in use or free. -/
theorem Accounts.covered (accounts : Accounts strict unit size used stack idle) {index : Nat}
    (inside : index < size) : index * unit ∈ used ∨ idle (index * unit) := by
  obtain ⟨free, bottom, whole, partition, idles, close⟩ := accounts.split
  have below : index < bottom := by
    rcases close with rfl | ⟨-, grown, -⟩ <;> omega
  have member : index * unit ∈ used + (free : Multiset Nat) := by
    rw [partition]
    exact mem_offsets.2 ⟨index, below, rfl⟩
  rcases Multiset.mem_add.1 member with inUse | isFree
  · exact Or.inl inUse
  · exact Or.inr (idles _ isFree)

/-- The stack has no page that is in use. -/
theorem Accounts.notMem_stack (accounts : Accounts strict unit size used stack idle) (positive : 0 < unit)
    (inUse : offset ∈ used) : offset ∉ stack := by
  obtain ⟨free, bottom, whole, partition, -, -⟩ := accounts.split
  have all := nodup_offsets positive bottom
  rw [← partition, Multiset.nodup_add] at all
  intro member
  rw [whole, List.mem_append, List.mem_singleton] at member
  rcases member with isFree | rfl
  · exact Multiset.disjoint_left.1 all.2.2 inUse isFree
  · have inside : bottom * unit ∈ offsets unit bottom := by
      rw [← partition]
      exact Multiset.mem_add.2 (Or.inl inUse)
    obtain ⟨index, below, same⟩ := mem_offsets.1 inside
    exact below.ne (Nat.eq_of_mul_eq_mul_right positive same)

/-- Behind the free pages of a strict account lies the end of the file. -/
theorem Accounts.closed (accounts : Accounts True unit size used stack idle) :
    ∃ free, stack = free ++ [size * unit] ∧ used + (free : Multiset Nat) = offsets unit size ∧
      ∀ offset ∈ free, idle offset := by
  obtain ⟨free, bottom, whole, partition, unused, close⟩ := accounts.split
  have same : bottom = size := close.resolve_right fun lax => lax.1 trivial
  subst same
  exact ⟨free, whole, partition, unused⟩

theorem Accounts.bottom (accounts : Accounts True unit size used stack idle) (positive : 0 < unit) :
    ∃ free, stack = free ++ [size * unit] ∧ used + (free : Multiset Nat) = offsets unit size ∧
      ∀ offset ∈ free, offset < size * unit := by
  obtain ⟨free, whole, partition, -⟩ := accounts.closed
  refine ⟨free, whole, partition, ?_⟩
  intro offset member
  have inside : offset ∈ offsets unit size := by
    rw [← partition]
    exact Multiset.mem_add.2 (Or.inr member)
  obtain ⟨index, below, rfl⟩ := mem_offsets.1 inside
  exact Nat.mul_lt_mul_of_pos_right below positive

/-- The pages in use determine a strict stack up to its order. -/
theorem Accounts.perm {other : List Nat} (accounts : Accounts True unit size used stack idle)
    (others : Accounts True unit size used other later) : stack.Perm other := by
  obtain ⟨free, whole, partition, -⟩ := accounts.closed
  obtain ⟨rest, split, covered, -⟩ := others.closed
  rw [whole, split]
  apply List.Perm.append_right
  exact Multiset.coe_eq_coe.1 (add_left_cancel (partition.trans covered.symm))

/-- While there is a free page no new page is taken. -/
theorem Accounts.reuses (accounts : Accounts True unit size used stack idle) (positive : 0 < unit)
    {index top : Nat} {rest : List Nat} (inside : index < size) (unused : index * unit ∉ used)
    (whole : stack = top :: rest) : top < size * unit := by
  obtain ⟨free, split, partition, below⟩ := accounts.bottom positive
  have member : index * unit ∈ used + (free : Multiset Nat) := by
    rw [partition]
    exact mem_offsets.2 ⟨index, inside, rfl⟩
  have isFree := (Multiset.mem_add.1 member).resolve_left unused
  cases free with
  | nil => simp at isFree
  | cons first free =>
      rw [whole, List.cons_append, List.cons.injEq] at split
      rw [split.1]
      exact below first (List.mem_cons_self ..)

/-- A scan of the file for its free pages gives a strict account. -/
theorem Accounts.scan (accounts : Accounts strict unit size used stack idle) (positive : 0 < unit)
    (free : Nat → Bool) (live : ∀ index, index < size → index * unit ∈ used → free index = false)
    (dead : ∀ index, index < size → idle (index * unit) → free index = true) :
    Accounts True unit size used (((List.range size).filter free).reverse.map (· * unit) ++ [size * unit])
      idle := by
  refine ⟨_, size, rfl, ?_, ?_, Or.inl rfl⟩
  · have freed : ((((List.range size).filter free).reverse.map (· * unit) : List Nat) : Multiset Nat) =
        ((Multiset.range size).filter fun index => free index = true).map (· * unit) := by
      have whole : ((List.range size).filter free : Multiset Nat) =
          (Multiset.range size).filter fun index => free index = true := by
        rw [← Multiset.coe_range, Multiset.filter_coe]
        simp
      rw [← Multiset.map_coe, Multiset.coe_reverse, whole]
    have rest : used = ((Multiset.range size).filter fun index => ¬ free index = true).map (· * unit) := by
      apply (Multiset.Nodup.ext (accounts.nodup positive) _).2
      · intro offset
        simp only [Multiset.mem_map, Multiset.mem_filter, Multiset.mem_range]
        constructor
        · intro member
          obtain ⟨index, below, rfl⟩ := accounts.used_lt positive member
          refine ⟨index, ⟨below, ?_⟩, rfl⟩
          rw [live index below member]
          exact Bool.false_ne_true
        · rintro ⟨index, ⟨below, taken⟩, rfl⟩
          rcases accounts.covered below with member | unused
          · exact member
          · exact absurd (dead index below unused) taken
      · apply Multiset.Nodup.map _ ((Multiset.nodup_range size).filter _)
        intro first second same
        exact Nat.eq_of_mul_eq_mul_right positive same
    rw [freed, rest, ← Multiset.map_add, add_comm, Multiset.filter_add_not, offsets]
  · intro offset member
    obtain ⟨index, inside, rfl⟩ := List.mem_map.1 member
    rw [List.mem_reverse, List.mem_filter, List.mem_range] at inside
    rcases accounts.covered inside.1 with taken | unused
    · rw [live index inside.1 taken] at inside
      exact absurd inside.2 Bool.false_ne_true
    · exact unused

end Rules

end SimpleNFast.FreeStack
