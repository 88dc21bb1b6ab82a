/-
This file develops the union of the multisets of a table with finitely many rows.
-/

import Mathlib.Tactic

namespace SimpleNFast

variable {α β : Type}

/-- The items of the first rows together. -/
def total (rows : Nat) (row : Nat → Multiset α) : Multiset α := (Multiset.range rows).bind row

section Rules

variable {rows index : Nat} {row : Nat → Multiset α}

theorem mem_total {item : α} : item ∈ total rows row ↔ ∃ index, index < rows ∧ item ∈ row index := by
  simp [total]

theorem total_zero : total rows (fun _ => (0 : Multiset α)) = 0 := by
  simp [total]

/-- A change of one row leaves the rest of the union as it is. -/
theorem total_split (row : Nat → Multiset α) (inside : index < rows) :
    ∃ rest, total rows row = row index + rest ∧
      ∀ items, total rows (Function.update row index items) = items + rest := by
  have member : index ∈ Multiset.range rows := Multiset.mem_range.2 inside
  refine ⟨((Multiset.range rows).erase index).bind row, ?_, ?_⟩
  · rw [total, ← Multiset.cons_bind, Multiset.cons_erase member]
  · intro items
    have others : ((Multiset.range rows).erase index).bind (Function.update row index items) =
        ((Multiset.range rows).erase index).bind row := by
      apply Multiset.bind_congr
      intro other inside
      rw [Function.update_of_ne]
      rintro rfl
      exact (Multiset.nodup_range rows).notMem_erase inside
    have whole : index ::ₘ (Multiset.range rows).erase index = Multiset.range rows :=
      Multiset.cons_erase member
    rw [total]
    conv_lhs => rw [← whole]
    rw [Multiset.cons_bind, Function.update_self, others]

theorem total_map (view : α → β) : total rows (fun index => (row index).map view) =
    (total rows row).map view := by
  rw [total, total, Multiset.map_bind]

/-- Without repetition in the union, an item stands in one row only. -/
theorem row_unique (nodup : (total rows row).Nodup) {first second : Nat} {item : α} (firstIn : first < rows)
    (secondIn : second < rows) (inFirst : item ∈ row first) (inSecond : item ∈ row second) :
    first = second := by
  by_contra differs
  obtain ⟨rest, whole, replaced⟩ := total_split row firstIn
  rw [whole, Multiset.nodup_add] at nodup
  apply Multiset.disjoint_left.1 nodup.2.2 inFirst
  have others := replaced 0
  rw [zero_add] at others
  rw [← others]
  refine mem_total.2 ⟨second, secondIn, ?_⟩
  rw [Function.update_of_ne (Ne.symm differs)]
  exact inSecond

theorem row_nodup (nodup : (total rows row).Nodup) (inside : index < rows) : (row index).Nodup := by
  obtain ⟨rest, whole, -⟩ := total_split row inside
  rw [whole, Multiset.nodup_add] at nodup
  exact nodup.1

end Rules

end SimpleNFast
