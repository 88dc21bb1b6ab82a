/-
This file counts the threads of a finite crew by the places they are at.
-/

import Mathlib.Algebra.BigOperators.Group.Finset.Piecewise
import Mathlib.Data.Fintype.BigOperators
import Mathlib.Tactic

namespace SimpleNFast.Crew

variable {Thread Place : Type} [Fintype Thread]

/-- The number of threads at a place of a kind. -/
def count (kind : Place → Bool) (places : Thread → Place) : Nat :=
  ∑ thread, if kind (places thread) then 1 else 0

/-- The count is the size of the set of these threads. -/
theorem count_eq_card (kind : Place → Bool) (places : Thread → Place) :
    count kind places = (Finset.univ.filter fun thread => kind (places thread) = true).card :=
  (Finset.card_filter _ _).symm

theorem count_pos {kind : Place → Bool} {places : Thread → Place} {thread : Thread}
    (member : kind (places thread) = true) : 0 < count kind places := by
  rw [count_eq_card]
  exact Finset.card_pos.2 ⟨thread, by simpa using member⟩

theorem exists_of_count_pos {kind : Place → Bool} {places : Thread → Place} (positive : 0 < count kind places) :
    ∃ thread, kind (places thread) = true := by
  rw [count_eq_card] at positive
  obtain ⟨thread, member⟩ := Finset.card_pos.1 positive
  exact ⟨thread, by simpa using member⟩

/-- A crew without such threads counts zero. -/
theorem count_eq_zero {kind : Place → Bool} {places : Thread → Place} (none : ∀ thread, kind (places thread) = false) :
    count kind places = 0 := by
  by_contra positive
  obtain ⟨thread, member⟩ := exists_of_count_pos (Nat.pos_of_ne_zero positive)
  rw [none thread] at member
  cases member

/-- A change of all places that keeps the kind keeps the count. -/
theorem count_map (kind : Place → Bool) (change : Place → Place) (places : Thread → Place)
    (keeps : ∀ place, kind (change place) = kind place) :
    count kind (fun thread => change (places thread)) = count kind places := by
  unfold count
  simp only [keeps]

variable [DecidableEq Thread]

/-- One thread that moves changes the count by its own old and new place. -/
theorem count_update (kind : Place → Bool) (places : Thread → Place) (thread : Thread) (place : Place) :
    count kind (Function.update places thread place) + (if kind (places thread) then 1 else 0) =
      count kind places + (if kind place then 1 else 0) := by
  let weight : Thread → Nat := fun other => if kind (places other) then 1 else 0
  let rest : Nat := ∑ other ∈ Finset.univ \ {thread}, weight other
  have stayed : count kind places = (if kind (places thread) then 1 else 0) + rest :=
    Finset.sum_eq_add_sum_sdiff_singleton_of_mem (Finset.mem_univ thread) weight
  have moved : count kind (Function.update places thread place) = (if kind place then 1 else 0) + rest := by
    rw [← Finset.sum_update_of_mem (Finset.mem_univ thread) weight]
    refine Finset.sum_congr rfl fun other _ => ?_
    by_cases same : other = thread
    · simp [same]
    · simp [same, weight]
  omega

end SimpleNFast.Crew
