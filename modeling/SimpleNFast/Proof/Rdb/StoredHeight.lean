import SimpleNFast.Construction.Rdb.DbStruct
import SimpleNFast.Library.SearchTree

namespace SimpleNFast.Rdb
open BinaryTree

variable {α : Type}

/-- The stored height of a tree wraps at eight bits. -/
def storedHeight : BinaryTree α → Int
  | .nil => 0
  | .node _ left right => toChar (1 + max (storedHeight left) (storedHeight right))

/-- The balance factor of a tree uses its stored heights. -/
def balanceFactor : BinaryTree α → Int
  | .nil => 0
  | .node _ left right => storedHeight left - storedHeight right

@[simp] theorem balanceFactor_nil : balanceFactor (.nil : BinaryTree α) = 0 := rfl

@[simp] theorem balanceFactor_node (value : α) (left right : BinaryTree α) :
    balanceFactor (.node value left right) = storedHeight left - storedHeight right := rfl

/-- The tree form of `balanceTree` rotates in the same cases. -/
def balanceTree : BinaryTree α → BinaryTree α
  | .nil => .nil
  | .node value left right =>
      if balanceFactor (.node value left right) = -2 then
        if balanceFactor right = -1 then (BinaryTree.node value left right).rotateLeft
        else if balanceFactor right = 1 then (BinaryTree.node value left right.rotateRight).rotateLeft
        else .node value left right
      else if balanceFactor (.node value left right) = 2 then
        if balanceFactor left = -1 then (BinaryTree.node value left.rotateLeft right).rotateRight
        else if balanceFactor left = 1 then (BinaryTree.node value left right).rotateRight
        else .node value left right
      else .node value left right

/-- Rebalancing keeps the order of the payloads. -/
theorem toList_balanceTree (tree : BinaryTree α) : (balanceTree tree).toList = tree.toList := by
  cases tree with
  | nil => rfl
  | node value left right =>
      simp only [balanceTree]
      split_ifs <;> simp

theorem numNodes_balanceTree (tree : BinaryTree α) : (balanceTree tree).numNodes = tree.numNodes := by
  rw [← BinaryTree.length_toList, toList_balanceTree, BinaryTree.length_toList]

theorem toChar_of_le {value : Int} (low : -128 ≤ value) (high : value ≤ 127) :
    toChar value = value := by
  unfold toChar
  rw [Int.bmod_def]
  omega

theorem toChar_bounds (value : Int) : -128 ≤ toChar value ∧ toChar value ≤ 127 := by
  unfold toChar
  have low := @Int.le_bmod value 256 (by decide)
  have high := @Int.bmod_lt value 256 (by decide)
  omega

theorem storedHeight_bounds (tree : BinaryTree α) :
    -128 ≤ storedHeight tree ∧ storedHeight tree ≤ 127 := by
  cases tree with
  | nil => simp [storedHeight]
  | node value left right => exact toChar_bounds _

/-- A node below the wrap stores one more than its taller child. -/
theorem storedHeight_node (left right : BinaryTree α) (value : α) :
    storedHeight (.node value left right) =
      if max (storedHeight left) (storedHeight right) = 127 then -128
      else 1 + max (storedHeight left) (storedHeight right) := by
  have leftBounds := storedHeight_bounds left
  have rightBounds := storedHeight_bounds right
  simp only [storedHeight]
  split_ifs with top
  · rw [top]
    decide
  · exact toChar_of_le (by omega) (by omega)

/-- A negative stored height needs many records, and a positive one that many levels. -/
theorem storedHeight_numNodes (tree : BinaryTree α) :
    (0 < storedHeight tree → storedHeight tree ≤ tree.numNodes) ∧
      (storedHeight tree < 0 → 129 * (storedHeight tree + 128) + 128 ≤ tree.numNodes) := by
  induction tree with
  | nil => simp [storedHeight]
  | node value left right leftSize rightSize =>
      have leftBounds := storedHeight_bounds left
      have rightBounds := storedHeight_bounds right
      rw [storedHeight_node]
      simp only [BinaryTree.numNodes]
      split_ifs with top
      · refine ⟨by omega, fun _ => ?_⟩
        rcases max_choice (storedHeight left) (storedHeight right) with same | same
        · have := leftSize.1 (by omega)
          push_cast
          omega
        · have := rightSize.1 (by omega)
          push_cast
          omega
      · constructor
        · intro positive
          rcases max_choice (storedHeight left) (storedHeight right) with same | same
          · rw [same] at positive ⊢
            rcases (by omega : storedHeight left = 0 ∨ 0 < storedHeight left) with zero | above
            · push_cast
              omega
            · have := leftSize.1 above
              push_cast
              omega
          · rw [same] at positive ⊢
            rcases (by omega : storedHeight right = 0 ∨ 0 < storedHeight right) with zero | above
            · push_cast
              omega
            · have := rightSize.1 above
              push_cast
              omega
        · intro negative
          have leftRoom := leftSize.2 (by omega)
          have rightRoom := rightSize.2 (by omega)
          push_cast
          rcases max_choice (storedHeight left) (storedHeight right) with same | same <;>
            rw [same] <;> omega

/-- The number of records that a `short` slot index can address. -/
def slotLimit : Nat := 32768

/-- No double rotation to the left meets a missing pivot. -/
theorem rightLeft_pivot {left right : BinaryTree α} {value : α}
    (fits : (BinaryTree.node value left right).numNodes ≤ slotLimit)
    (outer : storedHeight left - storedHeight right = -2) (inner : balanceFactor right = 1) :
    ∃ first middle second pivot last,
      right = .node pivot (.node middle first second) last := by
  cases right with
  | nil => simp [balanceFactor] at inner
  | node pivot child last =>
      cases child with
      | node middle first second => exact ⟨first, middle, second, pivot, last, rfl⟩
      | nil =>
          simp only [balanceFactor, storedHeight] at inner
          have lastHeight : storedHeight last = -1 := by omega
          rw [storedHeight_node, show storedHeight (.nil : BinaryTree α) = 0 from rfl, lastHeight] at outer
          have leftHeight : storedHeight left = -1 := by
            simp at outer
            omega
          have leftRoom := (storedHeight_numNodes left).2 (by omega)
          have lastRoom := (storedHeight_numNodes last).2 (by omega)
          simp only [BinaryTree.numNodes, slotLimit] at fits
          omega

/-- No double rotation to the right meets a missing pivot. -/
theorem leftRight_pivot {left right : BinaryTree α} {value : α}
    (fits : (BinaryTree.node value left right).numNodes ≤ slotLimit)
    (outer : storedHeight left - storedHeight right = 2) (inner : balanceFactor left = -1) :
    ∃ first pivot second middle last,
      left = .node pivot first (.node middle second last) := by
  cases left with
  | nil => simp [balanceFactor] at inner
  | node pivot first child =>
      cases child with
      | node middle second last => exact ⟨first, pivot, second, middle, last, rfl⟩
      | nil =>
          simp only [balanceFactor, storedHeight] at inner
          have firstHeight : storedHeight first = -1 := by omega
          rw [storedHeight_node, show storedHeight (.nil : BinaryTree α) = 0 from rfl, firstHeight] at outer
          have rightHeight : storedHeight right = -1 := by
            simp at outer
            omega
          have rightRoom := (storedHeight_numNodes right).2 (by omega)
          have firstRoom := (storedHeight_numNodes first).2 (by omega)
          simp only [BinaryTree.numNodes, slotLimit] at fits
          omega

end SimpleNFast.Rdb
