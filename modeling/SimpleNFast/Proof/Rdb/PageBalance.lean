import SimpleNFast.Proof.Rdb.AvlTree
import SimpleNFast.Proof.Rdb.KeyPage

namespace SimpleNFast.Rdb
open BinaryTree

namespace Holds

variable {page : KeyPage} {cell : Cell} {left right : BinaryTree Cell}

theorem leftLowered_eq (held : Holds page.keys (.node cell left right)) :
    page.leftLowered (some cell.slot) = leftLowered left right := by
  have outer := KeyPage.balanceFactor_root held
  rw [rootSlot_node] at outer
  rw [KeyPage.leftLowered, outer, KeyPage.rightOf_linked held.linked, KeyPage.balanceFactor_root held.2.2,
    leftLowered, balanceFactor_node]

theorem rightLowered_eq (held : Holds page.keys (.node cell left right)) :
    page.rightLowered (some cell.slot) = rightLowered left right := by
  have outer := KeyPage.balanceFactor_root held
  rw [rootSlot_node] at outer
  rw [KeyPage.rightLowered, outer, KeyPage.leftOf_linked held.linked, KeyPage.balanceFactor_root held.2.1,
    rightLowered, balanceFactor_node]

theorem maxEffect_eq {tree : BinaryTree Cell} {fuel : Nat} (deep : tree.height < fuel)
    (held : Holds page.keys tree) : page.maxEffect fuel (rootSlot tree) = maxEffect tree := by
  induction tree generalizing fuel with
  | nil =>
      cases fuel with
      | zero => simp at deep
      | succ fuel => rfl
  | node cell left right leftEq rightEq =>
      cases fuel with
      | zero => simp at deep
      | succ fuel =>
          simp only [BinaryTree.height] at deep
          rw [rootSlot_node, KeyPage.maxEffect, KeyPage.rightOf_linked held.linked]
          cases right with
          | nil => rfl
          | node next inner outer =>
              have below : page.maxEffect fuel (rootSlot (.node next inner outer)) = _ := rightEq (by omega) held.2.2
              rw [rootSlot_node] at below ⊢
              dsimp only
              rw [below, held.rightLowered_eq]
              rfl

/-- The effect on the records is the effect on the tree. -/
theorem removeEffect_eq {tree : BinaryTree Cell} {fuel : Nat} (key : Bytes) (deep : tree.height < fuel)
    (held : Holds page.keys tree) : page.removeEffect fuel (rootSlot tree) key = removeEffect (keyOrder key) tree := by
  induction tree generalizing fuel with
  | nil =>
      cases fuel with
      | zero => simp at deep
      | succ fuel => rfl
  | node cell left right leftEq rightEq =>
      cases fuel with
      | zero => simp at deep
      | succ fuel =>
          simp only [BinaryTree.height] at deep
          have largest : page.maxEffect fuel (rootSlot left) = _ := maxEffect_eq (by omega) held.2.1
          simp only [rootSlot_node, KeyPage.removeEffect, KeyPage.key_linked held.linked,
            KeyPage.leftOf_linked held.linked, KeyPage.rightOf_linked held.linked, removeEffect, keyOrder]
          cases keycmp key cell.key with
          | lt =>
              dsimp only
              rw [leftEq (by omega) held.2.1, held.leftLowered_eq]
          | gt =>
              dsimp only
              rw [rightEq (by omega) held.2.2, held.rightLowered_eq]
          | eq =>
              cases left with
              | nil => rfl
              | node first outer inner =>
                  cases right with
                  | nil => rfl
                  | node next more last =>
                      simp only [rootSlot_node] at largest ⊢
                      rw [largest, held.leftLowered_eq]

/-- A balanced page holds a balanced tree. -/
theorem avl_of_balanced {tree : BinaryTree Cell} {height : Nat} (held : Holds page.keys tree)
    (balanced : Balanced page (rootSlot tree) height) : Avl tree ∧ tree.height = height := by
  induction tree generalizing height with
  | nil =>
      cases balanced
      exact ⟨trivial, rfl⟩
  | node cell left right leftAvl rightAvl =>
      rw [rootSlot_node] at balanced
      cases balanced with
      | node leftPart rightPart stored closeLeft closeRight =>
          rw [KeyPage.leftOf_linked held.linked] at leftPart
          rw [KeyPage.rightOf_linked held.linked] at rightPart
          obtain ⟨first, rfl⟩ := leftAvl held.2.1 leftPart
          obtain ⟨second, rfl⟩ := rightAvl held.2.2 rightPart
          exact ⟨⟨first, second, closeLeft, closeRight⟩, by simp only [BinaryTree.height]; omega⟩

/-- A low balanced tree makes its page balanced. -/
theorem balanced_of_avl {tree : BinaryTree Cell} (held : Holds page.keys tree) (avl : Avl tree)
    (low : tree.height ≤ 127) : Balanced page (rootSlot tree) tree.height := by
  induction tree with
  | nil => exact Balanced.nil
  | node cell left right leftBalanced rightBalanced =>
      obtain ⟨leftAvl, rightAvl, closeLeft, closeRight⟩ := avl
      have stored := storedHeight_eq low
      simp only [BinaryTree.height] at low stored ⊢
      rw [Nat.add_comm]
      refine Balanced.node ?_ ?_ ?_ closeLeft closeRight
      · rw [KeyPage.leftOf_linked held.linked]
        exact leftBalanced held.2.1 leftAvl (by omega)
      · rw [KeyPage.rightOf_linked held.linked]
        exact rightBalanced held.2.2 rightAvl (by omega)
      · rw [KeyPage.krec_some held.1]
        dsimp only
        rw [stored]
        push_cast
        omega

end Holds

namespace TreePage

variable {page : KeyPage} {tree : BinaryTree Cell}

theorem numNodes_le (represented : TreePage page tree) : tree.numNodes ≤ slotLimit := by
  have roomy := represented.room
  have fits := represented.fits
  omega

theorem isBalanced_iff (represented : TreePage page tree) : page.IsBalanced ↔ Avl tree := by
  rw [KeyPage.IsBalanced, represented.root]
  constructor
  · rintro ⟨height, balanced⟩
    exact (represented.held.avl_of_balanced balanced).1
  · intro avl
    have low := avl.low represented.numNodes_le
    exact ⟨tree.height, represented.held.balanced_of_avl avl (by omega)⟩

/-- An operation on a balanced page leaves it balanced unless it is stuck. -/
theorem apply_balanced_iff (represented : TreePage page tree) (balanced : page.IsBalanced) (op : PageOp) :
    (op.apply page).IsBalanced ↔ ¬ op.Stuck page := by
  have avl := represented.isBalanced_iff.1 balanced
  have low := avl.low represented.numNodes_le
  cases op with
  | put key voff =>
      have grown := avl.insert (by omega) (keyOrder key) (offered page.getFree key voff) (revalue voff)
      exact iff_of_true ((represented.put key voff).isBalanced_iff.2 grown.avl) id
  | remove key =>
      have describes := removeEffect_describes (keyOrder key) relocate avl (by omega)
      rw [PageOp.apply, (represented.remove key).isBalanced_iff, PageOp.Stuck, represented.root,
        represented.held.removeEffect_eq key represented.deep]
      cases effect : removeEffect (keyOrder key) tree with
      | kept =>
          rw [effect] at describes
          exact iff_of_true describes.1 (by decide)
      | lowered =>
          rw [effect] at describes
          exact iff_of_true describes.1 (by decide)
      | stuck =>
          rw [effect] at describes
          exact iff_of_false describes.1 (by simp)

end TreePage

theorem pageAfter_append (kpSize : Nat) (ops : List PageOp) (op : PageOp) :
    pageAfter kpSize (ops ++ [op]) = op.apply (pageAfter kpSize ops) := by
  rw [pageAfter, List.foldl_append]
  rfl

theorem pageAfter_treePage {kpSize : Nat} (fits : numOfKeysInPage kpSize ≤ slotLimit) (ops : List PageOp) :
    ∃ tree, TreePage (pageAfter kpSize ops) tree := foldl_treePage (treePage_init fits) ops

/-- A page is balanced after operations that are never stuck. -/
theorem pageAfter_balanced {kpSize : Nat} (fits : numOfKeysInPage kpSize ≤ slotLimit) {ops : List PageOp}
    (free : ∀ done op, done ++ [op] <+: ops → ¬ op.Stuck (pageAfter kpSize done)) :
    (pageAfter kpSize ops).IsBalanced := by
  induction ops using List.reverseRecOn with
  | nil => exact ⟨0, Balanced.nil⟩
  | append_singleton ops op inductionHypothesis =>
      obtain ⟨tree, represented⟩ := pageAfter_treePage fits ops
      have before := inductionHypothesis fun done op within => free done op (within.trans (List.prefix_append ops _))
      rw [pageAfter_append, represented.apply_balanced_iff before op]
      exact free ops op (List.prefix_refl _)

/-- A key page is balanced all the time exactly when no removal is stuck. -/
theorem always_balanced_iff (kpSize : Nat) (fits : numOfKeysInPage kpSize ≤ slotLimit) (ops : List PageOp) :
    (∀ done, done <+: ops → (pageAfter kpSize done).IsBalanced) ↔
      ∀ done op, done ++ [op] <+: ops → ¬ op.Stuck (pageAfter kpSize done) := by
  constructor
  · intro balanced done op within
    obtain ⟨tree, represented⟩ := pageAfter_treePage fits done
    have before := balanced done ((List.prefix_append done [op]).trans within)
    rw [← represented.apply_balanced_iff before op, ← pageAfter_append]
    exact balanced _ within
  · intro free done within
    exact pageAfter_balanced fits fun first op before => free first op (before.trans within)

/-- A root with one key on its left and three on its right. -/
def fiveKeys : List PageOp :=
  [.put [98] (some 0), .put [97] (some 256), .put [100] (some 512), .put [99] (some 768), .put [101] (some 1024)]

theorem fiveKeys_free (done : List PageOp) (op : PageOp) (within : done ++ [op] <+: fiveKeys) :
    ¬ op.Stuck (pageAfter 1024 done) := by
  have puts : ∀ op ∈ fiveKeys, ∃ key voff, op = .put key voff := by
    simp [fiveKeys]
  obtain ⟨key, voff, rfl⟩ := puts op (within.subset (by simp))
  exact id

theorem always_balanced_iff_fiveKeys : (pageAfter 1024 fiveKeys).IsBalanced :=
  (always_balanced_iff 1024 (by decide) fiveKeys).2 fiveKeys_free fiveKeys (List.prefix_refl _)

/-- The removal of the key on the left finds no rotation at the root. -/
theorem fiveKeys_unbalanced : ¬ (pageAfter 1024 (fiveKeys ++ [.remove [97]])).IsBalanced := by
  have fits : numOfKeysInPage 1024 ≤ slotLimit := by decide
  have stuck : (PageOp.remove [97]).Stuck (pageAfter 1024 fiveKeys) := by decide
  obtain ⟨tree, represented⟩ := pageAfter_treePage fits fiveKeys
  rw [pageAfter_append]
  intro balanced
  exact (represented.apply_balanced_iff (pageAfter_balanced fits fiveKeys_free) (.remove [97])).1 balanced stuck

end SimpleNFast.Rdb
