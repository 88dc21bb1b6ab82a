import SimpleNFast.Proof.Rdb.StoredHeight
import SimpleNFast.Construction.Rdb.PageMap

namespace SimpleNFast.Rdb
open BinaryTree

variable {α : Type}

/-- The heights of two subtrees differ by one at most. -/
def Close (left right : BinaryTree α) : Prop := left.height ≤ right.height + 1 ∧ right.height ≤ left.height + 1

/-- All pairs of subtrees have close heights. -/
def Avl : BinaryTree α → Prop
  | .nil => True
  | .node _ left right => Avl left ∧ Avl right ∧ Close left right

/-- The stored height of a low tree is its height. -/
theorem storedHeight_eq {tree : BinaryTree α} (low : tree.height ≤ 127) : storedHeight tree = tree.height := by
  induction tree with
  | nil => rfl
  | node value left right leftEq rightEq =>
      simp only [BinaryTree.height] at low ⊢
      rw [storedHeight, leftEq (by omega), rightEq (by omega), toChar_of_le (by omega) (by omega)]
      push_cast
      omega

/-- A balanced tree with few nodes is low. -/
theorem Avl.nodes {tree : BinaryTree α} (avl : Avl tree) : 2 ^ (tree.height / 2) ≤ tree.numNodes + 1 := by
  induction tree with
  | nil => simp
  | node value left right leftNodes rightNodes =>
      obtain ⟨leftAvl, rightAvl, close⟩ := avl
      have leftBound := leftNodes leftAvl
      have rightBound := rightNodes rightAvl
      have power : ∀ {low high : Nat}, low ≤ high → 2 ^ low ≤ 2 ^ high := Nat.pow_le_pow_right (by decide)
      obtain ⟨closeLeft, closeRight⟩ := close
      simp only [BinaryTree.height, BinaryTree.numNodes]
      by_cases tall : 2 ≤ max left.height right.height + 1
      · have half : (max left.height right.height + 1) / 2 = (max left.height right.height - 1) / 2 + 1 := by omega
        have leftPower : 2 ^ ((max left.height right.height - 1) / 2) ≤ 2 ^ (left.height / 2) := power (by omega)
        have rightPower : 2 ^ ((max left.height right.height - 1) / 2) ≤ 2 ^ (right.height / 2) := power (by omega)
        rw [half, pow_succ]
        omega
      · have none : (max left.height right.height + 1) / 2 = 0 := by omega
        rw [none]
        omega

theorem Avl.low {tree : BinaryTree α} (avl : Avl tree) (fits : tree.numNodes ≤ slotLimit) : tree.height ≤ 40 := by
  by_contra high
  have nodes := avl.nodes
  have power : 2 ^ 20 ≤ 2 ^ (tree.height / 2) := Nat.pow_le_pow_right (by decide) (by omega)
  unfold slotLimit at fits
  omega

theorem balanceFactor_eq {left right : BinaryTree α} (value : α) (low : (node value left right).height ≤ 127) :
    balanceFactor (.node value left right) = (left.height : Int) - right.height := by
  simp only [BinaryTree.height] at low
  rw [balanceFactor_node, storedHeight_eq (by omega), storedHeight_eq (by omega)]

/-- A node with close subtrees stays as it is. -/
theorem balanceTree_close {left right : BinaryTree α} (value : α) (low : (node value left right).height ≤ 127)
    (close : Close left right) : balanceTree (.node value left right) = .node value left right := by
  obtain ⟨closeLeft, closeRight⟩ := close
  have factor := balanceFactor_eq value low
  rw [balanceTree, if_neg (by omega), if_neg (by omega)]

theorem balanceTree_avl {tree : BinaryTree α} (avl : Avl tree) (low : tree.height ≤ 127) : balanceTree tree = tree := by
  cases tree with
  | nil => rfl
  | node value left right => exact balanceTree_close value low avl.2.2

/-- A node whose taller child leans neither way stays as it is. -/
theorem balanceTree_even {left right : BinaryTree α} (value : α) (low : (node value left right).height ≤ 127)
    (even : left.height = right.height + 2 ∧ balanceFactor left = 0 ∨
      right.height = left.height + 2 ∧ balanceFactor right = 0) :
    balanceTree (.node value left right) = .node value left right := by
  have factor := balanceFactor_eq value low
  obtain ⟨tall, inner⟩ | ⟨tall, inner⟩ := even
  · rw [balanceTree, if_neg (by omega), if_pos (by omega), if_neg (by omega), if_neg (by omega)]
  · rw [balanceTree, if_pos (by omega), if_neg (by omega), if_neg (by omega)]

/-- A rotation makes a node balanced whose left child is taller by two and leans to one side. -/
theorem balanceTree_left {left right : BinaryTree α} (value : α) (leftAvl : Avl left) (rightAvl : Avl right)
    (low : left.height ≤ 126) (tall : left.height = right.height + 2) (leans : balanceFactor left ≠ 0) :
    Avl (balanceTree (.node value left right)) ∧ (balanceTree (.node value left right)).height = left.height := by
  have whole : (node value left right).height ≤ 127 := by
    simp only [BinaryTree.height]
    omega
  have factor := balanceFactor_eq value whole
  cases left with
  | nil => simp at tall
  | node pivot outer inner =>
      obtain ⟨outerAvl, innerAvl, closeOuter, closeInner⟩ := leftAvl
      have pivotFactor := balanceFactor_eq pivot (show (node pivot outer inner).height ≤ 127 by omega)
      simp only [BinaryTree.height] at tall low ⊢
      rw [balanceTree, if_neg (by rw [factor]; simp only [BinaryTree.height]; omega),
        if_pos (by rw [factor]; simp only [BinaryTree.height]; omega)]
      by_cases left : balanceFactor (.node pivot outer inner) = -1
      · rw [if_pos left]
        cases inner with
        | nil =>
            simp only [BinaryTree.height] at pivotFactor
            omega
        | node middle first second =>
            obtain ⟨firstAvl, secondAvl, closeFirst, closeSecond⟩ := innerAvl
            simp only [BinaryTree.height, rotateLeft, rotateRight, Avl, Close] at *
            refine ⟨⟨⟨outerAvl, firstAvl, ?_, ?_⟩, ⟨secondAvl, rightAvl, ?_, ?_⟩, ?_, ?_⟩, ?_⟩ <;> omega
      · rw [if_neg left, if_pos (by omega)]
        simp only [rotateRight, Avl, Close, BinaryTree.height]
        refine ⟨⟨outerAvl, ⟨innerAvl, rightAvl, ?_, ?_⟩, ?_, ?_⟩, ?_⟩ <;> omega

/-- A rotation makes a node balanced whose right child is taller by two and leans to one side. -/
theorem balanceTree_right {left right : BinaryTree α} (value : α) (leftAvl : Avl left) (rightAvl : Avl right)
    (low : right.height ≤ 126) (tall : right.height = left.height + 2) (leans : balanceFactor right ≠ 0) :
    Avl (balanceTree (.node value left right)) ∧ (balanceTree (.node value left right)).height = right.height := by
  have whole : (node value left right).height ≤ 127 := by
    simp only [BinaryTree.height]
    omega
  have factor := balanceFactor_eq value whole
  cases right with
  | nil => simp at tall
  | node pivot inner outer =>
      obtain ⟨innerAvl, outerAvl, closeInner, closeOuter⟩ := rightAvl
      have pivotFactor := balanceFactor_eq pivot (show (node pivot inner outer).height ≤ 127 by omega)
      simp only [BinaryTree.height] at tall low ⊢
      rw [balanceTree, if_pos (by rw [factor]; simp only [BinaryTree.height]; omega)]
      by_cases right : balanceFactor (.node pivot inner outer) = -1
      · rw [if_pos right]
        simp only [rotateLeft, Avl, Close, BinaryTree.height]
        refine ⟨⟨⟨leftAvl, innerAvl, ?_, ?_⟩, outerAvl, ?_, ?_⟩, ?_⟩ <;> omega
      · rw [if_neg right, if_pos (by omega)]
        cases inner with
        | nil =>
            simp only [BinaryTree.height] at pivotFactor closeInner closeOuter
            omega
        | node middle first second =>
            obtain ⟨firstAvl, secondAvl, closeFirst, closeSecond⟩ := innerAvl
            simp only [BinaryTree.height, rotateLeft, rotateRight, Avl, Close] at *
            refine ⟨⟨⟨leftAvl, firstAvl, ?_, ?_⟩, ⟨secondAvl, outerAvl, ?_, ?_⟩, ?_, ?_⟩, ?_⟩ <;> omega

/-- A tree after a growth is as high as before, or higher by one and leaning to one side. -/
structure Grown (before after : BinaryTree α) : Prop where
  avl : Avl after
  height : after.height = before.height ∨
    (after.height = before.height + 1 ∧ (before = .nil ∨ balanceFactor after ≠ 0))

/-- A growth on the left is a growth of the node. -/
theorem Grown.left {left grown right : BinaryTree α} (value : α) (avl : Avl (.node value left right))
    (low : (node value left right).height ≤ 125) (growth : Grown left grown) :
    Grown (.node value left right) (balanceTree (.node value grown right)) := by
  obtain ⟨leftAvl, rightAvl, closeLeft, closeRight⟩ := avl
  simp only [BinaryTree.height] at low
  by_cases close : grown.height ≤ right.height + 1
  · have higher : left.height ≤ grown.height := by
      obtain same | ⟨same, -⟩ := growth.height <;> omega
    have whole : (node value grown right).height ≤ 127 := by
      simp only [BinaryTree.height]
      omega
    have closeAfter : Close grown right := ⟨close, by omega⟩
    rw [balanceTree_close value whole closeAfter]
    refine ⟨⟨growth.avl, rightAvl, closeAfter⟩, ?_⟩
    have factor := balanceFactor_eq value whole
    obtain same | ⟨same, -⟩ := growth.height
    · left
      simp only [BinaryTree.height, same]
    · by_cases taller : left.height < right.height
      · left
        simp only [BinaryTree.height]
        omega
      · right
        simp only [BinaryTree.height]
        exact ⟨by omega, .inr (by omega)⟩
  · obtain same | ⟨same, from_nil | leans⟩ := growth.height
    · omega
    · rw [from_nil] at same
      simp only [BinaryTree.height] at same
      omega
    · obtain ⟨balanced, height⟩ := balanceTree_left value growth.avl rightAvl (by omega) (by omega) leans
      refine ⟨balanced, .inl ?_⟩
      simp only [height, BinaryTree.height]
      omega

/-- A growth on the right is a growth of the node. -/
theorem Grown.right {left right grown : BinaryTree α} (value : α) (avl : Avl (.node value left right))
    (low : (node value left right).height ≤ 125) (growth : Grown right grown) :
    Grown (.node value left right) (balanceTree (.node value left grown)) := by
  obtain ⟨leftAvl, rightAvl, closeLeft, closeRight⟩ := avl
  simp only [BinaryTree.height] at low
  by_cases close : grown.height ≤ left.height + 1
  · have higher : right.height ≤ grown.height := by
      obtain same | ⟨same, -⟩ := growth.height <;> omega
    have whole : (node value left grown).height ≤ 127 := by
      simp only [BinaryTree.height]
      omega
    have closeAfter : Close left grown := ⟨by omega, close⟩
    rw [balanceTree_close value whole closeAfter]
    refine ⟨⟨leftAvl, growth.avl, closeAfter⟩, ?_⟩
    have factor := balanceFactor_eq value whole
    obtain same | ⟨same, -⟩ := growth.height
    · left
      simp only [BinaryTree.height, same]
    · by_cases taller : right.height < left.height
      · left
        simp only [BinaryTree.height]
        omega
      · right
        simp only [BinaryTree.height]
        exact ⟨by omega, .inr (by omega)⟩
  · obtain same | ⟨same, from_nil | leans⟩ := growth.height
    · omega
    · rw [from_nil] at same
      simp only [BinaryTree.height] at same
      omega
    · obtain ⟨balanced, height⟩ := balanceTree_right value leftAvl growth.avl (by omega) (by omega) leans
      refine ⟨balanced, .inl ?_⟩
      simp only [height, BinaryTree.height]
      omega

/-- An insertion keeps a tree balanced. -/
theorem Avl.insert {tree : BinaryTree α} (avl : Avl tree) (low : tree.height ≤ 125) (order : α → Ordering)
    (added : Option α) (replace : α → α) : Grown tree (tree.insert balanceTree order added replace) := by
  induction tree with
  | nil =>
      cases added with
      | none => exact ⟨trivial, .inl rfl⟩
      | some payload =>
          have alone : balanceTree (node payload .nil .nil) = .node payload .nil .nil :=
            balanceTree_close payload (by simp) ⟨by simp, by simp⟩
          rw [BinaryTree.insert, Option.elim_some, alone]
          exact ⟨⟨trivial, trivial, by simp, by simp⟩, .inr ⟨by simp, .inl rfl⟩⟩
  | node value left right leftInsert rightInsert =>
      have parts := low
      simp only [BinaryTree.height] at parts
      rw [BinaryTree.insert]
      cases order value with
      | lt => exact (leftInsert avl.1 (by omega)).left value avl low
      | eq =>
          dsimp only
          have whole : (node (replace value) left right).height ≤ 127 := by
            simp only [BinaryTree.height]
            omega
          rw [balanceTree_close (replace value) whole avl.2.2]
          exact ⟨avl, .inl rfl⟩
      | gt => exact (rightInsert avl.2.1 (by omega)).right value avl low


/-- The tree form of `leftLowered`. -/
def leftLowered (left right : BinaryTree α) : Effect :=
  if storedHeight left - storedHeight right = 1 then .lowered
  else if storedHeight left - storedHeight right = 0 then .kept
  else if balanceFactor right = 0 then .stuck
  else .lowered

/-- The tree form of `rightLowered`. -/
def rightLowered (left right : BinaryTree α) : Effect :=
  if storedHeight left - storedHeight right = -1 then .lowered
  else if storedHeight left - storedHeight right = 0 then .kept
  else if balanceFactor left = 0 then .stuck
  else .lowered

/-- The tree form of `maxEffect`. -/
def maxEffect : BinaryTree α → Effect
  | .nil => .kept
  | .node _ _ .nil => .lowered
  | .node _ left right => (maxEffect right).over (rightLowered left right)

/-- The tree form of `removeEffect`. -/
def removeEffect (order : α → Ordering) : BinaryTree α → Effect
  | .nil => .kept
  | .node value left right =>
      match order value with
      | .lt => (removeEffect order left).over (leftLowered left right)
      | .eq =>
          match left, right with
          | .nil, _ => .lowered
          | _, .nil => .lowered
          | left, right => (maxEffect left).over (leftLowered left right)
      | .gt => (removeEffect order right).over (rightLowered left right)

/-- What an effect says about the tree before and after it. -/
def Effect.Describes (effect : Effect) (before after : BinaryTree α) : Prop :=
  match effect with
  | .kept => Avl after ∧ after.height = before.height
  | .lowered => Avl after ∧ after.height + 1 = before.height
  | .stuck => ¬ Avl after ∧ after.height = before.height

namespace Effect.Describes

variable {effect : Effect} {left right changed : BinaryTree α} {value : α}

/-- A node with a child of the same height is not rotated. -/
theorem same_left (next : α) (avl : Avl (.node value left right)) (low : (node value left right).height ≤ 125)
    (same : changed.height = left.height) : balanceTree (.node next changed right) = .node next changed right := by
  obtain ⟨-, -, closeLeft, closeRight⟩ := avl
  simp only [BinaryTree.height] at low
  apply balanceTree_close
  · simp only [BinaryTree.height]
    omega
  · exact ⟨by omega, by omega⟩

theorem same_right (next : α) (avl : Avl (.node value left right)) (low : (node value left right).height ≤ 125)
    (same : changed.height = right.height) : balanceTree (.node next left changed) = .node next left changed := by
  obtain ⟨-, -, closeLeft, closeRight⟩ := avl
  simp only [BinaryTree.height] at low
  apply balanceTree_close
  · simp only [BinaryTree.height]
    omega
  · exact ⟨by omega, by omega⟩

/-- The effect on a node whose left child has changed. -/
theorem onLeft (next : α) (avl : Avl (.node value left right)) (low : (node value left right).height ≤ 125)
    (describes : effect.Describes left changed) :
    (effect.over (leftLowered left right)).Describes (.node value left right) (balanceTree (.node next changed right)) := by
  have closed := avl
  obtain ⟨leftAvl, rightAvl, closeLeft, closeRight⟩ := closed
  have parts := low
  simp only [BinaryTree.height] at parts
  cases effect with
  | kept =>
      obtain ⟨changedAvl, same⟩ := describes
      rw [same_left next avl low same, Effect.over, if_neg (by decide)]
      exact ⟨⟨changedAvl, rightAvl, by omega, by omega⟩, by simp only [BinaryTree.height, same]⟩
  | stuck =>
      obtain ⟨unbalanced, same⟩ := describes
      rw [same_left next avl low same, Effect.over, if_neg (by decide)]
      exact ⟨fun avl => unbalanced avl.1, by simp only [BinaryTree.height, same]⟩
  | lowered =>
      obtain ⟨changedAvl, less⟩ := describes
      have whole : (node next changed right).height ≤ 127 := by
        simp only [BinaryTree.height]
        omega
      rw [Effect.over, if_pos rfl, leftLowered, storedHeight_eq (by omega), storedHeight_eq (by omega)]
      by_cases tall : (left.height : Int) - right.height = 1
      · have close : Close changed right := ⟨by omega, by omega⟩
        rw [if_pos tall, balanceTree_close next whole close]
        refine ⟨⟨changedAvl, rightAvl, close⟩, ?_⟩
        simp only [BinaryTree.height]
        omega
      · rw [if_neg tall]
        by_cases even : (left.height : Int) - right.height = 0
        · have close : Close changed right := ⟨by omega, by omega⟩
          rw [if_pos even, balanceTree_close next whole close]
          refine ⟨⟨changedAvl, rightAvl, close⟩, ?_⟩
          simp only [BinaryTree.height]
          omega
        · rw [if_neg even]
          by_cases inner : balanceFactor right = 0
          · rw [if_pos inner, balanceTree_even next whole (.inr ⟨by omega, inner⟩)]
            refine ⟨fun avl => ?_, ?_⟩
            · obtain ⟨-, -, -, close⟩ := avl
              omega
            · simp only [BinaryTree.height]
              omega
          · obtain ⟨balanced, height⟩ :=
              balanceTree_right next changedAvl rightAvl (by omega) (by omega) inner
            rw [if_neg inner]
            refine ⟨balanced, ?_⟩
            rw [height]
            simp only [BinaryTree.height]
            omega

/-- The effect on a node whose right child has changed. -/
theorem onRight (next : α) (avl : Avl (.node value left right)) (low : (node value left right).height ≤ 125)
    (describes : effect.Describes right changed) :
    (effect.over (rightLowered left right)).Describes (.node value left right)
      (balanceTree (.node next left changed)) := by
  have closed := avl
  obtain ⟨leftAvl, rightAvl, closeLeft, closeRight⟩ := closed
  have parts := low
  simp only [BinaryTree.height] at parts
  cases effect with
  | kept =>
      obtain ⟨changedAvl, same⟩ := describes
      rw [same_right next avl low same, Effect.over, if_neg (by decide)]
      exact ⟨⟨leftAvl, changedAvl, by omega, by omega⟩, by simp only [BinaryTree.height, same]⟩
  | stuck =>
      obtain ⟨unbalanced, same⟩ := describes
      rw [same_right next avl low same, Effect.over, if_neg (by decide)]
      exact ⟨fun avl => unbalanced avl.2.1, by simp only [BinaryTree.height, same]⟩
  | lowered =>
      obtain ⟨changedAvl, less⟩ := describes
      have whole : (node next left changed).height ≤ 127 := by
        simp only [BinaryTree.height]
        omega
      rw [Effect.over, if_pos rfl, rightLowered, storedHeight_eq (by omega), storedHeight_eq (by omega)]
      by_cases tall : (left.height : Int) - right.height = -1
      · have close : Close left changed := ⟨by omega, by omega⟩
        rw [if_pos tall, balanceTree_close next whole close]
        refine ⟨⟨leftAvl, changedAvl, close⟩, ?_⟩
        simp only [BinaryTree.height]
        omega
      · rw [if_neg tall]
        by_cases even : (left.height : Int) - right.height = 0
        · have close : Close left changed := ⟨by omega, by omega⟩
          rw [if_pos even, balanceTree_close next whole close]
          refine ⟨⟨leftAvl, changedAvl, close⟩, ?_⟩
          simp only [BinaryTree.height]
          omega
        · rw [if_neg even]
          by_cases inner : balanceFactor left = 0
          · rw [if_pos inner, balanceTree_even next whole (.inl ⟨by omega, inner⟩)]
            refine ⟨fun avl => ?_, ?_⟩
            · obtain ⟨-, -, close, -⟩ := avl
              omega
            · simp only [BinaryTree.height]
              omega
          · obtain ⟨balanced, height⟩ :=
              balanceTree_left next leftAvl changedAvl (by omega) (by omega) inner
            rw [if_neg inner]
            refine ⟨balanced, ?_⟩
            rw [height]
            simp only [BinaryTree.height]
            omega

/-- The only child of a node takes its place. -/
theorem child_right (avl : Avl (.node value .nil right)) (low : (node value .nil right).height ≤ 125) :
    Effect.lowered.Describes (.node value .nil right) (balanceTree right) := by
  simp only [BinaryTree.height] at low
  rw [balanceTree_avl avl.2.1 (by omega)]
  exact ⟨avl.2.1, by simp⟩

theorem child_left (avl : Avl (.node value left .nil)) (low : (node value left .nil).height ≤ 125) :
    Effect.lowered.Describes (.node value left .nil) (balanceTree left) := by
  simp only [BinaryTree.height] at low
  rw [balanceTree_avl avl.1 (by omega)]
  exact ⟨avl.1, by simp⟩

end Effect.Describes

theorem maxEffect_describes {tree : BinaryTree α} (avl : Avl tree) (low : tree.height ≤ 125) :
    (maxEffect tree).Describes tree (tree.removeMax balanceTree) := by
  induction tree with
  | nil => exact ⟨trivial, rfl⟩
  | node value left right leftMax rightMax =>
      cases right with
      | nil => exact Effect.Describes.child_left avl low
      | node next inner outer =>
          have parts := low
          simp only [BinaryTree.height] at parts
          rw [maxEffect, BinaryTree.removeMax]
          · refine Effect.Describes.onRight value avl low (rightMax avl.2.1 ?_)
            simp only [BinaryTree.height]
            omega
          · simp
          · simp

/-- The effect of a removal describes the tree after it. -/
theorem removeEffect_describes (order : α → Ordering) (move : α → α → α) {tree : BinaryTree α} (avl : Avl tree)
    (low : tree.height ≤ 125) : (removeEffect order tree).Describes tree (tree.remove balanceTree order move) := by
  induction tree with
  | nil => exact ⟨trivial, rfl⟩
  | node value left right leftRemove rightRemove =>
      have parts := low
      simp only [BinaryTree.height] at parts
      cases place : order value with
      | lt =>
          simp only [removeEffect, BinaryTree.remove, place]
          exact Effect.Describes.onLeft value avl low (leftRemove avl.1 (by omega))
      | gt =>
          simp only [removeEffect, BinaryTree.remove, place]
          exact Effect.Describes.onRight value avl low (rightRemove avl.2.1 (by omega))
      | eq =>
          cases left with
          | nil =>
              simp only [removeEffect, BinaryTree.remove, place]
              exact Effect.Describes.child_right avl low
          | node cell first second =>
              cases right with
              | nil =>
                  simp only [removeEffect, BinaryTree.remove, place]
                  exact Effect.Describes.child_left avl low
              | node other third fourth =>
                  have inner := maxEffect_describes avl.1 (show (node cell first second).height ≤ 125 by omega)
                  cases largest : (node cell first second).maximum with
                  | none =>
                      rw [maximum_eq_none] at largest
                      cases largest
                  | some top =>
                      simp only [removeEffect, BinaryTree.remove, place, largest]
                      exact Effect.Describes.onLeft (move value top) avl low inner

end SimpleNFast.Rdb
