/-
This file develops search trees whose updates end in an arbitrary rebalancing step.
-/

import Mathlib.Tactic

namespace BinaryTree

variable {α β : Type}

/-- The list visits the payloads from left to right. -/
def toList : BinaryTree α → List α
  | nil => []
  | node value left right => left.toList ++ value :: right.toList

@[simp] theorem toList_nil : (nil : BinaryTree α).toList = [] := rfl

@[simp] theorem toList_node (value : α) (left right : BinaryTree α) :
    (node value left right).toList = left.toList ++ value :: right.toList := rfl

theorem length_toList (tree : BinaryTree α) : tree.toList.length = tree.numNodes := by
  induction tree with
  | nil => rfl
  | node value left right leftLength rightLength =>
      simp only [toList_node, List.length_append, List.length_cons, leftLength, rightLength, numNodes]
      omega

/-- A left rotation lifts the right child. -/
def rotateLeft : BinaryTree α → BinaryTree α
  | node value left (node pivot inner right) => node pivot (node value left inner) right
  | tree => tree

/-- A right rotation lifts the left child. -/
def rotateRight : BinaryTree α → BinaryTree α
  | node value (node pivot left inner) right => node pivot left (node value inner right)
  | tree => tree

@[simp] theorem toList_rotateLeft (tree : BinaryTree α) : tree.rotateLeft.toList = tree.toList := by
  unfold rotateLeft
  split <;> simp

@[simp] theorem toList_rotateRight (tree : BinaryTree α) : tree.rotateRight.toList = tree.toList := by
  unfold rotateRight
  split <;> simp

/-- Every payload before another is below the searched key, or the other is above it. -/
def Searchable (order : α → Ordering) (payloads : List α) : Prop :=
  payloads.Pairwise fun first second => order first = .gt ∨ order second = .lt

/-- The search follows the order of the searched key against each payload. -/
def find (order : α → Ordering) : BinaryTree α → Option α
  | nil => none
  | node value left right =>
      match order value with
      | .lt => left.find order
      | .eq => some value
      | .gt => right.find order

/-- The largest payload stands at the end of the right links. -/
def maximum : BinaryTree α → Option α
  | nil => none
  | node value _ nil => some value
  | node _ _ right => right.maximum

section Update

variable (balance : BinaryTree α → BinaryTree α) (order : α → Ordering)

/-- An insertion adds the offered payload or replaces the payload of the searched key. -/
def insert (added : Option α) (replace : α → α) : BinaryTree α → BinaryTree α
  | nil => added.elim nil fun payload => balance (node payload nil nil)
  | node value left right =>
      match order value with
      | .lt => balance (node value (left.insert added replace) right)
      | .eq => balance (node (replace value) left right)
      | .gt => balance (node value left (right.insert added replace))

/-- The removal of the largest payload rebalances along the right links. -/
def removeMax : BinaryTree α → BinaryTree α
  | nil => nil
  | node _ left nil => balance left
  | node value left right => balance (node value left right.removeMax)

/-- A node with two children takes over the largest payload on its left. -/
def remove (move : α → α → α) : BinaryTree α → BinaryTree α
  | nil => nil
  | node value left right =>
      match order value with
      | .lt => balance (node value (left.remove move) right)
      | .eq =>
          match left, left.maximum, right with
          | nil, _, right => balance right
          | left, _, nil => balance left
          | left, some top, right => balance (node (move value top) (left.removeMax balance) right)
          | left, none, right => balance (node value left right)
      | .gt => balance (node value left (right.remove move))

end Update

/-- The payload whose place a removal gives up. -/
def removed (order : α → Ordering) : BinaryTree α → Option α
  | nil => none
  | node value left right =>
      match order value with
      | .lt => left.removed order
      | .eq =>
          match left, right with
          | nil, _ => some value
          | _, nil => some value
          | left, _ => left.maximum
      | .gt => right.removed order

section Search

variable {order : α → Ordering}

theorem Searchable.node {left right : BinaryTree α} {value : α}
    (searchable : Searchable order (node value left right).toList) :
    Searchable order left.toList ∧ Searchable order right.toList ∧
      (order value ≠ .gt → ∀ payload ∈ right.toList, order payload = .lt) ∧
      (order value ≠ .lt → ∀ payload ∈ left.toList, order payload = .gt) := by
  simp only [Searchable, toList_node, List.pairwise_append, List.pairwise_cons,
    List.mem_cons] at searchable
  obtain ⟨leftPart, ⟨head, rightPart⟩, across⟩ := searchable
  refine ⟨leftPart, rightPart, ?_, ?_⟩
  · intro notAbove payload member
    exact (head payload member).resolve_left notAbove
  · intro notBelow payload member
    exact (across payload member value (Or.inl rfl)).resolve_right notBelow

/-- The search returns exactly the payload of the searched key. -/
theorem find_eq_some_iff {tree : BinaryTree α} (searchable : Searchable order tree.toList) (payload : α) :
    tree.find order = some payload ↔ payload ∈ tree.toList ∧ order payload = .eq := by
  induction tree with
  | nil => simp [find]
  | node value left right leftSearch rightSearch =>
      obtain ⟨leftPart, rightPart, above, below⟩ := searchable.node
      simp only [find, toList_node, List.mem_append, List.mem_cons]
      cases place : order value with
      | lt =>
          rw [leftSearch leftPart]
          have outside := above (by simp [place])
          constructor
          · rintro ⟨member, equal⟩
            exact ⟨Or.inl member, equal⟩
          · rintro ⟨member | rfl | member, equal⟩
            · exact ⟨member, equal⟩
            · simp [place] at equal
            · simp [outside payload member] at equal
      | eq =>
          have outsideRight := above (by simp [place])
          have outsideLeft := below (by simp [place])
          simp only [Option.some.injEq]
          constructor
          · rintro rfl
            exact ⟨Or.inr (Or.inl rfl), place⟩
          · rintro ⟨member | rfl | member, equal⟩
            · simp [outsideLeft payload member] at equal
            · rfl
            · simp [outsideRight payload member] at equal
      | gt =>
          rw [rightSearch rightPart]
          have outside := below (by simp [place])
          constructor
          · rintro ⟨member, equal⟩
            exact ⟨Or.inr (Or.inr member), equal⟩
          · rintro ⟨member | rfl | member, equal⟩
            · simp [outside payload member] at equal
            · simp [place] at equal
            · exact ⟨member, equal⟩

theorem find_eq_none_iff {tree : BinaryTree α} (searchable : Searchable order tree.toList) :
    tree.find order = none ↔ ∀ payload ∈ tree.toList, order payload ≠ .eq := by
  rw [Option.eq_none_iff_forall_ne_some]
  simp only [ne_eq, find_eq_some_iff searchable, not_and]

/-- The payloads below the searched key. -/
def lower (order : α → Ordering) (payloads : List α) : List α :=
  payloads.filter fun payload => order payload == .gt

/-- The payloads above the searched key. -/
def upper (order : α → Ordering) (payloads : List α) : List α :=
  payloads.filter fun payload => order payload == .lt

theorem lower_eq_self {payloads : List α} (all : ∀ payload ∈ payloads, order payload = .gt) :
    lower order payloads = payloads := by
  simpa [lower, List.filter_eq_self] using all

theorem lower_eq_nil {payloads : List α} (all : ∀ payload ∈ payloads, order payload = .lt) :
    lower order payloads = [] := by
  simp only [lower, List.filter_eq_nil_iff]
  intro payload member
  simp [all payload member]

theorem upper_eq_self {payloads : List α} (all : ∀ payload ∈ payloads, order payload = .lt) :
    upper order payloads = payloads := by
  simpa [upper, List.filter_eq_self] using all

theorem upper_eq_nil {payloads : List α} (all : ∀ payload ∈ payloads, order payload = .gt) :
    upper order payloads = [] := by
  simp only [upper, List.filter_eq_nil_iff]
  intro payload member
  simp [all payload member]

/-- The two sides of a node split the payloads around the searched key. -/
theorem split_node {left right : BinaryTree α} {value : α}
    (searchable : Searchable order (node value left right).toList) :
    (lower order (node value left right).toList, upper order (node value left right).toList) =
      match order value with
      | .lt => (lower order left.toList, upper order left.toList ++ value :: right.toList)
      | .eq => (left.toList, right.toList)
      | .gt => (left.toList ++ value :: lower order right.toList, upper order right.toList) := by
  obtain ⟨-, -, high, low⟩ := searchable.node
  have parts : ∀ keep : α → Bool, (node value left right).toList.filter keep =
      left.toList.filter keep ++ (if keep value then [value] else []) ++
        right.toList.filter keep := by
    intro keep
    cases keepValue : keep value <;> simp [List.filter_append, keepValue]
  have lowParts := parts fun payload => order payload == .gt
  have highParts := parts fun payload => order payload == .lt
  change lower order _ = lower order _ ++ _ ++ lower order _ at lowParts
  change upper order _ = upper order _ ++ _ ++ upper order _ at highParts
  rw [lowParts, highParts]
  cases place : order value with
  | lt =>
      have outside := high (by simp [place])
      simp [lower_eq_nil outside, upper_eq_self outside]
  | eq =>
      have outsideRight := high (by simp [place])
      have outsideLeft := low (by simp [place])
      simp [lower_eq_nil outsideRight, upper_eq_self outsideRight,
        lower_eq_self outsideLeft, upper_eq_nil outsideLeft]
  | gt =>
      have outside := low (by simp [place])
      simp [lower_eq_self outside, upper_eq_nil outside]

theorem maximum_eq_none {tree : BinaryTree α} : tree.maximum = none ↔ tree = nil := by
  induction tree with
  | nil => simp [maximum]
  | node value left right leftMax rightMax =>
      cases right with
      | nil => simp [maximum]
      | node => simpa [maximum] using rightMax

/-- A removal gives up a place exactly when the search finds its key. -/
theorem removed_eq_none_iff (order : α → Ordering) (tree : BinaryTree α) :
    tree.removed order = none ↔ tree.find order = none := by
  induction tree with
  | nil => simp [removed, find]
  | node value left right leftNone rightNone =>
      simp only [removed, find]
      cases order value with
      | lt => exact leftNone
      | gt => exact rightNone
      | eq =>
          cases left with
          | nil => simp
          | node leftValue leftLeft leftRight =>
              cases right with
              | nil => simp
              | node rightValue rightLeft rightRight => simp [maximum_eq_none]

end Search

section Content

variable {balance : BinaryTree α → BinaryTree α} {order : α → Ordering}
variable (keeps : ∀ tree, (balance tree).toList = tree.toList)

include keeps

/-- An insertion puts its payload between the lower and the higher payloads. -/
theorem toList_insert {tree : BinaryTree α} (searchable : Searchable order tree.toList)
    (added : Option α) (replace : α → α) :
    (tree.insert balance order added replace).toList =
      lower order tree.toList ++ (((tree.find order).map replace).or added).toList ++
        upper order tree.toList := by
  induction tree with
  | nil => cases added <;> simp [insert, find, keeps, lower, upper]
  | node value left right leftInsert rightInsert =>
      obtain ⟨leftPart, rightPart, -, -⟩ := searchable.node
      have parts := split_node searchable
      simp only [insert, find]
      cases place : order value with
      | lt =>
          simp only [place, Prod.mk.injEq] at parts
          rw [parts.1, parts.2, keeps, toList_node, leftInsert leftPart]
          simp
      | eq =>
          simp only [place, Prod.mk.injEq] at parts
          rw [parts.1, parts.2, keeps, toList_node]
          simp
      | gt =>
          simp only [place, Prod.mk.injEq] at parts
          rw [parts.1, parts.2, keeps, toList_node, rightInsert rightPart]
          simp

/-- An insertion of an absent key takes one new place and keeps all others. -/
theorem perm_map_insert {tree : BinaryTree α} (added : Option α) (replace : α → α) (place : α → β)
    (stays : ∀ value, place (replace value) = place value) :
    ((tree.insert balance order added replace).toList.map place).Perm
      ((tree.find order).elim (added.map place).toList (fun _ => []) ++
        tree.toList.map place) := by
  induction tree with
  | nil => cases added <;> simp [insert, find, keeps]
  | node value left right leftInsert rightInsert =>
      simp only [insert, find]
      cases side : order value with
      | lt =>
          simp only [keeps, toList_node, List.map_append, List.map_cons, ← List.append_assoc]
          exact leftInsert.append_right _
      | eq => simp [keeps, stays]
      | gt =>
          simp only [keeps, toList_node, List.map_append, List.map_cons]
          refine (List.Perm.append_left _ (rightInsert.cons _)).trans ?_
          refine (List.Perm.append_left _ List.perm_middle.symm).trans ?_
          exact List.perm_append_comm_assoc _ _ _

/-- The largest payload is the last of the list. -/
theorem toList_removeMax {tree : BinaryTree α} {top : α} (largest : tree.maximum = some top) :
    tree.toList = (tree.removeMax balance).toList ++ [top] := by
  induction tree with
  | nil => simp [maximum] at largest
  | node value left right leftMax rightMax =>
      cases right with
      | nil =>
          simp only [maximum, Option.some.injEq] at largest
          simp [removeMax, keeps, largest]
      | node other inner outer =>
          have rest := rightMax (by simpa [maximum] using largest)
          rw [removeMax, keeps, toList_node value left (node other inner outer), rest]
          · simp
          · simp

/-- A removal drops the payload of the searched key, up to the moved payload. -/
theorem map_toList_remove {tree : BinaryTree α} (searchable : Searchable order tree.toList)
    (move : α → α → α) (project : α → β)
    (carried : ∀ value top, project (move value top) = project top) :
    (tree.remove balance order move).toList.map project =
      (lower order tree.toList ++ upper order tree.toList).map project := by
  induction tree with
  | nil => simp [remove, lower, upper]
  | node value left right leftRemove rightRemove =>
      obtain ⟨leftPart, rightPart, -, -⟩ := searchable.node
      have parts := split_node searchable
      simp only [remove]
      cases place : order value with
      | lt =>
          simp only [place, Prod.mk.injEq] at parts
          have inner := leftRemove leftPart
          simp only [List.map_append] at inner
          rw [parts.1, parts.2, keeps, toList_node]
          simp [inner]
      | gt =>
          simp only [place, Prod.mk.injEq] at parts
          have inner := rightRemove rightPart
          simp only [List.map_append] at inner
          rw [parts.1, parts.2, keeps, toList_node]
          simp [inner]
      | eq =>
          simp only [place, Prod.mk.injEq] at parts
          rw [parts.1, parts.2]
          cases left with
          | nil => simp [keeps]
          | node leftValue leftLeft leftRight =>
              cases right with
              | nil => simp [keeps]
              | node rightValue rightLeft rightRight =>
                  cases largest : (node leftValue leftLeft leftRight).maximum with
                  | none => simp [maximum_eq_none] at largest
                  | some top =>
                      rw [toList_removeMax keeps largest]
                      simp [keeps, carried]

/-- A removal gives up one place and keeps all others. -/
theorem perm_map_remove {tree : BinaryTree α} (move : α → α → α) (place : α → β)
    (stays : ∀ value top, place (move value top) = place value) :
    (tree.toList.map place).Perm
      (((tree.removed order).map place).toList ++
        (tree.remove balance order move).toList.map place) := by
  induction tree with
  | nil => simp [remove, removed]
  | node value left right leftRemove rightRemove =>
      simp only [remove, removed]
      cases side : order value with
      | lt =>
          simp only [keeps, toList_node, List.map_append, List.map_cons]
          rw [← List.append_assoc]
          exact leftRemove.append_right _
      | gt =>
          simp only [keeps, toList_node, List.map_append, List.map_cons]
          refine ((rightRemove.cons (place value)).append_left _).trans ?_
          refine (List.Perm.append_left _ List.perm_middle.symm).trans ?_
          exact List.perm_append_comm_assoc _ _ _
      | eq =>
          cases left with
          | nil => simp [keeps]
          | node leftValue leftLeft leftRight =>
              cases right with
              | nil =>
                  simp only [keeps, toList_node value (node leftValue leftLeft leftRight), List.map_append,
                    List.map_cons, toList_nil, List.map_nil]
                  exact List.perm_append_comm
              | node rightValue rightLeft rightRight =>
                  cases largest : (node leftValue leftLeft leftRight).maximum with
                  | none => simp [maximum_eq_none] at largest
                  | some top =>
                      rw [toList_node value (node leftValue leftLeft leftRight),
                        toList_removeMax keeps largest]
                      simp only [largest, keeps, toList_node, List.map_append, List.map_cons, stays,
                        Option.map_some, Option.toList_some, List.map_nil, List.append_assoc]
                      exact List.perm_middle

end Content

end BinaryTree
