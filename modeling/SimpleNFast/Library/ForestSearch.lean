/-
This file develops the depth-first search in a forest: a path of nodes accepts a list of items one by one.
-/

import Mathlib.Tactic

namespace SimpleNFast.ForestSearch

variable {τ υ β : Type}

section Definitions

variable (children : τ → List τ) (accepts : τ → β → Bool) (marked : τ → Bool)

/-- The nodes stand below each other, the first one in the level. -/
def IsPath : List τ → List τ → Prop
  | _, [] => True
  | level, node :: nodes => node ∈ level ∧ IsPath (children node) nodes

/-- The first path in depth-first order whose nodes accept the items. -/
def firstPath : List β → List τ → Option (List τ)
  | [], _ => some []
  | item :: items, level => level.findSome? fun node =>
      if accepts node item then (firstPath items (children node)).map (node :: ·) else none

/-- The node that a search below a node looks at last when it fails: it follows the last children. -/
def lastSeen : List β → τ → τ
  | [], node => node
  | item :: items, node => ((children node).getLast?.map fun child =>
      if accepts child item then lastSeen items child else child).getD node

/-- A search marks what it enters: it comes to a marked node, and it leaves after it saw a marked node last. -/
def moves : List β → List τ → List Bool
  | [], _ => []
  | item :: items, level => level.foldr (fun node rest =>
      if accepts node item then
        (if marked node then [true] else []) ++ (moves items (children node) ++
          if (firstPath children accepts items (children node)).isSome then []
          else (if marked (lastSeen children accepts items node) then [false] else []) ++ rest)
      else rest) []

/-- The moves with the marked node and the item of each one that comes to a node. -/
def turns : List β → List τ → List (Option (τ × β))
  | [], _ => []
  | item :: items, level => level.foldr (fun node rest =>
      if accepts node item then
        (if marked node then [some (node, item)] else []) ++ (turns items (children node) ++
          if (firstPath children accepts items (children node)).isSome then []
          else (if marked (lastSeen children accepts items node) then [none] else []) ++ rest)
      else rest) []

/-- The search in a level enters a node that accepts the item when no path begins at the nodes before it. -/
def Enters (item : β) (items : List β) (level : List τ) (node : τ) : Prop :=
  ∃ before after, level = before ++ node :: after ∧ accepts node item = true ∧
    ∀ other ∈ before, accepts other item = true → firstPath children accepts items (children other) = none

/-- The searches that a search makes: itself, and the searches below the nodes that it enters. -/
inductive Called : List β → List τ → List β → List τ → Prop where
  | start {items : List β} {level : List τ} : Called items level items level
  | deeper {item : β} {items laterItems : List β} {level laterLevel : List τ} {node : τ}
      (entered : Enters children accepts item items level node)
      (called : Called items (children node) laterItems laterLevel) : Called (item :: items) level laterItems laterLevel

/-- Below each entered node without a path, a search that fails looks last at a node with the mark of the entered one. -/
def Balanced (items : List β) (level : List τ) : Prop :=
  ∀ item later below node, Called children accepts items level (item :: later) below →
    Enters children accepts item later below node → firstPath children accepts later (children node) = none →
    marked (lastSeen children accepts later node) = marked node

end Definitions

/-- A push makes a stack higher, and a pop makes it lower unless it is empty. -/
def replay : Nat × Bool → Bool → Nat × Bool
  | (height, popped), true => (height + 1, popped)
  | (height, popped), false => (height - 1, popped || height == 0)

/-- A stack takes what comes, and loses its top when nothing comes. -/
def hold {γ : Type} : List γ → Option γ → List γ
  | stack, some entry => entry :: stack
  | stack, none => stack.tail

section Rules

variable {children : τ → List τ} {accepts : τ → β → Bool} {items : List β} {item : β} {level rest nodes : List τ}
  {node : τ}

@[simp] theorem firstPath_empty : firstPath children accepts (item :: items) [] = none := by
  rfl

/-- A node that rejects the item is passed over. -/
theorem firstPath_skip (rejects : accepts node item = false) :
    firstPath children accepts (item :: items) (node :: rest) = firstPath children accepts (item :: items) rest := by
  simp [firstPath, rejects]

/-- A node without a path below it is passed over. -/
theorem firstPath_fail (fails : firstPath children accepts items (children node) = none) :
    firstPath children accepts (item :: items) (node :: rest) = firstPath children accepts (item :: items) rest := by
  simp [firstPath, fails]

/-- The first node with a path below it begins the path. -/
theorem firstPath_enter (accepting : accepts node item = true)
    (found : firstPath children accepts items (children node) = some nodes) :
    firstPath children accepts (item :: items) (node :: rest) = some (node :: nodes) := by
  simp [firstPath, accepting, found]

/-- The first path is a path, and its nodes accept the items. -/
theorem firstPath_isPath (found : firstPath children accepts items level = some nodes) :
    IsPath children level nodes ∧ List.Forall₂ (fun node item => accepts node item = true) nodes items := by
  induction items generalizing level nodes with
  | nil =>
      cases found
      exact ⟨trivial, .nil⟩
  | cons item items below =>
      obtain ⟨node, inside, entered⟩ := List.exists_of_findSome?_eq_some found
      split at entered
      · rename_i accepting
        obtain ⟨others, foundBelow, rfl⟩ := Option.map_eq_some_iff.1 entered
        obtain ⟨isPath, accepted⟩ := below foundBelow
        exact ⟨⟨inside, isPath⟩, .cons accepting accepted⟩
      · cases entered

/-- What is entered behind a node without a path is entered. -/
theorem Enters.cons {other : τ} (fails : accepts other item = true → firstPath children accepts items (children other) = none)
    (entered : Enters children accepts item items rest node) : Enters children accepts item items (other :: rest) node := by
  obtain ⟨before, after, rfl, accepting, missed⟩ := entered
  refine ⟨other :: before, after, rfl, accepting, ?_⟩
  intro third member
  obtain rfl | member := List.mem_cons.1 member
  · exact fails
  · exact missed third member

/-- The first node of a level is entered when it accepts the item. -/
theorem Enters.head (accepting : accepts node item = true) : Enters children accepts item items (node :: rest) node :=
  ⟨[], rest, rfl, accepting, by simp⟩

theorem Enters.mem (entered : Enters children accepts item items level node) : node ∈ level := by
  obtain ⟨before, after, rfl, -, -⟩ := entered
  simp

/-- A node behind the first one is entered when no path begins at the first one. -/
theorem Enters.tail {other : τ} (entered : Enters children accepts item items (other :: rest) node) :
    node = other ∧ accepts other item = true ∨
      (accepts other item = true → firstPath children accepts items (children other) = none) ∧
        Enters children accepts item items rest node := by
  obtain ⟨before, after, same, accepting, missed⟩ := entered
  cases before with
  | nil =>
      cases same
      exact Or.inl ⟨rfl, accepting⟩
  | cons first before =>
      cases same
      exact Or.inr ⟨missed other List.mem_cons_self, before, after, rfl, accepting,
        fun third member => missed third (List.mem_cons_of_mem _ member)⟩

/-- The searches of a search of a search are its searches. -/
theorem Called.trans {laterItems finalItems : List β} {laterLevel finalLevel : List τ}
    (first : Called children accepts items level laterItems laterLevel)
    (second : Called children accepts laterItems laterLevel finalItems finalLevel) :
    Called children accepts items level finalItems finalLevel := by
  induction first with
  | start => exact second
  | deeper entered _ deeper => exact .deeper entered (deeper second)

/-- A search below an entered node is balanced with the whole one. -/
theorem Balanced.deeper {marked : τ → Bool} (balanced : Balanced children accepts marked (item :: items) level)
    (entered : Enters children accepts item items level node) :
    Balanced children accepts marked items (children node) :=
  fun other later below inner called => balanced other later below inner (.deeper entered called)

/-- An empty stack that was popped once stays so. -/
theorem replay_popped (turns : List Bool) (height : Nat) : (turns.foldl replay (height, true)).2 = true := by
  induction turns generalizing height with
  | nil => rfl
  | cons turn turns later =>
      cases turn <;> exact later _

/-- No empty stack is popped when each beginning of the moves has enough pushes. -/
theorem replay_iff (turns : List Bool) (height : Nat) :
    (turns.foldl replay (height, false)).2 = false ↔
      ∀ front, front <+: turns → front.count false ≤ height + front.count true := by
  induction turns generalizing height with
  | nil => simp
  | cons turn turns later =>
      have split : (∀ front, front <+: turn :: turns → front.count false ≤ height + front.count true) ↔
          ∀ front, front <+: turns → (turn :: front).count false ≤ height + (turn :: front).count true := by
        constructor
        · intro all front isFront
          exact all _ (List.cons_prefix_cons.2 ⟨rfl, isFront⟩)
        · intro all front isFront
          cases front with
          | nil => simp
          | cons first front =>
              obtain ⟨rfl, inner⟩ := List.cons_prefix_cons.1 isFront
              exact all front inner
      rw [split, List.foldl_cons]
      cases turn with
      | true =>
          simp only [replay, later, List.count_cons_self, List.count_cons_of_ne (by decide : true ≠ false)]
          apply forall_congr'
          intro front
          rw [Nat.add_right_comm, Nat.add_assoc]
      | false =>
          simp only [List.count_cons_self, List.count_cons_of_ne (by decide : false ≠ true)]
          cases height with
          | zero =>
              simp only [replay, beq_self_eq_true, Bool.or_true, replay_popped, Bool.true_eq_false, false_iff]
              intro all
              have first := all [] (List.nil_prefix)
              simp at first
          | succ height =>
              simp only [replay, Nat.add_sub_cancel, Bool.false_or, Nat.add_one_ne_zero, beq_eq_false_iff_ne.2, ne_eq,
                not_false_eq_true, later]
              apply forall_congr'
              intro front
              constructor
              · intro bound inside
                have := bound inside
                omega
              · intro bound inside
                have := bound inside
                omega

end Rules

section Maps

variable {children : τ → List τ} {accepts : τ → β → Bool} {marked : τ → Bool} {laterChildren : υ → List υ}
  {laterAccepts : υ → β → Bool} {laterMarked : υ → Bool} {shape : τ → υ}
  (sameChildren : ∀ node, laterChildren (shape node) = (children node).map shape)
  (sameAccepts : ∀ node item, laterAccepts (shape node) item = accepts node item)
  (sameMarked : ∀ node, laterMarked (shape node) = marked node)

include sameChildren sameAccepts in
/-- The search in a forest of the same shape finds the path of the same shape. -/
theorem firstPath_map (items : List β) (level : List τ) :
    firstPath laterChildren laterAccepts items (level.map shape) =
      (firstPath children accepts items level).map (List.map shape) := by
  induction items generalizing level with
  | nil => rfl
  | cons item items below =>
      induction level with
      | nil => rfl
      | cons node rest others =>
          cases accepting : accepts node item with
          | false => rw [List.map_cons, firstPath_skip (by rw [sameAccepts, accepting]), firstPath_skip accepting, others]
          | true =>
              have inner := below (children node)
              rw [← sameChildren] at inner
              cases found : firstPath children accepts items (children node) with
              | none =>
                  rw [found] at inner
                  rw [List.map_cons, firstPath_fail inner, firstPath_fail found, others]
              | some nodes =>
                  rw [found] at inner
                  rw [List.map_cons, firstPath_enter (by rw [sameAccepts, accepting]) inner,
                    firstPath_enter accepting found]
                  rfl

include sameChildren sameAccepts in
theorem lastSeen_map (items : List β) (node : τ) :
    lastSeen laterChildren laterAccepts items (shape node) = shape (lastSeen children accepts items node) := by
  induction items generalizing node with
  | nil => rfl
  | cons item items below =>
      simp only [lastSeen, sameChildren, List.getLast?_map, Option.map_map]
      cases (children node).getLast? with
      | none => rfl
      | some child =>
          simp only [Option.map_some, Option.getD_some, Function.comp_apply, sameAccepts, below]
          split <;> rfl

include sameChildren sameAccepts sameMarked in
theorem moves_map (items : List β) (level : List τ) :
    moves laterChildren laterAccepts laterMarked items (level.map shape) =
      moves children accepts marked items level := by
  induction items generalizing level with
  | nil => rfl
  | cons item items below =>
      simp only [moves]
      induction level with
      | nil => rfl
      | cons node rest others =>
          simp only [List.map_cons, List.foldr_cons, others, sameAccepts, sameMarked, sameChildren, below,
            firstPath_map sameChildren sameAccepts, lastSeen_map sameChildren sameAccepts, Option.isSome_map]

end Maps

end SimpleNFast.ForestSearch
