/-
This file develops walks in a tree: a move stays, goes up or goes down to an item, and above the root there is nothing.
-/

import Mathlib.Tactic

namespace SimpleNFast

/-- A move from a place, which is the list of the items above it. -/
inductive Move (α : Type) where
  | stay
  | up
  | down (item : α)
  deriving DecidableEq, Repr

namespace Move

variable {α : Type}

def apply (place : List α) : Move α → List α
  | .stay => place
  | .up => place.dropLast
  | .down item => place ++ [item]

def walk (place : List α) (moves : List (Move α)) : List α := moves.foldl apply place

/-- The moves that go up from the starting place, and the items that no later move leaves again. -/
def settle : List (Move α) → Nat × List α
  | [] => (0, [])
  | .stay :: moves => settle moves
  | .up :: moves => ((settle moves).1 + 1, (settle moves).2)
  | .down item :: moves =>
      match settle moves with
      | (0, left) => (0, item :: left)
      | (rises + 1, left) => (rises, left)

def rises (moves : List (Move α)) : Nat := (settle moves).1

def left (moves : List (Move α)) : List α := (settle moves).2

/-- The items that the moves name. -/
def items (moves : List (Move α)) : List α :=
  moves.filterMap fun move =>
    match move with
    | .down item => some item
    | _ => none

section Rules

variable {place : List α} {moves more : List (Move α)} {item : α}

@[simp] theorem walk_nil : walk place [] = place := rfl

@[simp] theorem walk_cons (move : Move α) : walk place (move :: moves) = walk (move.apply place) moves := rfl

theorem walk_append : walk place (moves ++ more) = walk (walk place moves) more := List.foldl_append

/-- A walk goes up from its place and then down to the items that are left. -/
theorem walk_eq (place : List α) (moves : List (Move α)) :
    walk place moves = place.take (place.length - rises moves) ++ left moves := by
  induction moves generalizing place with
  | nil => simp [rises, left, settle]
  | cons move moves inductionHypothesis =>
      rw [walk_cons, inductionHypothesis]
      simp only [rises, left]
      cases move with
      | stay => rfl
      | up =>
          rw [apply, settle, List.length_dropLast, List.dropLast_eq_take, List.take_take]
          congr 2
          omega
      | down item =>
          simp only [apply, settle, List.length_append, List.length_singleton]
          split
          · rename_i found
            simp [found, List.take_of_length_le]
          · rename_i found
            simp only [found]
            rw [List.take_append_of_le_length (by omega)]
            congr 2
            omega

theorem walk_root (moves : List (Move α)) : walk [] moves = left moves := by simp [walk_eq]

/-- Two places above one another are left for the same one when the walk goes up from both to the root. -/
theorem walk_dropLast_iff (place : List α) (moves : List (Move α)) :
    walk place.dropLast moves = walk place moves ↔ place.length ≤ rises moves := by
  rw [walk_eq, walk_eq, List.append_left_inj, List.length_dropLast]
  constructor
  · intro same
    have lengths := congrArg List.length same
    simp only [List.length_take, List.length_dropLast] at lengths
    omega
  · intro high
    simp [show place.length - 1 - rises moves = 0 by omega, show place.length - rises moves = 0 by omega]

theorem settle_sublist (moves : List (Move α)) : (settle moves).2.Sublist (items moves) := by
  induction moves with
  | nil => exact .slnil
  | cons move moves inductionHypothesis =>
      cases move with
      | stay => exact inductionHypothesis
      | up => exact inductionHypothesis
      | down item =>
          change (settle (.down item :: moves)).2.Sublist (item :: items moves)
          rw [settle]
          split
          · rename_i found
            rw [found] at inductionHypothesis
            exact inductionHypothesis.cons_cons item
          · rename_i found
            rw [found] at inductionHypothesis
            exact inductionHypothesis.cons item

/-- What is left are items of the walk in their order. -/
theorem left_sublist (moves : List (Move α)) : (left moves).Sublist (items moves) := settle_sublist moves

/-- What holds of every item above the starting place and of every item of the walk holds above its end. -/
theorem walk_forall {holds : α → Prop} (above : ∀ item ∈ place, holds item) (named : ∀ item ∈ items moves, holds item) :
    ∀ item ∈ walk place moves, holds item := by
  intro item member
  rw [walk_eq, List.mem_append] at member
  obtain member | member := member
  · exact above item (List.mem_of_mem_take member)
  · exact named item ((left_sublist moves).subset member)

/-- The way down to some items goes there. -/
theorem settle_down (way : List α) : settle (way.map down) = (0, way) := by
  induction way with
  | nil => rfl
  | cons item way inductionHypothesis => rw [List.map_cons, settle, inductionHypothesis]

theorem walk_down (place way : List α) : walk place (way.map down) = place ++ way := by
  rw [walk_eq, rises, left, settle_down, Nat.sub_zero, List.take_length]

end Rules

end Move

end SimpleNFast
