/-
This file develops loops whose passes may stop with an error, and their rule with an invariant and a measure. It then
develops transfers of a stream by attempts that take a part of it, have to be made again, or stop the transfer.
-/

import Mathlib.Tactic

namespace SimpleNFast

/-- A turn of a loop goes on with a state, or it ends the loop with a result. -/
inductive Turn (state result : Type) where
  | next (state : state)
  | done (result : result)
  deriving DecidableEq, Repr

namespace Turn

variable {state result error : Type}

/-- The loop makes at most as many passes as it has fuel. -/
def run (stuck : error) (body : state → Except error (Turn state result)) : Nat → state → Except error result
  | 0, _ => .error stuck
  | fuel + 1, now => do
      match ← body now with
      | .next later => run stuck body fuel later
      | .done result => pure result

section Rules

variable {stuck : error} {body : state → Except error (Turn state result)} {holds : state → Prop}
  {measure : state → Nat} {answer : state → Except error result} {now : state}

/-- A pass gives the answer of its state, or it keeps the answer and goes on with a smaller state. -/
inductive Passes (holds : state → Prop) (measure : state → Nat) (answer : state → Except error result)
    (now : state) : Except error (Turn state result) → Prop where
  | fails {reason : error} (same : answer now = .error reason) : Passes holds measure answer now (.error reason)
  | ends {result : result} (same : answer now = .ok result) : Passes holds measure answer now (.ok (.done result))
  | goes {later : state} (kept : holds later) (smaller : measure later < measure now)
      (same : answer now = answer later) : Passes holds measure answer now (.ok (.next later))

/-- A loop whose measure is below its fuel does not get stuck, and it gives the answer of its first state. -/
theorem run_eq (passes : ∀ now, holds now → Passes holds measure answer now (body now)) {fuel : Nat}
    (enough : measure now < fuel) (first : holds now) : run stuck body fuel now = answer now := by
  induction fuel generalizing now with
  | zero => exact absurd enough (Nat.not_lt_zero _)
  | succ fuel inductionHypothesis =>
      have pass := passes now first
      rw [run]
      generalize body now = outcome at pass
      cases pass with
      | fails same => exact same.symm
      | ends same => exact same.symm
      | goes kept smaller same => exact (inductionHypothesis (by omega) kept).trans same.symm

end Rules

end Turn

/-- An attempt takes at most this many items, it has to be made again, or it stops the transfer for a reason. -/
inductive Attempt (reason : Type) where
  | takes (most : Nat)
  | again
  | stops (reason : reason)
  deriving DecidableEq, Repr

namespace Attempt

/-- The attempt makes progress or is made again. -/
def isFair {reason : Type} : Attempt reason → Bool
  | takes most => 0 < most
  | again => true
  | stops _ => false

end Attempt

/-- What was taken of a stream, what is left of it, why the transfer stopped before its end, and the attempts that were
not made. -/
structure Transfer (item reason : Type) where
  taken : List item
  left : List item
  stopped : Option reason
  attempts : List (Attempt reason)
  deriving DecidableEq, Repr

namespace Transfer

variable {item reason : Type}

/-- An attempt that takes nothing is the last one; after the listed attempts comes one that takes all that is wanted. -/
def run (ended : reason) : List (Attempt reason) → List item → Nat → Transfer item reason
  | [], stream, wanted =>
      ⟨stream.take wanted, stream.drop wanted, if wanted ≤ stream.length then none else some ended, []⟩
  | .takes most :: attempts, stream, wanted =>
      let part := stream.take (min most wanted)
      if part.length = 0 then ⟨[], stream, some ended, attempts⟩
      else if wanted - part.length = 0 then ⟨part, stream.drop part.length, none, attempts⟩
      else
        let later := run ended attempts (stream.drop part.length) (wanted - part.length)
        ⟨part ++ later.taken, later.left, later.stopped, later.attempts⟩
  | .again :: attempts, stream, wanted => run ended attempts stream wanted
  | .stops reason :: attempts, stream, _ => ⟨[], stream, some reason, attempts⟩

section Rules

variable {ended : reason} {attempts : List (Attempt reason)} {stream : List item} {wanted : Nat}

/-- Nothing of the stream is lost, repeated or taken beyond what is wanted. -/
theorem run_conserves :
    (run ended attempts stream wanted).taken ++ (run ended attempts stream wanted).left = stream ∧
      (run ended attempts stream wanted).taken.length ≤ wanted := by
  induction attempts generalizing stream wanted with
  | nil => simp [run]
  | cons attempt attempts inductionHypothesis =>
      cases attempt with
      | again => exact inductionHypothesis
      | stops reason => simp [run]
      | takes most =>
          rw [run]
          have parts := List.prefix_iff_eq_append.1 (List.take_prefix (min most wanted) stream)
          split
          · exact ⟨rfl, Nat.zero_le _⟩
          · split
            · exact ⟨parts, by simp⟩
            · obtain ⟨kept, bound⟩ := @inductionHypothesis (stream.drop (stream.take (min most wanted)).length)
                (wanted - (stream.take (min most wanted)).length)
              refine ⟨by rw [List.append_assoc, kept, parts], ?_⟩
              rw [List.length_append]
              omega

/-- A transfer that is not stopped has taken all that is wanted, and a stopped one has not. -/
theorem run_stopped (positive : 0 < wanted) :
    (run ended attempts stream wanted).stopped = none ↔ (run ended attempts stream wanted).taken.length = wanted := by
  induction attempts generalizing stream wanted with
  | nil => simp [run]
  | cons attempt attempts inductionHypothesis =>
      cases attempt with
      | again => exact inductionHypothesis positive
      | stops reason => simp [run]; omega
      | takes most =>
          rw [run]
          have short : (stream.take (min most wanted)).length ≤ wanted := by simp
          split
          · simp; omega
          · split
            · exact iff_of_true rfl (show (stream.take (min most wanted)).length = wanted by omega)
            · rw [inductionHypothesis (by omega), List.length_append]
              omega

/-- Fair attempts complete a transfer whose stream is long enough, and the other attempts are fair. -/
theorem run_fair (fair : ∀ attempt ∈ attempts, attempt.isFair = true) (positive : 0 < wanted)
    (enough : wanted ≤ stream.length) :
    (run ended attempts stream wanted).stopped = none ∧
      ∀ attempt ∈ (run ended attempts stream wanted).attempts, attempt.isFair = true := by
  induction attempts generalizing stream wanted with
  | nil => simp [run, enough]
  | cons attempt attempts inductionHypothesis =>
      have others := fun other member => fair other (List.mem_cons_of_mem attempt member)
      cases attempt with
      | again => exact inductionHypothesis others positive enough
      | stops reason =>
          have first := fair (.stops reason) List.mem_cons_self
          cases first
      | takes most =>
          have first := fair (.takes most) List.mem_cons_self
          have some : 0 < most := by simpa [Attempt.isFair] using first
          rw [run]
          have length : (stream.take (min most wanted)).length = min most wanted := by
            rw [List.length_take]
            omega
          rw [if_neg (by omega)]
          split
          · exact ⟨rfl, others⟩
          · exact inductionHypothesis others (by omega) (by rw [List.length_drop]; omega)

end Rules

end Transfer

end SimpleNFast
