/-
This file develops programs with a state, a list of events and an early stop, and their rules of
pre- and postconditions.
-/

import Mathlib.Tactic

namespace SimpleNFast

/-- A run ends with a value and a state, or it stops for a reason; it keeps its events. -/
structure Outcome (σ ε τ α : Type) where
  events : List ε
  result : Except τ (α × σ)

/-- A program maps its first state to the outcome of its run. -/
def Program (σ ε τ α : Type) : Type := σ → Outcome σ ε τ α

namespace Program

variable {σ ε τ α β : Type}

/-- A pure program only returns its value. -/
protected def pure (value : α) : Program σ ε τ α := fun state => ⟨[], .ok (value, state)⟩

/-- A sequence runs its second part unless the first one stopped. -/
protected def bind (first : Program σ ε τ α) (second : α → Program σ ε τ β) : Program σ ε τ β :=
  fun state =>
    match first state with
    | ⟨events, .ok (value, middle)⟩ =>
        ⟨events ++ (second value middle).events, (second value middle).result⟩
    | ⟨events, .error reason⟩ => ⟨events, .error reason⟩

instance : Monad (Program σ ε τ) where
  pure := Program.pure
  bind := Program.bind

/-- The program reads a part of the state. -/
def reads (view : σ → α) : Program σ ε τ α := fun state => ⟨[], .ok (view state, state)⟩

/-- The program changes the state. -/
def modifies (change : σ → σ) : Program σ ε τ Unit := fun state => ⟨[], .ok ((), change state)⟩

/-- The program reports an event of its state. -/
def reports (event : σ → ε) : Program σ ε τ Unit := fun state => ⟨[event state], .ok ((), state)⟩

/-- The program stops. -/
def stops (reason : τ) : Program σ ε τ α := fun _ => ⟨[], .error reason⟩

/-- The program stops unless a condition holds. -/
def requires (condition : σ → Bool) (reason : τ) : Program σ ε τ Unit := fun state =>
  ⟨[], if condition state then .ok ((), state) else .error reason⟩

/-- A run whose events are all allowed ends in the postcondition or with an accepted stop. -/
def Meets (allowed : ε → Prop) (accepted : τ → Prop) (program : Program σ ε τ α) (state : σ)
    (post : α → σ → Prop) : Prop :=
  (∀ event ∈ (program state).events, allowed event) →
    match (program state).result with
    | .ok (value, final) => post value final
    | .error reason => accepted reason

section Rules

variable {allowed : ε → Prop} {accepted : τ → Prop} {state : σ}

@[simp] theorem meets_pure {value : α} {post : α → σ → Prop} :
    Meets allowed accepted (pure value) state post ↔ post value state := by
  simp [Meets, Pure.pure, Program.pure]

@[simp] theorem meets_bind {first : Program σ ε τ α} {second : α → Program σ ε τ β}
    {post : β → σ → Prop} :
    Meets allowed accepted (first >>= second) state post ↔
      Meets allowed accepted first state fun value middle =>
        Meets allowed accepted (second value) middle post := by
  simp only [Meets, Bind.bind, Program.bind]
  cases first state with
  | mk events result =>
      cases result with
      | error reason => rfl
      | ok final =>
          simp only [List.mem_append]
          constructor
          · intro whole before after
            apply whole
            intro event member
            exact member.elim (before event) (after event)
          · intro parts both
            exact parts (fun event member => both event (Or.inl member))
              (fun event member => both event (Or.inr member))

@[simp] theorem meets_reads {view : σ → α} {post : α → σ → Prop} :
    Meets allowed accepted (reads view) state post ↔ post (view state) state := by
  simp [Meets, reads]

@[simp] theorem meets_modifies {change : σ → σ} {post : Unit → σ → Prop} :
    Meets allowed accepted (modifies change) state post ↔ post () (change state) := by
  simp [Meets, modifies]

@[simp] theorem meets_reports {event : σ → ε} {post : Unit → σ → Prop} :
    Meets allowed accepted (reports event) state post ↔ (allowed (event state) → post () state) := by
  simp [Meets, reports]

@[simp] theorem meets_stops {reason : τ} {post : α → σ → Prop} :
    Meets allowed accepted (stops reason) state post ↔ accepted reason := by
  simp [Meets, stops]

@[simp] theorem meets_requires {condition : σ → Bool} {reason : τ} {post : Unit → σ → Prop} :
    Meets allowed accepted (requires condition reason) state post ↔
      if condition state then post () state else accepted reason := by
  unfold Meets requires
  cases condition state <;> simp

/-- A weaker postcondition follows. -/
theorem Meets.imp {program : Program σ ε τ α} {post later : α → σ → Prop}
    (met : Meets allowed accepted program state post)
    (implies : ∀ value final, post value final → later value final) :
    Meets allowed accepted program state later := by
  intro fine
  have done := met fine
  cases result : (program state).result with
  | error reason => simpa only [result] using done
  | ok final =>
      rw [result] at done
      exact implies _ _ done

end Rules

end Program

end SimpleNFast
