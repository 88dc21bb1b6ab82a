import SimpleNFast.Construction.Json.Grammar

namespace SimpleNFast.Json

/-- What an action of the lexer does, without the positions of its errors. -/
inductive Outcome (value : Type) where
  | read (value : value) (rest : Text)
  | ended
  | refused
  | running
  deriving DecidableEq

namespace Outcome

variable {first second : Type}

def bind (outcome : Outcome first) (next : first → Text → Outcome second) : Outcome second :=
  match outcome with
  | .read value rest => next value rest
  | .ended => .ended
  | .refused => .refused
  | .running => .running

/-- The outcome of a call that throws is in its exception only. -/
def of : Except Fault first × Lexer → Outcome first
  | (.ok value, lexer) => .read value lexer.rest
  | (.error .failure, _) => .ended
  | (.error .running, _) => .running
  | (.error _, _) => .refused

theorem bind_read_iff {outcome : Outcome first} {next : first → Text → Outcome second} {result : second}
    {last : Text} : outcome.bind next = .read result last ↔
      ∃ value rest, outcome = .read value rest ∧ next value rest = .read result last := by
  constructor
  · intro ended
    cases outcome with
    | read value rest => exact ⟨value, rest, rfl, ended⟩
    | ended => cases ended
    | refused => cases ended
    | running => cases ended
  · rintro ⟨value, rest, rfl, ended⟩
    exact ended

theorem of_error {fault : Fault} (lexer other : Lexer) :
    (of (.error fault, lexer) : Outcome first) = of (.error fault, other) := by
  cases fault <;> rfl

end Outcome

def outcome {value : Type} (action : Lex value) (string : Text) : Outcome value :=
  .of (action (Lexer.init string))

/-- An action that does not look at the position, and that has read everything when it meets the end. -/
structure Blind {value : Type} (action : Lex value) : Prop where
  same : ∀ lexer, Outcome.of (action lexer) = outcome action lexer.rest
  empty : ∀ lexer, Outcome.of (action lexer) = .ended → (action lexer).2.rest = []

section Actions

variable {first second : Type}

/-- A sequence of two actions on any state that can throw. -/
theorem run_bind {state : Type} (action : ExceptT Fault (StateM state) first)
    (next : first → ExceptT Fault (StateM state) second) (start : state) :
    (action >>= next) start =
      match action start with
      | (.ok value, later) => next value later
      | (.error fault, later) => (.error fault, later) := by
  change (match action start with
    | (result, later) => ExceptT.bindCont next result later) = _
  match action start with
  | (.ok value, later) => rfl
  | (.error fault, later) => rfl

/-- A first action that returns. -/
theorem run_bind_ok {state : Type} {action : ExceptT Fault (StateM state) first} {start later : state}
    {value : first} (ran : action start = (.ok value, later))
    (next : first → ExceptT Fault (StateM state) second) : (action >>= next) start = next value later := by
  rw [run_bind, ran]

/-- A first action that throws. -/
theorem run_bind_error {state : Type} {action : ExceptT Fault (StateM state) first} {start later : state}
    {fault : Fault} (ran : action start = (.error fault, later))
    (next : first → ExceptT Fault (StateM state) second) : (action >>= next) start = (.error fault, later) := by
  rw [run_bind, ran]

theorem outcome_of_bind {action : Lex first} {next : first → Lex second} (after : ∀ value, Blind (next value))
    (lexer : Lexer) : Outcome.of ((action >>= next) lexer) =
      (Outcome.of (action lexer)).bind fun value rest => outcome (next value) rest := by
  rw [run_bind]
  match action lexer with
  | (.ok value, later) => exact (after value).same later
  | (.error fault, later) => cases fault <;> rfl

/-- The outcome of two actions in sequence. -/
theorem outcome_bind {action : Lex first} {next : first → Lex second} (after : ∀ value, Blind (next value))
    (string : Text) : outcome (action >>= next) string =
      (outcome action string).bind fun value rest => outcome (next value) rest :=
  outcome_of_bind after (Lexer.init string)

/-- A first action that reads. -/
theorem outcome_bind_read {action : Lex first} {next : first → Lex second} {string rest : Text} {value : first}
    (read : outcome action string = .read value rest) (blind : Blind (next value)) :
    outcome (action >>= next) string = outcome (next value) rest := by
  rw [outcome, run_bind]
  rw [outcome] at read
  match ran : action (Lexer.init string) with
  | (.ok result, later) =>
      rw [ran] at read
      cases read
      exact blind.same later
  | (.error fault, later) =>
      rw [ran] at read
      cases fault <;> cases read

/-- A first action that does not read. -/
theorem outcome_bind_refused {action : Lex first} {string : Text} (refused : outcome action string = .refused)
    (next : first → Lex second) : outcome (action >>= next) string = .refused := by
  rw [outcome, run_bind]
  rw [outcome] at refused
  match ran : action (Lexer.init string) with
  | (.ok result, later) =>
      rw [ran] at refused
      cases refused
  | (.error fault, later) =>
      rw [ran] at refused
      cases fault <;> first | rfl | cases refused

theorem outcome_bind_ended {action : Lex first} {string : Text} (ended : outcome action string = .ended)
    (next : first → Lex second) : outcome (action >>= next) string = .ended := by
  rw [outcome, run_bind]
  rw [outcome] at ended
  match ran : action (Lexer.init string) with
  | (.ok result, later) =>
      rw [ran] at ended
      cases ended
  | (.error fault, later) =>
      rw [ran] at ended
      cases fault <;> first | rfl | cases ended

/-- The parts of two actions that have read. -/
theorem outcome_bind_cases {action : Lex first} {next : first → Lex second} (after : ∀ value, Blind (next value))
    {string last : Text} {result : second} (read : outcome (action >>= next) string = .read result last) :
    ∃ value rest, outcome action string = .read value rest ∧ outcome (next value) rest = .read result last := by
  rw [outcome_bind after] at read
  exact Outcome.bind_read_iff.mp read

namespace Blind

theorem bind {action : Lex first} {next : first → Lex second} (blind : Blind action)
    (after : ∀ value, Blind (next value)) : Blind (action >>= next) where
  same lexer := by
    rw [outcome_of_bind after, outcome_bind after, blind.same]
  empty lexer ended := by
    have first := blind.empty lexer
    rw [run_bind] at ended ⊢
    match ran : action lexer with
    | (.ok value, later) =>
        rw [ran] at ended
        exact (after value).empty later ended
    | (.error fault, later) =>
        rw [ran] at ended first
        dsimp only at ended ⊢
        apply first
        cases fault with
        | failure => rfl
        | running => cases ended
        | parsingError => cases ended
        | invalidArgument => cases ended
        | outOfRange => cases ended
        | lengthError => cases ended

theorem pure (value : first) : Blind (Pure.pure value : Lex first) where
  same _ := rfl
  empty _ ended := by cases ended

theorem throw {fault : Fault} (other : fault ≠ .failure) : Blind (MonadExcept.throw fault : Lex first) where
  same lexer := Outcome.of_error lexer _
  empty lexer ended := by
    cases fault with
    | failure => exact absurd rfl other
    | running => cases ended
    | parsingError => cases ended
    | invalidArgument => cases ended
    | outOfRange => cases ended
    | lengthError => cases ended

theorem parsingError (what : Text) : Blind (Lexer.parsingError what : Lex first) where
  same _ := rfl
  empty _ ended := by cases ended

theorem getc : Blind Lexer.getc where
  same lexer := by
    match lexer with
    | ⟨[], position⟩ => rfl
    | ⟨char :: rest, position⟩ => rfl
  empty lexer ended := by
    match lexer with
    | ⟨[], position⟩ => rfl
    | ⟨char :: rest, position⟩ => cases ended

theorem ungetc (char : UInt8) : Blind (Lexer.ungetc char) where
  same _ := rfl
  empty _ ended := by cases ended

theorem fuel : Blind Lexer.fuel where
  same _ := rfl
  empty _ ended := by cases ended

/-- The result of a function that throws without the lexer. -/
theorem lift {result : Except Fault first} (other : result ≠ .error .failure) :
    Blind (liftM result : Lex first) where
  same lexer := by
    match result with
    | .ok value => rfl
    | .error fault => exact Outcome.of_error lexer _
  empty lexer ended := by
    match result with
    | .ok value => cases ended
    | .error fault => exact (throw fun same => other (by rw [same])).empty lexer ended

/-- Reading from the stream of the lexer does not look at the position. -/
theorem ofRead {action : Read first} (empty : ∀ stream, (action stream).1 = .error .failure → (action stream).2 = []) :
    Blind (Lexer.ofRead action) where
  same lexer := by
    change Outcome.of ((action lexer.rest).1, _) = Outcome.of ((action lexer.rest).1, _)
    match (action lexer.rest).1 with
    | .ok value => rfl
    | .error fault => exact Outcome.of_error _ _
  empty lexer ended := by
    change Outcome.of ((action lexer.rest).1, _) = _ at ended
    apply empty lexer.rest
    match ran : (action lexer.rest).1 with
    | .ok value =>
        rw [ran] at ended
        cases ended
    | .error fault =>
        rw [ran] at ended
        cases fault with
        | failure => rfl
        | running => cases ended
        | parsingError => cases ended
        | invalidArgument => cases ended
        | outOfRange => cases ended
        | lengthError => cases ended

end Blind

end Actions

end SimpleNFast.Json
