import SimpleNFast.Construction.Json.Documents
import SimpleNFast.Proof.Json.Outcome

namespace SimpleNFast.Json

section Actions

variable {state first second : Type}

/-- A run that ends with an exception that is not named. -/
def Undocumented (run : Except Fault first × state) : Prop :=
  ∃ fault later, run = (.error fault, later) ∧ fault ≠ .running ∧ ¬ fault.IsDocumented

/-- A fact about a run that holds of no exception that is named, and not while a loop runs. -/
def Settled (observed : Except Fault first × state → Prop) : Prop :=
  ∀ fault later, observed (.error fault, later) → fault ≠ .running ∧ ¬ fault.IsDocumented

/-- The action throws only what is named. -/
def Documented (action : ExceptT Fault (StateM state) first) : Prop :=
  ∀ start fault later, action start = (.error fault, later) → fault = .running ∨ fault.IsDocumented

theorem settled_undocumented : Settled (Undocumented : Except Fault first × state → Prop) := by
  rintro fault later ⟨found, last, same, other⟩
  cases same
  exact other

theorem settled_read (result : first) (rest : Text) :
    Settled fun run : Except Fault first × Lexer => Outcome.of run = .read result rest := by
  intro fault lexer same
  cases fault <;> cases same

theorem Blind.read {action : Lex first} (blind : Blind action) {lexer later : Lexer} {result : first}
    (ran : action lexer = (.ok result, later)) : outcome action lexer.rest = .read result later.rest := by
  rw [← blind.same, ran]
  rfl

/-- An action that reads, whatever the position is. -/
theorem Blind.run {action : Lex first} (blind : Blind action) {lexer : Lexer} {string rest : Text} {value : first}
    (isString : lexer.rest = string) (read : outcome action string = .read value rest) :
    ∃ later : Lexer, later.rest = rest ∧ action lexer = (.ok value, later) := by
  rw [← isString, ← blind.same] at read
  match ran : action lexer with
  | (.ok result, later) =>
      rw [ran] at read
      cases read
      exact ⟨later, rfl, rfl⟩
  | (.error fault, later) =>
      rw [ran] at read
      cases fault <;> cases read

theorem run_bind_read {action : Lex first} (blind : Blind action) {lexer : Lexer} {string rest : Text}
    {value : first} (isString : lexer.rest = string) (read : outcome action string = .read value rest)
    (next : first → Lex second) :
    ∃ later : Lexer, later.rest = rest ∧ (action >>= next) lexer = next value later := by
  obtain ⟨later, isRest, ran⟩ := blind.run isString read
  exact ⟨later, isRest, run_bind_ok ran next⟩

/-- The first action has returned when a sequence comes to such a result. -/
theorem bind_observed {action : ExceptT Fault (StateM state) first} {next : first → ExceptT Fault (StateM state) second}
    {start : state} {observed : Except Fault second × state → Prop} (documented : Documented action)
    (settled : Settled observed) (holds : observed ((action >>= next) start)) :
    ∃ value later, action start = (.ok value, later) ∧ observed (next value later) := by
  rw [run_bind] at holds
  match ran : action start with
  | (.ok value, later) =>
      rw [ran] at holds
      exact ⟨value, later, rfl, holds⟩
  | (.error fault, later) =>
      rw [ran] at holds
      obtain ⟨notRunning, notNamed⟩ := settled fault later holds
      exact ((documented start fault later ran).elim notRunning notNamed).elim

/-- A sequence throws what one of its actions throws. -/
theorem undocumented_bind {action : ExceptT Fault (StateM state) first}
    {next : first → ExceptT Fault (StateM state) second} {start : state} :
    Undocumented ((action >>= next) start) ↔ Undocumented (action start) ∨
      ∃ value later, action start = (.ok value, later) ∧ Undocumented (next value later) := by
  rw [run_bind]
  match ran : action start with
  | (.ok value, later) =>
      constructor
      · exact fun throws => .inr ⟨value, later, rfl, throws⟩
      · rintro (⟨fault, last, same, -⟩ | ⟨result, last, same, throws⟩)
        · cases same
        · cases same
          exact throws
  | (.error fault, later) =>
      constructor
      · rintro ⟨found, last, same, other⟩
        cases same
        exact .inl ⟨fault, later, rfl, other⟩
      · rintro (⟨found, last, same, other⟩ | ⟨result, last, same, -⟩)
        · cases same
          exact ⟨fault, later, rfl, other⟩
        · cases same

namespace Documented

theorem not_undocumented {action : ExceptT Fault (StateM state) first} (documented : Documented action)
    (start : state) : ¬ Undocumented (action start) := by
  rintro ⟨fault, later, ran, notRunning, notNamed⟩
  obtain running | named := documented start fault later ran
  · exact notRunning running
  · exact notNamed named

theorem bind {action : ExceptT Fault (StateM state) first} {next : first → ExceptT Fault (StateM state) second}
    (documented : Documented action) (after : ∀ value, Documented (next value)) : Documented (action >>= next) := by
  intro start fault later failed
  rw [run_bind] at failed
  match ran : action start with
  | (.ok value, middle) =>
      rw [ran] at failed
      exact after value middle fault later failed
  | (.error found, middle) =>
      rw [ran] at failed
      cases failed
      exact documented start fault later ran

theorem pure (value : first) : Documented (Pure.pure value : ExceptT Fault (StateM state) first) := by
  intro start fault later failed
  cases failed

theorem throw {fault : Fault} (named : fault = .running ∨ fault.IsDocumented) :
    Documented (MonadExcept.throw fault : ExceptT Fault (StateM state) first) := by
  intro start found later failed
  cases failed
  exact named

theorem parsingError (what : Text) : Documented (Lexer.parsingError what : Lex first) := by
  intro lexer fault later failed
  cases failed
  exact .inr trivial

theorem getc : Documented Lexer.getc := by
  intro lexer fault later failed
  match lexer with
  | ⟨[], position⟩ =>
      cases failed
      exact .inr trivial
  | ⟨char :: rest, position⟩ => cases failed

theorem ungetc (char : UInt8) : Documented (Lexer.ungetc char) := by
  intro lexer fault later failed
  cases failed

theorem fuel : Documented Lexer.fuel := by
  intro lexer fault later failed
  cases failed

/-- The result of a function that throws only what is named. -/
theorem lift {result : Except Fault first} (named : ∀ fault, result = .error fault → fault.IsDocumented) :
    Documented (liftM result : Lex first) := by
  intro lexer fault later failed
  match result with
  | .ok value => cases failed
  | .error found =>
      cases failed
      exact .inr (named fault rfl)

theorem ofRead {action : Read first} (documented : Documented action) : Documented (Lexer.ofRead action) := by
  intro lexer fault later failed
  match ran : action lexer.rest with
  | (result, rest) =>
      rw [Lexer.ofRead, ran] at failed
      cases failed
      exact documented lexer.rest fault rest ran

end Documented

end Actions

end SimpleNFast.Json
