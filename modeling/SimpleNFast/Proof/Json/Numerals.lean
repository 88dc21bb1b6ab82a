import Mathlib.Data.List.TakeWhile
import SimpleNFast.Proof.Json.Faults
import SimpleNFast.Proof.Json.Strings

namespace SimpleNFast.Json

/-- The accepted characters at the beginning of a text, with what stops them. -/
theorem span_cases (accepts : UInt8 → Bool) (string : Text) :
    (∃ taken char rest, string = taken ++ char :: rest ∧ (∀ octet ∈ taken, accepts octet = true) ∧
      accepts char = false) ∨ ∀ octet ∈ string, accepts octet = true := by
  induction string with
  | nil => exact .inr (by simp)
  | cons first string inductionHypothesis =>
      cases accepted : accepts first with
      | false => exact .inl ⟨[], first, string, rfl, by simp, accepted⟩
      | true =>
          obtain ⟨taken, char, rest, rfl, all, stops⟩ | all := inductionHypothesis
          · exact .inl ⟨first :: taken, char, rest, rfl, List.forall_mem_cons.mpr ⟨accepted, all⟩, stops⟩
          · exact .inr (List.forall_mem_cons.mpr ⟨accepted, all⟩)

/-- The digits of an exponent after those that were skipped or taken. -/
def exponentTail (first : Text) : Lex (Text × UInt8) := do
  let (rest, last) ← Lexer.getDigits
  if (first ++ rest).isEmpty then Lexer.parsingError (text "no exponent value found")
  else pure (first ++ rest, last)

/-- The loop over the zeros at the beginning of an exponent. -/
def exponentSkip : Lex Unit := do
  let (_, last) ← Lexer.getWhile (· == byte '0') (← Lexer.fuel)
  Lexer.ungetc last

theorem getExponentDigits_eq (char : UInt8) :
    Lexer.getExponentDigits char =
      if char = byte '0' then do
        exponentSkip
        exponentTail []
      else if digit1_9 char then exponentTail [char]
      else Lexer.parsingError (text "unexpected character found") := by
  rw [Lexer.getExponentDigits]
  dsimp only
  split
  · rw [exponentSkip]
    simp only [bind_assoc, pure_bind]
    rfl
  · split
    · rw [pure_bind]
      rfl
    · rfl

namespace Blind

theorem getWhile (accepts : UInt8 → Bool) (fuel : Nat) : Blind (Lexer.getWhile accepts fuel) := by
  induction fuel with
  | zero => exact throw (by decide)
  | succ fuel inductionHypothesis =>
      rw [Lexer.getWhile]
      refine bind getc fun char => ?_
      split
      · exact bind inductionHypothesis fun _ => pure _
      · exact pure _

theorem getDigits : Blind Lexer.getDigits := bind fuel fun _ => getWhile _ _

theorem getFirst (char : UInt8) : Blind (Lexer.getFirst char) := by
  rw [Lexer.getFirst]
  split
  · refine bind getc fun next => ?_
    split
    · exact parsingError _
    · exact bind (ungetc _) fun _ => pure _
  · split
    · exact pure _
    · exact parsingError _

theorem getFraction (char : UInt8) : Blind (Lexer.getFraction char) := by
  rw [Lexer.getFraction]
  split
  · refine bind getc fun first => ?_
    split
    · exact bind getDigits fun _ => pure _
    · exact parsingError _
  · exact pure _

theorem exponentTail (first : Text) : Blind (exponentTail first) := by
  refine bind getDigits fun ⟨rest, last⟩ => ?_
  dsimp only
  split
  · exact parsingError _
  · exact pure _

theorem exponentSkip : Blind exponentSkip :=
  bind fuel fun _ => bind (getWhile _ _) fun _ => ungetc _

theorem getExponentDigits (char : UInt8) : Blind (Lexer.getExponentDigits char) := by
  rw [getExponentDigits_eq]
  split
  · exact bind exponentSkip fun _ => exponentTail _
  · split
    · exact exponentTail _
    · exact parsingError _

theorem getExponent (char : UInt8) : Blind (Lexer.getExponent char) := by
  rw [Lexer.getExponent]
  split
  · refine bind getc fun next => ?_
    split
    · refine bind getc fun digit => ?_
      exact bind (getExponentDigits _) fun _ => pure _
    · exact bind (getExponentDigits _) fun _ => pure _
  · exact pure _

end Blind

namespace Documented

theorem getWhile (accepts : UInt8 → Bool) (fuel : Nat) : Documented (Lexer.getWhile accepts fuel) := by
  induction fuel with
  | zero => exact throw (.inl rfl)
  | succ fuel inductionHypothesis =>
      rw [Lexer.getWhile]
      refine bind getc fun char => ?_
      split
      · exact bind inductionHypothesis fun _ => pure _
      · exact pure _

theorem getDigits : Documented Lexer.getDigits := bind fuel fun _ => getWhile _ _

theorem getFirst (char : UInt8) : Documented (Lexer.getFirst char) := by
  rw [Lexer.getFirst]
  split
  · refine bind getc fun next => ?_
    split
    · exact parsingError _
    · exact bind (ungetc _) fun _ => pure _
  · split
    · exact pure _
    · exact parsingError _

theorem getFraction (char : UInt8) : Documented (Lexer.getFraction char) := by
  rw [Lexer.getFraction]
  split
  · refine bind getc fun first => ?_
    split
    · exact bind getDigits fun _ => pure _
    · exact parsingError _
  · exact pure _

theorem exponentTail (first : Text) : Documented (exponentTail first) := by
  refine bind getDigits fun ⟨rest, last⟩ => ?_
  dsimp only
  split
  · exact parsingError _
  · exact pure _

theorem exponentSkip : Documented exponentSkip :=
  bind fuel fun _ => bind (getWhile _ _) fun _ => ungetc _

theorem getExponentDigits (char : UInt8) : Documented (Lexer.getExponentDigits char) := by
  rw [getExponentDigits_eq]
  split
  · exact bind exponentSkip fun _ => exponentTail _
  · split
    · exact exponentTail _
    · exact parsingError _

theorem getExponent (char : UInt8) : Documented (Lexer.getExponent char) := by
  rw [Lexer.getExponent]
  split
  · refine bind getc fun next => ?_
    split
    · refine bind getc fun digit => ?_
      exact bind (getExponentDigits _) fun _ => pure _
    · exact bind (getExponentDigits _) fun _ => pure _
  · exact pure _

end Documented

/-- The loop over accepted characters stops at the first other one. -/
theorem outcome_getWhile {accepts : UInt8 → Bool} {taken : Text} (all : ∀ octet ∈ taken, accepts octet = true)
    {char : UInt8} (stops : accepts char = false) {fuel : Nat} (enough : taken.length < fuel) (rest : Text) :
    outcome (Lexer.getWhile accepts fuel) (taken ++ char :: rest) = .read (taken, char) rest := by
  induction taken generalizing fuel with
  | nil =>
      cases fuel with
      | zero => cases enough
      | succ fuel =>
          rw [Lexer.getWhile, List.nil_append, outcome_bind_read (outcome_getc_cons char rest)]
          · rw [if_neg (by simp [stops])]
            rfl
          · rw [if_neg (by simp [stops])]
            exact Blind.pure _
  | cons first taken inductionHypothesis =>
      cases fuel with
      | zero => cases enough
      | succ fuel =>
          rw [List.length_cons] at enough
          obtain ⟨accepted, all⟩ := List.forall_mem_cons.mp all
          have blind : Blind (do
              let (rest, last) ← Lexer.getWhile accepts fuel
              pure (first :: rest, last)) := Blind.bind (Blind.getWhile _ _) fun _ => Blind.pure _
          rw [Lexer.getWhile, List.cons_append, outcome_bind_read (outcome_getc_cons first _)]
          · rw [if_pos accepted]
            exact outcome_bind_read (inductionHypothesis all (by omega)) (Blind.pure _)
          · rw [if_pos accepted]
            exact blind

/-- The loop comes to the end when all characters are accepted. -/
theorem outcome_getWhile_all {accepts : UInt8 → Bool} {string : Text}
    (all : ∀ octet ∈ string, accepts octet = true) {fuel : Nat} (enough : string.length < fuel) :
    outcome (Lexer.getWhile accepts fuel) string = .ended := by
  induction string generalizing fuel with
  | nil =>
      cases fuel with
      | zero => cases enough
      | succ fuel => exact outcome_bind_ended outcome_getc_nil _
  | cons first string inductionHypothesis =>
      cases fuel with
      | zero => cases enough
      | succ fuel =>
          rw [List.length_cons] at enough
          obtain ⟨accepted, all⟩ := List.forall_mem_cons.mp all
          have ended := inductionHypothesis all (show string.length < fuel by omega)
          rw [Lexer.getWhile, outcome_bind_read (outcome_getc_cons first _)]
          · rw [if_pos accepted, outcome_bind_ended ended]
          · rw [if_pos accepted]
            exact Blind.bind (Blind.getWhile _ _) fun _ => Blind.pure _

/-- What the loop over accepted characters has read. -/
theorem getWhile_read {accepts : UInt8 → Bool} {string taken rest : Text} {char : UInt8} {fuel : Nat}
    (enough : string.length < fuel)
    (read : outcome (Lexer.getWhile accepts fuel) string = .read (taken, char) rest) :
    string = taken ++ char :: rest ∧ (∀ octet ∈ taken, accepts octet = true) ∧ accepts char = false := by
  obtain ⟨first, stop, last, rfl, all, stops⟩ | all := span_cases accepts string
  · rw [List.length_append] at enough
    rw [outcome_getWhile all stops (by omega)] at read
    cases read
    exact ⟨rfl, all, stops⟩
  · rw [outcome_getWhile_all all enough] at read
    cases read

theorem outcome_getDigits (string : Text) :
    outcome Lexer.getDigits string = outcome (Lexer.getWhile digit (string.length + 1)) string :=
  outcome_bind_read (outcome_fuel string) (Blind.getWhile _ _)

theorem outcome_getDigits_stop {digits : Text} (all : ∀ octet ∈ digits, digit octet = true) {char : UInt8}
    (stops : digit char = false) (rest : Text) :
    outcome Lexer.getDigits (digits ++ char :: rest) = .read (digits, char) rest := by
  rw [outcome_getDigits]
  exact outcome_getWhile all stops (by simp) rest

theorem outcome_getDigits_all {string : Text} (all : ∀ octet ∈ string, digit octet = true) :
    outcome Lexer.getDigits string = .ended := by
  rw [outcome_getDigits]
  exact outcome_getWhile_all all (Nat.lt_succ_self _)

theorem getDigits_read {string digits rest : Text} {char : UInt8}
    (read : outcome Lexer.getDigits string = .read (digits, char) rest) :
    string = digits ++ char :: rest ∧ (∀ octet ∈ digits, digit octet = true) ∧ digit char = false := by
  rw [outcome_getDigits] at read
  exact getWhile_read (Nat.lt_succ_self _) read

section Parts

variable (rest : Text)

theorem outcome_getFirst_zero (next : UInt8) :
    outcome (Lexer.getFirst (byte '0')) (next :: rest) =
      if next = byte '.' then .read [byte '0'] (next :: rest) else .refused := by
  rw [Lexer.getFirst, if_pos rfl]
  by_cases point : next = byte '.'
  · rw [if_pos point, outcome_bind_read (outcome_getc_cons next rest)]
    · rw [if_neg (by simp [point])]
      rfl
    · rw [if_neg (by simp [point])]
      exact Blind.bind (Blind.ungetc _) fun _ => Blind.pure _
  · rw [if_neg point, outcome_bind_read (outcome_getc_cons next rest)]
    · rw [if_pos point]
      rfl
    · rw [if_pos point]
      exact Blind.parsingError _

theorem digit1_9_ne_zero {char : UInt8} (positive : digit1_9 char = true) : char ≠ byte '0' := by
  rintro rfl
  revert positive
  decide

theorem outcome_getFirst_digit {char : UInt8} (positive : digit1_9 char = true) :
    outcome (Lexer.getFirst char) rest = .read [char] rest := by
  rw [Lexer.getFirst, if_neg (digit1_9_ne_zero positive), if_pos positive]
  rfl

/-- What the first digit of a number has read. -/
theorem getFirst_read {char : UInt8} {string first last : Text}
    (read : outcome (Lexer.getFirst char) string = .read first last) :
    first = [char] ∧ last = string ∧
      ((char = byte '0' ∧ ∃ tail, string = byte '.' :: tail) ∨ digit1_9 char = true) := by
  by_cases zero : char = byte '0'
  · subst zero
    match string with
    | [] => cases read
    | next :: tail =>
        rw [outcome_getFirst_zero] at read
        by_cases point : next = byte '.'
        · rw [if_pos point] at read
          cases read
          exact ⟨rfl, rfl, .inl ⟨rfl, tail, by rw [point]⟩⟩
        · rw [if_neg point] at read
          cases read
  · by_cases positive : digit1_9 char = true
    · rw [outcome_getFirst_digit string positive] at read
      cases read
      exact ⟨rfl, rfl, .inr positive⟩
    · rw [Lexer.getFirst, if_neg zero, if_neg positive] at read
      cases read

theorem outcome_getFraction_none {char : UInt8} (other : char ≠ byte '.') :
    outcome (Lexer.getFraction char) rest = .read ([], char) rest := by
  rw [Lexer.getFraction, if_neg other]
  rfl

theorem outcome_getFraction_point {first : UInt8} {digits : Text} (isDigit : digit first = true)
    (all : ∀ octet ∈ digits, digit octet = true) {char : UInt8} (stops : digit char = false) :
    outcome (Lexer.getFraction (byte '.')) (first :: digits ++ char :: rest) =
      .read (byte '.' :: first :: digits, char) rest := by
  rw [Lexer.getFraction, if_pos rfl, List.cons_append, outcome_bind_read (outcome_getc_cons first _)]
  · rw [if_pos isDigit]
    exact outcome_bind_read (outcome_getDigits_stop all stops rest) (Blind.pure _)
  · rw [if_pos isDigit]
    exact Blind.bind Blind.getDigits fun _ => Blind.pure _

/-- What the fraction of a number has read. -/
theorem getFraction_read {char last : UInt8} {string part later : Text}
    (read : outcome (Lexer.getFraction char) string = .read (part, last) later) :
    (char ≠ byte '.' ∧ part = [] ∧ last = char ∧ later = string) ∨
      ∃ first digits, char = byte '.' ∧ part = byte '.' :: first :: digits ∧
        string = first :: digits ++ last :: later ∧ (∀ octet ∈ first :: digits, digit octet = true) ∧
        digit last = false := by
  by_cases point : char = byte '.'
  · subst point
    rw [Lexer.getFraction, if_pos rfl] at read
    match string with
    | [] => cases read
    | first :: string =>
        by_cases isDigit : digit first = true
        · rw [outcome_bind_read (outcome_getc_cons first string), if_pos isDigit] at read
          · obtain ⟨⟨digits, stop⟩, rest, ran, same⟩ := outcome_bind_cases (fun _ => Blind.pure _) read
            cases same
            obtain ⟨rfl, all, stops⟩ := getDigits_read ran
            exact .inr ⟨first, digits, rfl, rfl, rfl, List.forall_mem_cons.mpr ⟨isDigit, all⟩, stops⟩
          · rw [if_pos isDigit]
            exact Blind.bind Blind.getDigits fun _ => Blind.pure _
        · rw [outcome_bind_read (outcome_getc_cons first string), if_neg isDigit] at read
          · cases read
          · rw [if_neg isDigit]
            exact Blind.parsingError _
  · rw [outcome_getFraction_none string point] at read
    cases read
    exact .inl ⟨point, rfl, rfl, rfl⟩

theorem outcome_exponentTail (first : Text) {digits : Text} (all : ∀ octet ∈ digits, digit octet = true)
    {char : UInt8} (stops : digit char = false) :
    outcome (exponentTail first) (digits ++ char :: rest) =
      if first ++ digits = [] then .refused else .read (first ++ digits, char) rest := by
  have blind := Blind.exponentTail first
  rw [exponentTail, outcome_bind_read (outcome_getDigits_stop all stops rest)]
  · dsimp only
    by_cases empty : first ++ digits = []
    · rw [if_pos empty, if_pos (by simpa using empty)]
      rfl
    · rw [if_neg empty, if_neg (by simpa using empty)]
      rfl
  · dsimp only
    split
    · exact Blind.parsingError _
    · exact Blind.pure _

/-- The zeros that are skipped are the leading ones. -/
theorem outcome_exponentSkip {digits : Text} {char : UInt8} (stops : digit char = false) :
    outcome exponentSkip (digits ++ char :: rest) =
      .read () (digits.dropWhile (· == byte '0') ++ char :: rest) := by
  have other : (char == byte '0') = false := by
    by_contra same
    rw [Bool.not_eq_false, beq_iff_eq] at same
    subst same
    revert stops
    decide
  obtain ⟨zeros, stop, tail, rfl, all, ends⟩ | all := span_cases (· == byte '0') digits
  · have drop : (zeros ++ stop :: tail).dropWhile (· == byte '0') = stop :: tail := by
      rw [List.dropWhile_append_of_pos all, List.dropWhile_cons_of_neg (by simpa using ends)]
    have skipped := outcome_getWhile all ends
      (show zeros.length < (zeros ++ stop :: (tail ++ char :: rest)).length + 1 by simp) (tail ++ char :: rest)
    rw [drop, exponentSkip, outcome_bind_read (outcome_fuel _)]
    · rw [List.append_assoc, List.cons_append]
      exact outcome_bind_read skipped (Blind.ungetc _)
    · exact Blind.bind (Blind.getWhile _ _) fun _ => Blind.ungetc _
  · have drop : digits.dropWhile (· == byte '0') = [] := List.dropWhile_eq_nil_iff.mpr all
    have skipped := outcome_getWhile all other (show digits.length < (digits ++ char :: rest).length + 1 by simp) rest
    rw [drop, exponentSkip, outcome_bind_read (outcome_fuel _)]
    · exact outcome_bind_read skipped (Blind.ungetc _)
    · exact Blind.bind (Blind.getWhile _ _) fun _ => Blind.ungetc _

theorem outcome_getExponentDigits {first : UInt8} {digits : Text} (isDigit : digit first = true)
    (all : ∀ octet ∈ digits, digit octet = true) {char : UInt8} (stops : digit char = false) :
    outcome (Lexer.getExponentDigits first) (digits ++ char :: rest) =
      if (first :: digits).dropWhile (· == byte '0') = [] then .refused
      else .read ((first :: digits).dropWhile (· == byte '0'), char) rest := by
  rw [getExponentDigits_eq]
  by_cases zero : first = byte '0'
  · have kept : ∀ octet ∈ digits.dropWhile (· == byte '0'), digit octet = true :=
      fun octet member => all octet ((List.dropWhile_suffix _).subset member)
    rw [if_pos zero, outcome_bind_read (outcome_exponentSkip rest stops) (Blind.exponentTail _),
      outcome_exponentTail rest [] kept stops, List.nil_append, List.dropWhile_cons_of_pos (by simp [zero])]
  · have positive : digit1_9 first = true := by
      rw [digit, Bool.or_eq_true, beq_iff_eq] at isDigit
      exact isDigit.resolve_left zero
    rw [if_neg zero, if_pos positive, outcome_exponentTail rest [first] all stops,
      List.dropWhile_cons_of_neg (by simp [zero])]
    rfl

theorem outcome_exponentSkip_all {string : Text} (all : ∀ octet ∈ string, digit octet = true) :
    outcome exponentSkip string = .ended ∨
      ∃ later, outcome exponentSkip string = .read () later ∧ ∀ octet ∈ later, digit octet = true := by
  have blind : ∀ count, Blind (do
      let (_, last) ← Lexer.getWhile (· == byte '0') count
      Lexer.ungetc last) := fun count => Blind.bind (Blind.getWhile _ _) fun _ => Blind.ungetc _
  rw [exponentSkip, outcome_bind_read (outcome_fuel _) (blind _)]
  obtain ⟨zeros, stop, tail, rfl, zero, ends⟩ | zero := span_cases (· == byte '0') string
  · have skipped := outcome_getWhile zero ends
      (show zeros.length < (zeros ++ stop :: tail).length + 1 by simp) tail
    refine .inr ⟨stop :: tail, outcome_bind_read skipped (Blind.ungetc _), ?_⟩
    exact fun octet member => all octet (List.mem_append_right _ member)
  · exact .inl (outcome_bind_ended (outcome_getWhile_all zero (Nat.lt_succ_self _)) _)

theorem outcome_getExponentDigits_all {first : UInt8} {string : Text} (isDigit : digit first = true)
    (all : ∀ octet ∈ string, digit octet = true) : outcome (Lexer.getExponentDigits first) string = .ended := by
  have tail : ∀ {taken string : Text}, (∀ octet ∈ string, digit octet = true) →
      outcome (exponentTail taken) string = .ended :=
    fun all => outcome_bind_ended (outcome_getDigits_all all) _
  rw [getExponentDigits_eq]
  by_cases zero : first = byte '0'
  · rw [if_pos zero]
    obtain ended | ⟨later, skipped, all⟩ := outcome_exponentSkip_all all
    · exact outcome_bind_ended ended _
    · rw [outcome_bind_read skipped (Blind.exponentTail _)]
      exact tail all
  · rw [digit, Bool.or_eq_true, beq_iff_eq] at isDigit
    rw [if_neg zero, if_pos (isDigit.resolve_left zero)]
    exact tail all

/-- What the digits of an exponent have read. -/
theorem getExponentDigits_read {first last : UInt8} {string kept later : Text}
    (read : outcome (Lexer.getExponentDigits first) string = .read (kept, last) later) :
    ∃ digits, first :: string = digits ++ last :: later ∧ digits ≠ [] ∧
      (∀ octet ∈ digits, digit octet = true) ∧ digit last = false ∧
      kept = digits.dropWhile (· == byte '0') ∧ kept ≠ [] := by
  by_cases isDigit : digit first = true
  · obtain ⟨digits, char, rest, rfl, all, stops⟩ | all := span_cases digit string
    · rw [outcome_getExponentDigits rest isDigit all stops] at read
      split at read
      · cases read
      · rename_i nonempty
        cases read
        exact ⟨first :: digits, rfl, by simp, List.forall_mem_cons.mpr ⟨isDigit, all⟩, stops, rfl, nonempty⟩
    · rw [outcome_getExponentDigits_all isDigit all] at read
      cases read
  · rw [digit, Bool.or_eq_true, beq_iff_eq, not_or] at isDigit
    rw [getExponentDigits_eq, if_neg isDigit.1, if_neg isDigit.2] at read
    cases read

theorem outcome_getExponent_none {char : UInt8} (other : ¬ (char = byte 'e' ∨ char = byte 'E')) :
    outcome (Lexer.getExponent char) rest = .read ([], char) rest := by
  rw [Lexer.getExponent, if_neg other]
  rfl

theorem digit_ne_sign {char : UInt8} (isDigit : digit char = true) : ¬ (char = byte '+' ∨ char = byte '-') := by
  rintro (rfl | rfl)
  · revert isDigit
    decide
  · revert isDigit
    decide

/-- The digits of an exponent that are kept. -/
def Exponent.kept (exponent : Exponent) : Text := exponent.digits.dropWhile (· == byte '0')

theorem outcome_getExponent_some (exponent : Exponent) {char : UInt8} (stops : digit char = false) :
    outcome (Lexer.getExponent exponent.letter) (exponent.sign ++ exponent.digits ++ char :: rest) =
      if exponent.kept = [] then .refused
      else .read (exponent.letter :: exponent.sign ++ exponent.kept, char) rest := by
  obtain ⟨nonempty, all⟩ := exponent.digitsForm
  match isDigits : exponent.digits with
  | [] => exact absurd isDigits nonempty
  | first :: digits =>
      rw [isDigits] at all
      obtain ⟨isDigit, others⟩ := List.forall_mem_cons.mp all
      have ran := outcome_getExponentDigits rest isDigit others stops
      rw [← isDigits] at ran
      have after : ∀ sign : Text, outcome (do
          let (digits, last) ← Lexer.getExponentDigits first
          pure (exponent.letter :: sign ++ digits, last)) (digits ++ char :: rest) =
            if exponent.kept = [] then .refused
            else .read (exponent.letter :: sign ++ exponent.kept, char) rest := by
        intro sign
        rw [Exponent.kept]
        by_cases empty : exponent.digits.dropWhile (· == byte '0') = []
        · rw [if_pos empty] at ran ⊢
          exact outcome_bind_refused ran _
        · rw [if_neg empty] at ran ⊢
          exact outcome_bind_read ran (Blind.pure _)
      have blind : ∀ (sign : Text) (next : UInt8), Blind (do
          let (digits, last) ← Lexer.getExponentDigits next
          pure (exponent.letter :: sign ++ digits, last)) :=
        fun sign next => Blind.bind (Blind.getExponentDigits next) fun _ => Blind.pure _
      have signed : ∀ sign : UInt8, sign = byte '+' ∨ sign = byte '-' → exponent.sign = [sign] →
          outcome (Lexer.getExponent exponent.letter) (exponent.sign ++ first :: digits ++ char :: rest) =
            if exponent.kept = [] then .refused
            else .read (exponent.letter :: exponent.sign ++ exponent.kept, char) rest := by
        intro sign isSign same
        rw [Lexer.getExponent, if_pos exponent.letterForm, same, List.singleton_append, List.cons_append,
          outcome_bind_read (outcome_getc_cons sign _)]
        · rw [if_pos isSign, List.cons_append, outcome_bind_read (outcome_getc_cons first _) (blind [sign] first)]
          exact after [sign]
        · rw [if_pos isSign]
          exact Blind.bind Blind.getc fun next => blind [sign] next
      obtain same | same | same := exponent.signForm
      · rw [Lexer.getExponent, if_pos exponent.letterForm, same, List.nil_append, List.cons_append,
          outcome_bind_read (outcome_getc_cons first _)]
        · rw [if_neg (digit_ne_sign isDigit)]
          exact after []
        · rw [if_neg (digit_ne_sign isDigit)]
          exact blind [] first
      · exact signed _ (.inl rfl) same
      · exact signed _ (.inr rfl) same

/-- What the exponent of a number has read. -/
theorem getExponent_read {char last : UInt8} {string part later : Text}
    (read : outcome (Lexer.getExponent char) string = .read (part, last) later) :
    (¬ (char = byte 'e' ∨ char = byte 'E') ∧ part = [] ∧ last = char ∧ later = string) ∨
      ∃ exponent : Exponent, char :: string = exponent.letter :: exponent.sign ++ exponent.digits ++ last :: later ∧
        part = exponent.letter :: exponent.sign ++ exponent.kept ∧ exponent.kept ≠ [] ∧ digit last = false := by
  by_cases isLetter : char = byte 'e' ∨ char = byte 'E'
  · right
    have after : ∀ (sign : Text) (next : UInt8) (string : Text),
        (sign = [] ∨ sign = [byte '+'] ∨ sign = [byte '-']) → outcome (do
          let (digits, last) ← Lexer.getExponentDigits next
          pure (char :: sign ++ digits, last)) string = .read (part, last) later →
        ∃ exponent : Exponent, char :: sign ++ next :: string =
            exponent.letter :: exponent.sign ++ exponent.digits ++ last :: later ∧
          part = exponent.letter :: exponent.sign ++ exponent.kept ∧ exponent.kept ≠ [] ∧ digit last = false := by
      intro sign next string signForm read
      obtain ⟨⟨kept, stop⟩, rest, ran, same⟩ := outcome_bind_cases (fun _ => Blind.pure _) read
      cases same
      obtain ⟨digits, split, nonempty, all, stops, rfl, some⟩ := getExponentDigits_read ran
      refine ⟨⟨char, sign, digits, isLetter, signForm, nonempty, all⟩, ?_, rfl, some, stops⟩
      rw [split]
      simp [Lexer.init]
    have blind : ∀ (sign : Text) (next : UInt8), Blind (do
        let (digits, last) ← Lexer.getExponentDigits next
        pure (char :: sign ++ digits, last)) :=
      fun sign next => Blind.bind (Blind.getExponentDigits next) fun _ => Blind.pure _
    rw [Lexer.getExponent, if_pos isLetter] at read
    match string with
    | [] => cases read
    | next :: string =>
        by_cases isSign : next = byte '+' ∨ next = byte '-'
        · rw [outcome_bind_read (outcome_getc_cons next _), if_pos isSign] at read
          · match string with
            | [] => cases read
            | digit :: string =>
                rw [outcome_bind_read (outcome_getc_cons digit _) (blind [next] digit)] at read
                exact after [next] digit string (by simpa using isSign) read
          · rw [if_pos isSign]
            exact Blind.bind Blind.getc fun digit => blind [next] digit
        · rw [outcome_bind_read (outcome_getc_cons next _), if_neg isSign] at read
          · exact after [] next string (.inl rfl) read
          · rw [if_neg isSign]
            exact blind [] next
  · rw [outcome_getExponent_none string isLetter] at read
    cases read
    exact .inl ⟨isLetter, rfl, rfl, rfl⟩

end Parts

/-- The token of the text that was collected for a number. -/
def numberToken (sign first whole part exponent : Text) : Lex Token :=
  if part.isEmpty && exponent.isEmpty then do
    let value ← (stoll (sign ++ first ++ whole) : Except Fault Int64)
    pure (.integer value)
  else do
    let value ← (stold (sign ++ first ++ whole ++ part ++ exponent) : Except Fault Double)
    pure (.real value)

/-- The character after a number is put back before the conversion. -/
def numberFinish (sign first whole part exponent : Text) (char : UInt8) : Lex Token := do
  Lexer.ungetc char
  numberToken sign first whole part exponent

/-- The exponent of a number and its end. -/
def numberEnd (sign first whole part : Text) (char : UInt8) : Lex Token := do
  let (exponent, char) ← Lexer.getExponent char
  numberFinish sign first whole part exponent char

/-- The parts of a number after its first digits. -/
def numberTail (sign first whole : Text) (char : UInt8) : Lex Token := do
  let (part, char) ← Lexer.getFraction char
  numberEnd sign first whole part char

/-- A number after its sign. -/
def unsignedNumber (sign : Text) (char : UInt8) : Lex Token := do
  let first ← Lexer.getFirst char
  let (whole, char) ← Lexer.getDigits
  numberTail sign first whole char

/-- A number with or without a sign. -/
def signedStep (char : UInt8) : Lex Token :=
  if char = byte '-' then Lexer.getc >>= unsignedNumber [char] else unsignedNumber [] char

theorem getNumber_eq : Lexer.getNumber = Lexer.getc >>= signedStep := by
  rw [Lexer.getNumber]
  simp only [pure_bind]
  rfl

theorem stoll_ne_failure (string : Text) : stoll string ≠ .error .failure := by
  rw [stoll]
  split
  · simp
  · simp

theorem stold_ne_failure (string : Text) : stold string ≠ .error .failure := by
  rw [stold]
  split
  · simp
  · simp

namespace Blind

theorem numberToken (sign first whole part exponent : Text) : Blind (numberToken sign first whole part exponent) := by
  rw [Json.numberToken]
  split
  · exact bind (lift (stoll_ne_failure _)) fun _ => pure _
  · exact bind (lift (stold_ne_failure _)) fun _ => pure _

theorem numberFinish (sign first whole part exponent : Text) (char : UInt8) :
    Blind (numberFinish sign first whole part exponent char) :=
  bind (ungetc _) fun _ => numberToken _ _ _ _ _

theorem numberEnd (sign first whole part : Text) (char : UInt8) : Blind (numberEnd sign first whole part char) :=
  bind (getExponent _) fun _ => numberFinish _ _ _ _ _ _

theorem numberTail (sign first whole : Text) (char : UInt8) : Blind (numberTail sign first whole char) :=
  bind (getFraction _) fun _ => numberEnd _ _ _ _ _

theorem wholeTail (sign first : Text) : Blind (do
    let (whole, char) ← Lexer.getDigits
    Json.numberTail sign first whole char) :=
  bind getDigits fun _ => numberTail _ _ _ _

theorem unsignedNumber (sign : Text) (char : UInt8) : Blind (unsignedNumber sign char) :=
  bind (getFirst _) fun first => wholeTail sign first

theorem signedStep (char : UInt8) : Blind (signedStep char) := by
  rw [Json.signedStep]
  split
  · exact bind getc (unsignedNumber _)
  · exact unsignedNumber _ _

theorem getNumber : Blind Lexer.getNumber := by
  rw [getNumber_eq]
  exact bind getc signedStep

end Blind

/-- A character after a number that does not belong to it. -/
def Stops (char : UInt8) : Prop :=
  digit char = false ∧ char ≠ byte '.' ∧ char ≠ byte 'e' ∧ char ≠ byte 'E'

theorem Stops.endsAt {char : UInt8} (stops : Stops char) (numeral : Number) : numeral.EndsAt char :=
  ⟨stops.1, fun _ => ⟨stops.2.2.1, stops.2.2.2, fun _ => stops.2.1⟩⟩

/-- The text of an exponent that may be missing. -/
def exponentText : Option Exponent → Text
  | some exponent => exponent.letter :: exponent.sign ++ exponent.digits
  | none => []

/-- What the lexer keeps of an exponent that may be missing. -/
def exponentKept : Option Exponent → Text
  | some exponent => exponent.letter :: exponent.sign ++ exponent.kept
  | none => []

/-- The digits of an exponent are not all zeros. -/
def exponentRead (exponent : Option Exponent) : Prop := ∀ given, exponent = some given → given.kept ≠ []

theorem Number.text_eq (numeral : Number) :
    numeral.text = numeral.sign ++ numeral.whole ++ numeral.point ++ exponentText numeral.exponent := rfl

theorem Number.kept_eq (numeral : Number) :
    numeral.kept = numeral.sign ++ numeral.whole ++ numeral.point ++ exponentKept numeral.exponent := rfl

/-- The lexer comes to the conversion of a number with this text after it. -/
def Converts (numeral : Number) (run : Except Fault Token × Lexer) (rest : Text) : Prop :=
  ∃ first whole, ∃ later : Lexer, first ++ whole = numeral.whole ∧ later.rest = rest ∧
    run = numberToken numeral.sign first whole numeral.point (exponentKept numeral.exponent) later

/-- The exponent of a number as it is read. -/
theorem outcome_exponent (numeral : Number) {char : UInt8} (ends : numeral.EndsAt char) (rest : Text) :
    ∃ head tail, exponentText numeral.exponent ++ char :: rest = head :: tail ∧ digit head = false ∧
      (numeral.fraction = [] → head ≠ byte '.') ∧
      (exponentRead numeral.exponent →
        outcome (Lexer.getExponent head) tail = .read (exponentKept numeral.exponent, char) rest) ∧
      (¬ exponentRead numeral.exponent → outcome (Lexer.getExponent head) tail = .refused) := by
  obtain ⟨noDigit, alone⟩ := ends
  match isExponent : numeral.exponent with
  | none =>
      obtain ⟨small, large, noPoint⟩ := alone isExponent
      refine ⟨char, rest, rfl, noDigit, noPoint, fun _ => outcome_getExponent_none rest ?_, ?_⟩
      · rintro (same | same)
        · exact small same
        · exact large same
      · intro unread
        exact absurd (fun given same => by cases same) unread
  | some exponent =>
      have letter : digit exponent.letter = false ∧ exponent.letter ≠ byte '.' := by
        obtain same | same := exponent.letterForm
        · rw [same]
          decide
        · rw [same]
          decide
      have ran := outcome_getExponent_some rest exponent noDigit
      have readIff : exponentRead (some exponent) ↔ exponent.kept ≠ [] :=
        ⟨fun all => all exponent rfl, fun kept given same => by cases same; exact kept⟩
      refine ⟨exponent.letter, exponent.sign ++ exponent.digits ++ char :: rest, by simp [exponentText], letter.1,
        fun _ => letter.2, ?_, ?_⟩
      · intro isRead
        rw [ran, if_neg (readIff.mp isRead)]
        rfl
      · intro unread
        rw [ran, if_pos (by rwa [readIff, not_not] at unread)]

/-- The fraction and the exponent of a number as they are read. -/
theorem run_numberTail (numeral : Number) (sign first whole : Text) {char : UInt8} (ends : numeral.EndsAt char)
    (rest : Text) :
    ∃ head tail, numeral.point ++ (exponentText numeral.exponent ++ char :: rest) = head :: tail ∧
      digit head = false ∧ (head = byte '.' ↔ numeral.fraction ≠ []) ∧
      (exponentRead numeral.exponent → ∀ lexer : Lexer, lexer.rest = tail → ∃ later : Lexer,
        later.rest = char :: rest ∧ numberTail sign first whole head lexer =
          numberToken sign first whole numeral.point (exponentKept numeral.exponent) later) ∧
      (¬ exponentRead numeral.exponent → outcome (numberTail sign first whole head) tail = .refused) := by
  obtain ⟨letter, after, split, noDigit, noPoint, isRead, unread⟩ := outcome_exponent numeral ends rest
  have finish : ∀ {head : UInt8} {tail : Text},
      outcome (Lexer.getFraction head) tail = .read (numeral.point, letter) after →
      (exponentRead numeral.exponent → ∀ lexer : Lexer, lexer.rest = tail → ∃ later : Lexer,
        later.rest = char :: rest ∧ numberTail sign first whole head lexer =
          numberToken sign first whole numeral.point (exponentKept numeral.exponent) later) ∧
      (¬ exponentRead numeral.exponent → outcome (numberTail sign first whole head) tail = .refused) := by
    intro head tail ran
    constructor
    · intro kept lexer isTail
      obtain ⟨middle, isAfter, fraction⟩ := run_bind_read (Blind.getFraction head) isTail ran
        fun (part, char) => numberEnd sign first whole part char
      obtain ⟨last, rfl, exponent⟩ := run_bind_read (Blind.getExponent letter) isAfter (isRead kept)
        fun (exponent, char) => numberFinish sign first whole numeral.point exponent char
      exact ⟨⟨char :: last.rest, last.position.backward char⟩, rfl, fraction.trans exponent⟩
    · intro lost
      rw [numberTail, outcome_bind_read ran (Blind.numberEnd sign first whole _ _)]
      exact outcome_bind_refused (unread lost) _
  rw [split]
  match isFraction : numeral.fraction with
  | [] =>
      have point : numeral.point = [] := by rw [Number.point, if_pos isFraction]
      have noPoint := noPoint isFraction
      refine ⟨letter, after, by rw [point]; rfl, noDigit, by simp [noPoint], finish ?_⟩
      rw [point]
      exact outcome_getFraction_none after noPoint
  | digit :: digits =>
      have point : numeral.point = byte '.' :: digit :: digits := by
        rw [Number.point, isFraction, if_neg (by simp)]
      have all := numeral.fractionForm
      rw [isFraction] at all
      obtain ⟨isDigit, others⟩ := List.forall_mem_cons.mp all
      refine ⟨byte '.', digit :: digits ++ letter :: after, by rw [point]; rfl, by decide, by simp, finish ?_⟩
      rw [point]
      exact outcome_getFraction_point after isDigit others noDigit

/-- A token that is there is read, and one that is missing is refused. -/
def Outcome.ofOption {value : Type} (result : Option value) (rest : Text) : Outcome value :=
  match result with
  | some value => .read value rest
  | none => .refused

/-- A conversion reads nothing, and it throws what is no end of the input. -/
theorem outcome_lift {value result : Type} {conversion : Except Fault value}
    (other : conversion ≠ .error .failure ∧ conversion ≠ .error .running) (wrap : value → result) (string : Text) :
    outcome (do let value ← (liftM conversion : Lex value); pure (wrap value)) string =
      Outcome.ofOption (conversion.toOption.map wrap) string := by
  match conversion with
  | .ok value => rfl
  | .error fault =>
      cases fault with
      | failure => exact absurd rfl other.1
      | running => exact absurd rfl other.2
      | parsingError => rfl
      | invalidArgument => rfl
      | outOfRange => rfl
      | lengthError => rfl

theorem stoll_ne_running (string : Text) : stoll string ≠ .error .running := by
  rw [stoll]
  split
  · simp
  · simp

theorem stold_ne_running (string : Text) : stold string ≠ .error .running := by
  rw [stold]
  split
  · simp
  · simp

theorem exponentKept_isEmpty (exponent : Option Exponent) : (exponentKept exponent).isEmpty = exponent.isNone := by
  match exponent with
  | some exponent => rfl
  | none => rfl

theorem Number.point_isEmpty (numeral : Number) : numeral.point.isEmpty = numeral.fraction.isEmpty := by
  rw [point]
  split
  · rename_i empty
    rw [empty]
  · rename_i nonempty
    simp [nonempty]

/-- The conversion of a number that is read. -/
theorem outcome_numberToken (numeral : Number) (isRead : numeral.IsRead) {first whole : Text}
    (split : first ++ whole = numeral.whole) (string : Text) :
    outcome (numberToken numeral.sign first whole numeral.point (exponentKept numeral.exponent)) string =
      Outcome.ofOption numeral.token string := by
  have integer : (numeral.point.isEmpty && (exponentKept numeral.exponent).isEmpty) = numeral.isInteger := by
    rw [numeral.point_isEmpty, exponentKept_isEmpty, Number.isInteger]
  rw [numberToken, Number.token, if_pos isRead, integer]
  by_cases isInteger : numeral.isInteger = true
  · rw [if_pos isInteger, if_pos isInteger, List.append_assoc, split]
    exact outcome_lift ⟨stoll_ne_failure _, stoll_ne_running _⟩ _ string
  · have text : numeral.sign ++ first ++ whole ++ numeral.point ++ exponentKept numeral.exponent = numeral.kept := by
      rw [Number.kept_eq, List.append_assoc numeral.sign, split]
    rw [if_neg isInteger, if_neg isInteger, text]
    exact outcome_lift ⟨stold_ne_failure _, stold_ne_running _⟩ _ string

/-- The first digits of a number without its sign. -/
theorem run_wholePart (sign : Text) {first whole string middle rest : Text} {head char : UInt8} {lexer : Lexer}
    (isString : lexer.rest = string) (isFirst : outcome (Lexer.getFirst head) string = .read first middle)
    (digits : outcome Lexer.getDigits middle = .read (whole, char) rest) :
    ∃ later : Lexer, later.rest = rest ∧ unsignedNumber sign head lexer = numberTail sign first whole char later := by
  obtain ⟨middle, isMiddle, stepFirst⟩ := run_bind_read (Blind.getFirst head) isString isFirst fun first => do
    let (whole, char) ← Lexer.getDigits
    numberTail sign first whole char
  obtain ⟨later, isLater, stepDigits⟩ := run_bind_read Blind.getDigits isMiddle digits
    fun (whole, char) => numberTail sign first whole char
  exact ⟨later, isLater, stepFirst.trans stepDigits⟩

/-- A number without its sign as it is read. -/
theorem run_unsignedNumber (numeral : Number) {char : UInt8} (ends : numeral.EndsAt char) (rest : Text) :
    ∃ head tail, numeral.whole ++ (numeral.point ++ (exponentText numeral.exponent ++ char :: rest)) = head :: tail ∧
      digit head = true ∧
      (numeral.IsRead → ∀ lexer : Lexer, lexer.rest = tail →
        Converts numeral (unsignedNumber numeral.sign head lexer) (char :: rest)) ∧
      (¬ numeral.IsRead → outcome (unsignedNumber numeral.sign head) tail = .refused) := by
  obtain isZero | ⟨first, whole, isWhole, positive, all⟩ := numeral.wholeForm
  · obtain ⟨head, tail, split, noDigit, isPoint, isRead, unread⟩ :=
      run_numberTail numeral numeral.sign [byte '0'] [] ends rest
    have first := outcome_getFirst_zero tail head
    have digits : outcome Lexer.getDigits (head :: tail) = .read ([], head) tail :=
      outcome_getDigits_stop (fun _ member => absurd member List.not_mem_nil) noDigit tail
    refine ⟨byte '0', head :: tail, by rw [isZero, split]; rfl, by decide, ?_, ?_⟩
    · rintro ⟨zero, kept⟩ lexer isTail
      rw [if_pos (isPoint.mpr (zero isZero))] at first
      obtain ⟨middle, isMiddle, step⟩ := run_wholePart numeral.sign isTail first digits
      obtain ⟨later, isLater, ran⟩ := isRead kept middle isMiddle
      exact ⟨[byte '0'], [], later, isZero.symm, isLater, step.trans ran⟩
    · intro lost
      by_cases point : head = byte '.'
      · rw [if_pos point] at first
        rw [unsignedNumber, outcome_bind_read first (Blind.wholeTail _ _)]
        refine (outcome_bind_read digits (Blind.numberTail numeral.sign _ _ _)).trans (unread fun kept => ?_)
        exact lost ⟨fun _ => isPoint.mp point, kept⟩
      · rw [if_neg point] at first
        rw [unsignedNumber, outcome_bind_refused first]
  · obtain ⟨head, tail, split, noDigit, isPoint, isRead, unread⟩ :=
      run_numberTail numeral numeral.sign [first] whole ends rest
    have isFirst := outcome_getFirst_digit (whole ++ head :: tail) positive
    have digits := outcome_getDigits_stop all noDigit tail
    have notZero : numeral.whole ≠ [byte '0'] := by
      rw [isWhole]
      intro same
      exact digit1_9_ne_zero positive (List.cons.inj same).1
    refine ⟨first, whole ++ head :: tail, by rw [isWhole, split]; rfl, by simp [digit, positive], ?_, ?_⟩
    · rintro ⟨-, kept⟩ lexer isTail
      obtain ⟨middle, isMiddle, step⟩ := run_wholePart numeral.sign isTail isFirst digits
      obtain ⟨later, isLater, ran⟩ := isRead kept middle isMiddle
      exact ⟨[first], whole, later, isWhole.symm, isLater, step.trans ran⟩
    · intro lost
      rw [unsignedNumber, outcome_bind_read isFirst (Blind.wholeTail _ _)]
      refine (outcome_bind_read digits (Blind.numberTail numeral.sign _ _ _)).trans (unread fun kept => ?_)
      exact lost ⟨fun zero => absurd zero notZero, kept⟩

/-- A number as it is read, with its sign. -/
theorem run_getNumber (numeral : Number) {char : UInt8} (ends : numeral.EndsAt char) (rest : Text) :
    (numeral.IsRead → ∀ lexer : Lexer, lexer.rest = numeral.text ++ char :: rest →
      Converts numeral (Lexer.getNumber lexer) (char :: rest)) ∧
    (¬ numeral.IsRead → outcome Lexer.getNumber (numeral.text ++ char :: rest) = .refused) := by
  obtain ⟨head, tail, split, isDigit, isRead, unread⟩ := run_unsignedNumber numeral ends rest
  have text : numeral.text ++ char :: rest = numeral.sign ++ head :: tail := by
    rw [Number.text_eq, ← split]
    simp
  rw [text, getNumber_eq]
  cases negative : numeral.negative with
  | true =>
      have sign : numeral.sign = [byte '-'] := by rw [Number.sign, negative]; rfl
      rw [sign] at isRead unread ⊢
      have step : signedStep (byte '-') = Lexer.getc >>= unsignedNumber [byte '-'] := if_pos rfl
      constructor
      · intro kept lexer isText
        obtain ⟨middle, isMiddle, first⟩ := run_bind_read Blind.getc isText (outcome_getc_cons _ _) signedStep
        obtain ⟨last, isLast, second⟩ :=
          run_bind_read Blind.getc isMiddle (outcome_getc_cons _ _) (unsignedNumber [byte '-'])
        rw [first, step, second]
        exact isRead kept last isLast
      · intro lost
        rw [List.singleton_append, outcome_bind_read (outcome_getc_cons _ _) (Blind.signedStep _), step,
          outcome_bind_read (outcome_getc_cons _ _) (Blind.unsignedNumber _ _), unread lost]
  | false =>
      have sign : numeral.sign = [] := by rw [Number.sign, negative]; rfl
      rw [sign] at isRead unread ⊢
      have step : signedStep head = unsignedNumber [] head := if_neg fun same => digit_ne_sign isDigit (.inr same)
      constructor
      · intro kept lexer isText
        obtain ⟨last, isLast, first⟩ := run_bind_read Blind.getc isText (outcome_getc_cons _ _) signedStep
        rw [first, step]
        exact isRead kept last isLast
      · intro lost
        rw [List.nil_append, outcome_bind_read (outcome_getc_cons _ _) (Blind.signedStep _), step, unread lost]

/-- What a number becomes when the lexer comes to its conversion. -/
theorem Converts.outcome_eq {numeral : Number} {run : Except Fault Token × Lexer} {rest : Text}
    (converts : Converts numeral run rest) (isRead : numeral.IsRead) :
    Outcome.of run = Outcome.ofOption numeral.token rest := by
  obtain ⟨first, whole, later, split, rfl, rfl⟩ := converts
  rw [(Blind.numberToken _ _ _ _ _).same, outcome_numberToken numeral isRead split]

/-- A number of the grammar as it is read. -/
theorem outcome_getNumber (numeral : Number) {char : UInt8} (ends : numeral.EndsAt char) (rest : Text) :
    outcome Lexer.getNumber (numeral.text ++ char :: rest) = Outcome.ofOption numeral.token (char :: rest) := by
  obtain ⟨converts, refused⟩ := run_getNumber numeral ends rest
  by_cases isRead : numeral.IsRead
  · exact (converts isRead _ rfl).outcome_eq isRead
  · rw [refused isRead, Number.token, if_neg isRead]
    rfl

theorem Outcome.ofOption_read {value : Type} {result : Option value} {string rest : Text} {token : value}
    (read : Outcome.ofOption result string = .read token rest) : result = some token ∧ string = rest := by
  match result with
  | none => cases read
  | some value =>
      cases read
      exact ⟨rfl, rfl⟩

/-- The first digit decides about the form of the digits before the point. -/
theorem wholeForm_of_first {char after : UInt8} {whole later : Text} (digits : ∀ octet ∈ whole, digit octet = true)
    (wholeCase : (char = byte '0' ∧ ∃ tail, whole ++ after :: later = byte '.' :: tail) ∨ digit1_9 char = true) :
    (char :: whole = [byte '0'] ∨ ∃ first rest, char :: whole = first :: rest ∧
      digit1_9 first = true ∧ ∀ octet ∈ rest, digit octet = true) ∧
    (char :: whole = [byte '0'] → after = byte '.') := by
  obtain ⟨rfl, tail, same⟩ | positive := wholeCase
  · cases whole with
    | nil => exact ⟨.inl rfl, fun _ => (List.cons.inj same).1⟩
    | cons octet whole =>
        have isDigit := digits octet List.mem_cons_self
        rw [(List.cons.inj same).1] at isDigit
        exact absurd isDigit (by decide)
  · refine ⟨.inr ⟨char, whole, rfl, positive, digits⟩, ?_⟩
    intro same
    exact absurd (List.cons.inj same).1 (digit1_9_ne_zero positive)

/-- A character that was read was the first one. -/
theorem getc_rest {lexer later : Lexer} {char : UInt8} (ran : Lexer.getc lexer = (.ok char, later)) :
    lexer.rest = char :: later.rest := by
  match lexer with
  | ⟨[], position⟩ => cases ran
  | ⟨first :: rest, position⟩ =>
      cases ran
      rfl

section Observed

variable {observed : Except Fault Token × Lexer → Prop} (settled : Settled observed)
include settled

/-- The end of a number comes to its conversion, or it stops with an exception that is named. -/
theorem numberEnd_observed {sign first whole part : Text} {char : UInt8} {lexer : Lexer}
    (holds : observed (numberEnd sign first whole part char lexer)) :
    ∃ exponent last tail, ∃ later : Lexer, later.rest = last :: tail ∧
      char :: lexer.rest = exponentText exponent ++ last :: tail ∧ exponentRead exponent ∧
      (exponent = none → char = last ∧ last ≠ byte 'e' ∧ last ≠ byte 'E') ∧
      (exponent ≠ none → digit last = false) ∧
      numberEnd sign first whole part char lexer =
        numberToken sign first whole part (exponentKept exponent) later := by
  obtain ⟨⟨kept, last⟩, middle, ran, -⟩ := bind_observed (Documented.getExponent char) settled holds
  have finish : numberEnd sign first whole part char lexer =
      numberToken sign first whole part kept ⟨last :: middle.rest, middle.position.backward last⟩ :=
    run_bind_ok ran _
  obtain ⟨noLetter, rfl, rfl, same⟩ | ⟨exponent, split, rfl, some, stops⟩ :=
    getExponent_read ((Blind.getExponent char).read ran)
  · rw [not_or] at noLetter
    refine ⟨none, last, middle.rest, _, rfl, by rw [same]; rfl, ?_, fun _ => ⟨rfl, noLetter⟩,
      fun some => (some rfl).elim, finish⟩
    intro given isGiven
    cases isGiven
  · refine ⟨Option.some exponent, last, middle.rest, _, rfl, split, ?_, ?_, fun _ => stops, finish⟩
    · intro given isGiven
      cases isGiven
      exact some
    · intro none
      cases none

/-- The parts of a number after its first digits. -/
theorem numberTail_observed {sign first whole : Text} {char : UInt8} {lexer : Lexer}
    (noDigit : digit char = false) (holds : observed (numberTail sign first whole char lexer)) :
    ∃ fraction exponent last tail, ∃ later : Lexer, later.rest = last :: tail ∧
      (∀ octet ∈ fraction, digit octet = true) ∧ (char = byte '.' → fraction ≠ []) ∧
      char :: lexer.rest =
        (if fraction = [] then [] else byte '.' :: fraction) ++ (exponentText exponent ++ last :: tail) ∧
      exponentRead exponent ∧ digit last = false ∧
      (exponent = none → last ≠ byte 'e' ∧ last ≠ byte 'E' ∧ (fraction = [] → last ≠ byte '.')) ∧
      numberTail sign first whole char lexer =
        numberToken sign first whole (if fraction = [] then [] else byte '.' :: fraction) (exponentKept exponent)
          later := by
  obtain ⟨⟨part, after⟩, middle, ran, ended⟩ := bind_observed (Documented.getFraction char) settled holds
  have finish : numberTail sign first whole char lexer = numberEnd sign first whole part after middle :=
    run_bind_ok ran _
  obtain ⟨exponent, last, tail, later, isLater, split, kept, isNone, isSome, converts⟩ :=
    numberEnd_observed settled ended
  obtain ⟨noPoint, rfl, rfl, same⟩ | ⟨digit, digits, rfl, rfl, same, all, stops⟩ :=
    getFraction_read ((Blind.getFraction char).read ran)
  · rw [same] at split
    refine ⟨[], exponent, last, tail, later, isLater, by simp, fun point => absurd point noPoint, split, kept, ?_, ?_,
      finish.trans converts⟩
    · match exponent with
      | none => rw [← (isNone rfl).1, noDigit]
      | some exponent => exact isSome (by simp)
    · intro none
      obtain ⟨rfl, noLetter⟩ := isNone none
      exact ⟨noLetter.1, noLetter.2, fun _ => noPoint⟩
  · refine ⟨digit :: digits, exponent, last, tail, later, isLater, all, by simp, ?_, kept, ?_, ?_, ?_⟩
    · rw [if_neg (by simp), same, ← split]
      rfl
    · match exponent with
      | none => rw [← (isNone rfl).1, stops]
      | some exponent => exact isSome (by simp)
    · intro none
      obtain ⟨rfl, noLetter⟩ := isNone none
      exact ⟨noLetter.1, noLetter.2, fun empty => absurd empty (by simp)⟩
    · rw [if_neg (by simp)]
      exact finish.trans converts

/-- A number without its sign comes to its conversion. -/
theorem unsignedNumber_observed (negative : Bool) {char : UInt8} {lexer : Lexer}
    (holds : observed (unsignedNumber (if negative then [byte '-'] else []) char lexer)) :
    ∃ numeral : Number, ∃ rest, numeral.negative = negative ∧ numeral.IsRead ∧
      (Lexeme.number numeral).EndsBefore rest ∧
      char :: lexer.rest = numeral.whole ++ (numeral.point ++ (exponentText numeral.exponent ++ rest)) ∧
      Converts numeral (unsignedNumber (if negative then [byte '-'] else []) char lexer) rest := by
  obtain ⟨first, middle, ranFirst, wholeHolds⟩ := bind_observed (Documented.getFirst char) settled holds
  obtain ⟨⟨whole, after⟩, last, ranWhole, tailHolds⟩ := bind_observed Documented.getDigits settled wholeHolds
  have finish : unsignedNumber (if negative then [byte '-'] else []) char lexer =
      numberTail (if negative then [byte '-'] else []) first whole after last :=
    (run_bind_ok ranFirst _).trans (run_bind_ok ranWhole _)
  obtain ⟨rfl, same, wholeCase⟩ := getFirst_read ((Blind.getFirst char).read ranFirst)
  obtain ⟨split, digits, stops⟩ := getDigits_read (Blind.getDigits.read ranWhole)
  obtain ⟨fraction, exponent, stop, tail, later, isLater, all, point, rest, kept, noDigit, alone, converts⟩ :=
    numberTail_observed settled stops tailHolds
  rw [← same, split] at wholeCase
  obtain ⟨wholeForm, isPoint⟩ := wholeForm_of_first digits wholeCase
  have zero : char :: whole = [byte '0'] → fraction ≠ [] := fun same => point (isPoint same)
  let numeral : Number := ⟨negative, char :: whole, fraction, exponent, wholeForm, all⟩
  refine ⟨numeral, stop :: tail, rfl, ⟨zero, kept⟩, ⟨stop, tail, rfl, noDigit, alone⟩, ?_, ?_⟩
  · rw [← same, split, rest]
    rfl
  · exact ⟨[char], whole, later, rfl, isLater, finish.trans converts⟩

/-- A number comes to its conversion. -/
theorem getNumber_observed {lexer : Lexer} (holds : observed (Lexer.getNumber lexer)) :
    ∃ numeral : Number, ∃ rest, numeral.IsRead ∧ (Lexeme.number numeral).EndsBefore rest ∧
      lexer.rest = numeral.text ++ rest ∧ Converts numeral (Lexer.getNumber lexer) rest := by
  rw [getNumber_eq] at holds ⊢
  obtain ⟨char, middle, ran, stepHolds⟩ := bind_observed Documented.getc settled holds
  rw [run_bind_ok ran]
  by_cases minus : char = byte '-'
  · subst minus
    have step : signedStep (byte '-') = Lexer.getc >>= unsignedNumber [byte '-'] := if_pos rfl
    rw [step] at stepHolds ⊢
    obtain ⟨next, last, ranNext, unsignedHolds⟩ := bind_observed Documented.getc settled stepHolds
    obtain ⟨numeral, rest, negative, isRead, ends, text, converts⟩ := unsignedNumber_observed settled true unsignedHolds
    refine ⟨numeral, rest, isRead, ends, ?_, ?_⟩
    · rw [getc_rest ran, getc_rest ranNext, text, Number.text_eq, Number.sign, negative]
      simp
    · rw [run_bind_ok ranNext]
      exact converts
  · have step : signedStep char = unsignedNumber [] char := if_neg minus
    rw [step] at stepHolds ⊢
    obtain ⟨numeral, rest, negative, isRead, ends, text, converts⟩ := unsignedNumber_observed settled false stepHolds
    refine ⟨numeral, rest, isRead, ends, ?_, converts⟩
    rw [getc_rest ran, text, Number.text_eq, Number.sign, negative]
    simp

end Observed

/-- What a number has read. -/
theorem getNumber_read {string rest : Text} {token : Token}
    (read : outcome Lexer.getNumber string = .read token rest) :
    ∃ numeral : Number, string = numeral.text ++ rest ∧ numeral.token = some token ∧
      (Lexeme.number numeral).EndsBefore rest := by
  obtain ⟨numeral, last, isRead, ends, split, converts⟩ := getNumber_observed (settled_read token rest) read
  have converted := converts.outcome_eq isRead
  rw [show Outcome.of (Lexer.getNumber (Lexer.init string)) = .read token rest from read] at converted
  obtain ⟨isToken, rfl⟩ := Outcome.ofOption_read converted.symm
  exact ⟨numeral, split, isToken, ends⟩

end SimpleNFast.Json
