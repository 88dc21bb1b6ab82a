import SimpleNFast.Construction.Json.Layout
import SimpleNFast.Proof.Json.Termination

namespace SimpleNFast.Json

/-- Two texts in which the lexer finds the same tokens up to the end or the first exception. -/
inductive SameTokens : Text → Text → Prop where
  | eof {first second : Text} : outcome Lexer.get first = .read .eof [] → outcome Lexer.get second = .read .eof [] →
      SameTokens first second
  | refused {first second : Text} : outcome Lexer.get first = .refused → outcome Lexer.get second = .refused →
      SameTokens first second
  | token {first second firstRest secondRest : Text} {token : Token} :
      outcome Lexer.get first = .read token firstRest → outcome Lexer.get second = .read token secondRest →
      token ≠ .eof → SameTokens firstRest secondRest → SameTokens first second

theorem SameTokens.nil : SameTokens [] [] := .eof outcome_get_nil outcome_get_nil

section Tokens

variable {fuel : Nat} {lexer : Lexer}

theorem tokensFrom_eof (read : outcome Lexer.get lexer.rest = .read .eof []) :
    tokensFrom (fuel + 1) lexer = ([], .eof) := by
  rw [← Blind.get.same] at read
  rw [tokensFrom]
  match ran : Lexer.get lexer with
  | (.ok token, later) =>
      rw [ran] at read
      injection read with isEof
      rw [isEof]
  | (.error fault, later) =>
      rw [ran] at read
      cases fault <;> cases read

theorem tokensFrom_refused (refused : outcome Lexer.get lexer.rest = .refused) :
    tokensFrom (fuel + 1) lexer = ([], .refused) := by
  rw [← Blind.get.same] at refused
  rw [tokensFrom]
  match ran : Lexer.get lexer with
  | (.ok token, later) =>
      rw [ran] at refused
      cases refused
  | (.error fault, later) => rfl

theorem tokensFrom_token {token : Token} {rest : Text} (read : outcome Lexer.get lexer.rest = .read token rest)
    (notEof : token ≠ .eof) : ∃ later : Lexer, later.rest = rest ∧ ∀ fuel,
      tokensFrom (fuel + 1) lexer = (token :: (tokensFrom fuel later).1, (tokensFrom fuel later).2) := by
  rw [← Blind.get.same] at read
  match ran : Lexer.get lexer with
  | (.ok found, later) =>
      rw [ran] at read
      cases read
      refine ⟨later, rfl, fun fuel => ?_⟩
      rw [tokensFrom, ran]
      cases token with
      | eof => exact absurd rfl notEof
      | _ => rfl
  | (.error fault, later) =>
      rw [ran] at read
      cases fault <;> cases read

/-- The rows of tokens are equal, however much fuel there is beyond the length. -/
theorem SameTokens.tokensFrom_eq {first second : Text} (same : SameTokens first second) {left right : Lexer}
    (isLeft : left.rest = first) (isRight : right.rest = second) {leftFuel rightFuel : Nat}
    (enoughLeft : first.length < leftFuel) (enoughRight : second.length < rightFuel) :
    tokensFrom leftFuel left = tokensFrom rightFuel right := by
  induction same generalizing left right leftFuel rightFuel with
  | eof readFirst readSecond =>
      obtain ⟨leftFuel, rfl⟩ := Nat.exists_eq_succ_of_ne_zero (Nat.ne_of_gt (Nat.zero_lt_of_lt enoughLeft))
      obtain ⟨rightFuel, rfl⟩ := Nat.exists_eq_succ_of_ne_zero (Nat.ne_of_gt (Nat.zero_lt_of_lt enoughRight))
      rw [← isLeft] at readFirst
      rw [← isRight] at readSecond
      rw [tokensFrom_eof readFirst, tokensFrom_eof readSecond]
  | refused refusedFirst refusedSecond =>
      obtain ⟨leftFuel, rfl⟩ := Nat.exists_eq_succ_of_ne_zero (Nat.ne_of_gt (Nat.zero_lt_of_lt enoughLeft))
      obtain ⟨rightFuel, rfl⟩ := Nat.exists_eq_succ_of_ne_zero (Nat.ne_of_gt (Nat.zero_lt_of_lt enoughRight))
      rw [← isLeft] at refusedFirst
      rw [← isRight] at refusedSecond
      rw [tokensFrom_refused refusedFirst, tokensFrom_refused refusedSecond]
  | token readFirst readSecond notEof _ inductionHypothesis =>
      have shorterFirst := get_shorter readFirst notEof
      have shorterSecond := get_shorter readSecond notEof
      obtain ⟨leftFuel, rfl⟩ := Nat.exists_eq_succ_of_ne_zero (Nat.ne_of_gt (Nat.zero_lt_of_lt enoughLeft))
      obtain ⟨rightFuel, rfl⟩ := Nat.exists_eq_succ_of_ne_zero (Nat.ne_of_gt (Nat.zero_lt_of_lt enoughRight))
      rw [← isLeft] at readFirst
      rw [← isRight] at readSecond
      obtain ⟨laterLeft, restLeft, stepLeft⟩ := tokensFrom_token readFirst notEof
      obtain ⟨laterRight, restRight, stepRight⟩ := tokensFrom_token readSecond notEof
      have later := inductionHypothesis restLeft restRight (show _ < leftFuel by omega) (show _ < rightFuel by omega)
      rw [stepLeft leftFuel, stepRight rightFuel, later]

theorem SameTokens.tokens_eq {first second : Text} (same : SameTokens first second) : tokens first = tokens second :=
  same.tokensFrom_eq rfl rfl (Nat.lt_succ_self _) (Nat.lt_succ_self _)

end Tokens

/-- Two outcomes with the same result, where the texts that are left have the same tokens. -/
inductive Lockstep {value : Type} : Outcome value → Outcome value → Prop where
  | read (result : value) {first second : Text} : SameTokens first second →
      Lockstep (.read result first) (.read result second)
  | refused : Lockstep .refused .refused
  | runningFirst (second : Outcome value) : Lockstep .running second
  | runningSecond (first : Outcome value) : Lockstep first .running

namespace Lockstep

variable {first second : Type}

theorem bind {left right : Outcome first} (lockstep : Lockstep left right)
    {leftNext rightNext : first → Text → Outcome second}
    (next : ∀ value leftRest rightRest, SameTokens leftRest rightRest →
      Lockstep (leftNext value leftRest) (rightNext value rightRest)) :
    Lockstep (left.bind leftNext) (right.bind rightNext) := by
  cases lockstep with
  | read result same => exact next result _ _ same
  | refused => exact .refused
  | runningFirst right => exact .runningFirst _
  | runningSecond left => exact .runningSecond _

theorem get {left right : Text} (same : SameTokens left right) :
    Lockstep (outcome Lexer.get left) (outcome Lexer.get right) := by
  cases same with
  | eof readLeft readRight =>
      rw [readLeft, readRight]
      exact .read Token.eof .nil
  | refused refusedLeft refusedRight =>
      rw [refusedLeft, refusedRight]
      exact .refused
  | token readLeft readRight _ rest =>
      rw [readLeft, readRight]
      exact .read _ rest

/-- A token and what is done with it. -/
theorem get_bind {left right : Text} (same : SameTokens left right) {leftNext rightNext : Token → Lex first}
    (blindLeft : ∀ token, Blind (leftNext token)) (blindRight : ∀ token, Blind (rightNext token))
    (next : ∀ token leftRest rightRest, SameTokens leftRest rightRest →
      Lockstep (outcome (leftNext token) leftRest) (outcome (rightNext token) rightRest)) :
    Lockstep (outcome (Lexer.get >>= leftNext) left) (outcome (Lexer.get >>= rightNext) right) := by
  rw [outcome_bind blindLeft, outcome_bind blindRight]
  exact (get same).bind next

end Lockstep

/-- The functions of the parser make the same of the same tokens, whatever their fuel is. -/
structure LockstepParser (leftFuel rightFuel : Nat) : Prop where
  value : ∀ token what left right, SameTokens left right →
    Lockstep (outcome (parseValue leftFuel token what) left) (outcome (parseValue rightFuel token what) right)
  elements : ∀ token done left right, SameTokens left right →
    Lockstep (outcome (parseElements leftFuel token done) left) (outcome (parseElements rightFuel token done) right)
  members : ∀ token done left right, SameTokens left right →
    Lockstep (outcome (parseMembers leftFuel token done) left) (outcome (parseMembers rightFuel token done) right)

namespace LockstepParser

variable {leftFuel rightFuel : Nat} (parser : LockstepParser leftFuel rightFuel)
include parser

theorem readElements (done : List Value) {left right : Text} (same : SameTokens left right) :
    Lockstep (outcome (readElements leftFuel done) left) (outcome (readElements rightFuel done) right) :=
  .get_bind same (fun _ => (blindParser leftFuel).elements _ _) (fun _ => (blindParser rightFuel).elements _ _)
    fun token => parser.elements token done

theorem readMembers (done : List (Text × Value)) {left right : Text} (same : SameTokens left right) :
    Lockstep (outcome (readMembers leftFuel done) left) (outcome (readMembers rightFuel done) right) :=
  .get_bind same (fun _ => (blindParser leftFuel).members _ _) (fun _ => (blindParser rightFuel).members _ _)
    fun token => parser.members token done

theorem elementEnd (done : List Value) (element : Value) {left right : Text} (same : SameTokens left right) :
    Lockstep (outcome (elementEnd leftFuel done element) left) (outcome (elementEnd rightFuel done element) right) := by
  refine .get_bind same ((blindParser leftFuel).afterElement _) ((blindParser rightFuel).afterElement _) ?_
  intro token leftRest rightRest rest
  rw [afterElement, afterElement]
  by_cases isBracket : token = .rb
  · rw [if_pos isBracket, if_pos isBracket]
    exact .read _ rest
  · rw [if_neg isBracket, if_neg isBracket]
    by_cases other : token ≠ .comma
    · rw [if_pos other, if_pos other]
      exact .refused
    · rw [if_neg other, if_neg other]
      exact parser.readElements _ rest

theorem memberEnd (done : List (Text × Value)) {left right : Text} (same : SameTokens left right) :
    Lockstep (outcome (memberEnd leftFuel done) left) (outcome (memberEnd rightFuel done) right) := by
  refine .get_bind same ((blindParser leftFuel).afterMember _) ((blindParser rightFuel).afterMember _) ?_
  intro token leftRest rightRest rest
  rw [afterMember, afterMember]
  by_cases isBracket : token = .rcb
  · rw [if_pos isBracket, if_pos isBracket]
    exact .read _ rest
  · rw [if_neg isBracket, if_neg isBracket]
    by_cases other : token ≠ .comma
    · rw [if_pos other, if_pos other]
      exact .refused
    · rw [if_neg other, if_neg other]
      exact parser.readMembers _ rest

theorem memberColon (done : List (Text × Value)) (key : Text) (token : Token) {left right : Text}
    (same : SameTokens left right) :
    Lockstep (outcome (memberColon leftFuel done key token) left)
      (outcome (memberColon rightFuel done key token) right) := by
  rw [Json.memberColon, Json.memberColon]
  by_cases other : token ≠ .colon
  · rw [if_pos other, if_pos other]
    exact .refused
  · rw [if_neg other, if_neg other, memberValue, memberValue, outcome_bind ((blindParser leftFuel).memberAdd _ _),
      outcome_bind ((blindParser rightFuel).memberAdd _ _)]
    refine Lockstep.bind ?_ ?_
    · exact .get_bind same (fun _ => (blindParser leftFuel).value _ _) (fun _ => (blindParser rightFuel).value _ _)
        fun token => parser.value token _
    · intro member leftRest rightRest rest
      rw [outcome_memberAdd, outcome_memberAdd]
      cases stringUnescape key with
      | ok key => exact parser.memberEnd _ rest
      | error fault => exact .refused

theorem succ : LockstepParser (leftFuel + 1) (rightFuel + 1) where
  value token what left right same := by
    by_cases isObject : token = .lcb
    · rw [isObject, parseValue_lcb, parseValue_lcb]
      exact parser.readMembers [] same
    by_cases isArray : token = .lb
    · rw [isArray, parseValue_lb, parseValue_lb]
      exact parser.readElements [] same
    rw [parseValue_other leftFuel isObject isArray, parseValue_other rightFuel isObject isArray]
    match token.value with
    | some value => exact .read value same
    | none => exact .refused
  elements token done left right same := by
    by_cases isEof : token = .eof
    · rw [isEof, parseElements_eof, parseElements_eof]
      exact .read _ same
    · rw [parseElements_token leftFuel isEof, parseElements_token rightFuel isEof,
        outcome_bind ((blindParser leftFuel).elementEnd _), outcome_bind ((blindParser rightFuel).elementEnd _)]
      exact (parser.value token _ left right same).bind fun element _ _ rest => parser.elementEnd done element rest
  members token done left right same := by
    by_cases isEof : token = .eof
    · rw [isEof, parseMembers_eof, parseMembers_eof]
      exact .read _ same
    by_cases isString : ∃ key, token = .string key
    · obtain ⟨key, rfl⟩ := isString
      rw [parseMembers_string, parseMembers_string]
      exact .get_bind same ((blindParser leftFuel).memberColon _ _) ((blindParser rightFuel).memberColon _ _)
        fun token _ _ rest => parser.memberColon done key token rest
    · have notString (key : Text) (same : token = .string key) : False := isString ⟨key, same⟩
      rw [parseMembers_other leftFuel isEof notString, parseMembers_other rightFuel isEof notString]
      exact .refused

end LockstepParser

theorem lockstepParser (leftFuel rightFuel : Nat) : LockstepParser leftFuel rightFuel := by
  induction leftFuel generalizing rightFuel with
  | zero => exact ⟨fun _ _ _ _ _ => .runningFirst _, fun _ _ _ _ _ => .runningFirst _, fun _ _ _ _ _ => .runningFirst _⟩
  | succ leftFuel inductionHypothesis =>
      cases rightFuel with
      | zero => exact ⟨fun _ _ _ _ _ => .runningSecond _, fun _ _ _ _ _ => .runningSecond _,
        fun _ _ _ _ _ => .runningSecond _⟩
      | succ rightFuel => exact (inductionHypothesis rightFuel).succ

theorem lockstep_parse {left right : Text} (same : SameTokens left right) (leftFuel rightFuel : Nat) :
    Lockstep (outcome (parse leftFuel) left) (outcome (parse rightFuel) right) := by
  have parser := lockstepParser leftFuel rightFuel
  rw [parse_eq, parse_eq]
  refine .get_bind same (Blind.parseRoot leftFuel) (Blind.parseRoot rightFuel) ?_
  intro token leftRest rightRest rest
  cases token with
  | lcb => exact parser.readMembers [] rest
  | lb => exact parser.readElements [] rest
  | _ => exact .refused

theorem parse_ne_running (string : Text) : outcome (parse (2 * string.length + 2)) string ≠ .running := by
  intro running
  apply fromString_ne_running string
  rw [outcome] at running
  rw [fromString]
  rcases ran : parse (2 * string.length + 2) (Lexer.init string) with ⟨result, lexer⟩
  cases result with
  | ok value =>
      rw [ran] at running
      cases running
  | error fault =>
      rw [ran] at running
      cases fault <;> first | rfl | cases running

theorem fromString_refused {string : Text} (refused : outcome (parse (2 * string.length + 2)) string = .refused) :
    (fromString string).toOption = none := by
  match ran : fromString string with
  | .ok value =>
      obtain ⟨rest, read⟩ := (fromString_ok_iff string value).mp ran
      rw [refused] at read
      cases read
  | .error fault => rfl

/-- The parser looks at nothing but the tokens. -/
theorem SameTokens.reading {first second : Text} (same : SameTokens first second) : SameReading first second where
  tokens := same.tokens_eq
  value := by
    have lockstep := lockstep_parse same (2 * first.length + 2) (2 * second.length + 2)
    match readFirst : outcome (parse (2 * first.length + 2)) first,
      readSecond : outcome (parse (2 * second.length + 2)) second with
    | left, right =>
        rw [readFirst, readSecond] at lockstep
        cases lockstep with
        | read value rest =>
            rw [(fromString_ok_iff first value).mpr ⟨_, readFirst⟩, (fromString_ok_iff second value).mpr ⟨_, readSecond⟩]
        | refused => rw [fromString_refused readFirst, fromString_refused readSecond]
        | runningFirst right => exact absurd readFirst (parse_ne_running first)
        | runningSecond left => exact absurd readSecond (parse_ne_running second)

end SimpleNFast.Json
