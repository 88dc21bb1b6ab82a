import SimpleNFast.Proof.Json.Acceptance

namespace SimpleNFast.Json

/-- If two actions run on after the first one has ended, the second one does. -/
theorem outcome_bind_running {first second : Type} {action : Lex first} {next : first → Lex second}
    (after : ∀ value, Blind (next value)) {string : Text} (ends : outcome action string ≠ .running)
    (running : outcome (action >>= next) string = .running) :
    ∃ value rest, outcome action string = .read value rest ∧ outcome (next value) rest = .running := by
  rw [outcome_bind after] at running
  match ran : outcome action string with
  | .read value rest =>
      rw [ran] at running
      exact ⟨value, rest, rfl, running⟩
  | .ended =>
      rw [ran] at running
      cases running
  | .refused =>
      rw [ran] at running
      cases running
  | .running => exact absurd ran ends

/-- An action whose loops end on every input. -/
structure Halts {value : Type} (action : Lex value) : Prop extends Blind action where
  ends : ∀ string, outcome action string ≠ .running

namespace Halts

variable {first second : Type}

theorem bind {action : Lex first} {next : first → Lex second} (halts : Halts action)
    (after : ∀ value, Halts (next value)) : Halts (action >>= next) where
  toBlind := Blind.bind halts.toBlind fun value => (after value).toBlind
  ends string running := by
    obtain ⟨value, rest, -, running⟩ :=
      outcome_bind_running (fun value => (after value).toBlind) (halts.ends string) running
    exact (after value).ends rest running

theorem pure (value : first) : Halts (Pure.pure value : Lex first) := ⟨Blind.pure value, fun _ same => by cases same⟩

theorem parsingError (what : Text) : Halts (Lexer.parsingError what : Lex first) :=
  ⟨Blind.parsingError what, fun _ same => by cases same⟩

theorem getc : Halts Lexer.getc where
  toBlind := Blind.getc
  ends string same := by
    match string with
    | [] => cases same
    | char :: rest => cases same

theorem ungetc (char : UInt8) : Halts (Lexer.ungetc char) := ⟨Blind.ungetc char, fun _ same => by cases same⟩

/-- A conversion that throws neither of the two faults of a stream. -/
theorem lift {result : Except Fault first} (other : result ≠ .error .failure ∧ result ≠ .error .running) :
    Halts (liftM result : Lex first) where
  toBlind := Blind.lift other.1
  ends string same := by
    match result with
    | .ok value => cases same
    | .error fault =>
        cases fault with
        | running => exact other.2 rfl
        | failure => cases same
        | parsingError => cases same
        | invalidArgument => cases same
        | outOfRange => cases same
        | lengthError => cases same

/-- A loop over accepted characters has as much fuel as there are characters. -/
theorem getWhile (accepts : UInt8 → Bool) {next : Text × UInt8 → Lex second} (after : ∀ value, Halts (next value)) :
    Halts (Lexer.fuel >>= fun fuel => Lexer.getWhile accepts fuel >>= next) where
  toBlind := Blind.bind Blind.fuel fun _ => Blind.bind (Blind.getWhile _ _) fun value => (after value).toBlind
  ends string running := by
    rw [outcome_bind_read (outcome_fuel string)
      (Blind.bind (Blind.getWhile _ _) fun value => (after value).toBlind)] at running
    obtain ⟨taken, char, last, rfl, all, stops⟩ | all := span_cases accepts string
    · rw [outcome_bind_read (outcome_getWhile all stops (by simp) last) (after _).toBlind] at running
      exact (after _).ends _ running
    · rw [outcome_bind_ended (outcome_getWhile_all all (Nat.lt_succ_self _))] at running
      cases running

theorem getDigits {next : Text × UInt8 → Lex second} (after : ∀ value, Halts (next value)) :
    Halts (Lexer.getDigits >>= next) := by
  rw [Lexer.getDigits, bind_assoc]
  exact getWhile digit after

theorem getFirst (char : UInt8) : Halts (Lexer.getFirst char) := by
  rw [Lexer.getFirst]
  split
  · refine bind getc fun next => ?_
    split
    · exact parsingError _
    · exact bind (ungetc _) fun _ => pure _
  · split
    · exact pure _
    · exact parsingError _

theorem getFraction (char : UInt8) : Halts (Lexer.getFraction char) := by
  rw [Lexer.getFraction]
  split
  · refine bind getc fun first => ?_
    split
    · exact getDigits fun _ => pure _
    · exact parsingError _
  · exact pure _

theorem exponentTail (first : Text) : Halts (exponentTail first) := by
  refine getDigits fun ⟨rest, last⟩ => ?_
  dsimp only
  split
  · exact parsingError _
  · exact pure _

theorem getExponentDigits (char : UInt8) : Halts (Lexer.getExponentDigits char) := by
  rw [getExponentDigits_eq]
  split
  · exact bind (getWhile _ fun _ => ungetc _) fun _ => exponentTail _
  · split
    · exact exponentTail _
    · exact parsingError _

theorem getExponent (char : UInt8) : Halts (Lexer.getExponent char) := by
  rw [Lexer.getExponent]
  split
  · refine bind getc fun next => ?_
    split
    · refine bind getc fun digit => ?_
      exact bind (getExponentDigits _) fun _ => pure _
    · exact bind (getExponentDigits _) fun _ => pure _
  · exact pure _

theorem numberToken (sign first whole part exponent : Text) : Halts (numberToken sign first whole part exponent) := by
  rw [Json.numberToken]
  split
  · exact bind (lift ⟨stoll_ne_failure _, stoll_ne_running _⟩) fun _ => pure _
  · exact bind (lift ⟨stold_ne_failure _, stold_ne_running _⟩) fun _ => pure _

theorem unsignedNumber (sign : Text) (char : UInt8) : Halts (unsignedNumber sign char) := by
  refine bind (getFirst _) fun first => getDigits fun ⟨whole, next⟩ => ?_
  refine bind (getFraction _) fun ⟨part, next⟩ => bind (getExponent _) fun ⟨exponent, next⟩ => ?_
  exact bind (ungetc _) fun _ => numberToken _ _ _ _ _

theorem getNumber : Halts Lexer.getNumber := by
  rw [getNumber_eq]
  refine bind getc fun char => ?_
  rw [signedStep]
  split
  · exact bind getc (unsignedNumber _)
  · exact unsignedNumber _ _

theorem getWord (word : String) (token : Token) : Halts (Lexer.getWord word token) := by
  refine bind ⟨Blind.ofRead (getBuffer_empty _), fun string same => ?_⟩ fun buffer => ?_
  · match ran : Lexer.getBuffer word.length string with
    | (result, rest) =>
        rw [outcome_ofRead ran] at same
        rw [Lexer.getBuffer] at ran
        split at ran
        · cases ran
          cases same
        · cases ran
          cases same
  · split
    · exact parsingError _
    · exact pure _

theorem getString : Halts Lexer.getString where
  toBlind := Blind.getString
  ends string running := by
    rw [getString_eq, outcome_bind_read (outcome_fuel _) (Blind.stringTail _), stringTail] at running
    obtain ⟨content, rest, -, running⟩ :=
      outcome_bind_running Blind.stringToken (getStringLoop_ne_running (Nat.lt_succ_self _)) running
    exact (bind (lift (stringUnescape_ne content)) fun _ => pure _).ends rest running

theorem getToken (char : UInt8) : Halts (Lexer.getToken char) := by
  rw [Lexer.getToken]
  iterate 6
    split
    · exact pure _
  split
  · exact bind (ungetc _) fun _ => getWord _ _
  split
  · exact bind (ungetc _) fun _ => getWord _ _
  split
  · exact bind (ungetc _) fun _ => getWord _ _
  split
  · exact bind (ungetc _) fun _ => getNumber
  split
  · exact getString
  · exact parsingError _

theorem get : Halts Lexer.get where
  toBlind := Blind.get
  ends string running := by
    have halts : Halts skipToken := getWhile _ fun _ => getToken _
    have ends := halts.ends string
    rw [outcome_get] at running
    cases ran : outcome skipToken string with
    | read token rest =>
        rw [ran] at running
        cases running
    | ended =>
        rw [ran] at running
        cases running
    | refused =>
        rw [ran] at running
        cases running
    | running => exact ends ran

end Halts

/-- A token that is not the end takes a character at least. -/
theorem get_shorter {string rest : Text} {token : Token} (read : outcome Lexer.get string = .read token rest)
    (notEof : token ≠ .eof) : rest.length < string.length := by
  obtain ⟨before, -, ⟨char, -, rfl⟩ | ⟨lexeme, -, -, rfl, -⟩⟩ := get_read read notEof
  · simp only [List.length_append, List.length_cons]
    omega
  · have positive := lexeme.text_length_pos
    simp only [List.length_append]
    omega

theorem Tree.text_length_pos (tree : Tree) : 0 < tree.text.length := by
  cases tree with
  | scalar lexeme => exact lexeme.text_length_pos
  | _ => simp [Tree.text]

/-- A value takes a character at least. -/
theorem readValue_shorter {fuel : Nat} {what : String} {string rest : Text} {value : Value}
    (read : outcome (readValue fuel what) string = .read value rest) : rest.length < string.length := by
  obtain ⟨before, tree, -, -, -, -, rfl⟩ | rfl := (inverted fuel).value read
  · have positive := tree.text_length_pos
    simp only [List.length_append]
    omega
  · rw [List.length_nil, List.length_pos_iff]
    rintro rfl
    rw [readValue, outcome_bind_read outcome_get_nil ((blindParser fuel).value _ _)] at read
    cases fuel with
    | zero => cases read
    | succ fuel => cases read

/-- Twice the length of the input is enough for the three functions of the parser. -/
structure HaltingParser (fuel : Nat) : Prop where
  value : ∀ (string : Text) (what : String), 1 ≤ fuel → 2 * string.length ≤ fuel →
    outcome (readValue fuel what) string ≠ .running
  elements : ∀ {string : Text} (done : List Value), 2 * string.length + 1 ≤ fuel →
    outcome (readElements fuel done) string ≠ .running
  members : ∀ {string : Text} (done : List (Text × Value)), 2 * string.length + 1 ≤ fuel →
    outcome (readMembers fuel done) string ≠ .running

namespace HaltingParser

variable {fuel : Nat} (halting : HaltingParser fuel)
include halting

theorem elementEnd {string : Text} (enough : 2 * string.length ≤ fuel + 1) (done : List Value) (element : Value) :
    outcome (elementEnd fuel done element) string ≠ .running := by
  intro running
  obtain ⟨token, rest, ran, running⟩ :=
    outcome_bind_running ((blindParser fuel).afterElement _) (Halts.get.ends string) running
  rw [afterElement] at running
  split at running
  · cases running
  split at running
  · cases running
  · rename_i isComma
    rw [not_not] at isComma
    have shorter := get_shorter ran (by rw [isComma]; decide)
    exact halting.elements _ (by omega) running

theorem memberEnd {string : Text} (enough : 2 * string.length ≤ fuel + 1) (done : List (Text × Value)) :
    outcome (memberEnd fuel done) string ≠ .running := by
  intro running
  obtain ⟨token, rest, ran, running⟩ :=
    outcome_bind_running ((blindParser fuel).afterMember _) (Halts.get.ends string) running
  rw [afterMember] at running
  split at running
  · cases running
  split at running
  · cases running
  · rename_i isComma
    rw [not_not] at isComma
    have shorter := get_shorter ran (by rw [isComma]; decide)
    exact halting.members _ (by omega) running

theorem succ_elements {string : Text} (done : List Value) (enough : 2 * string.length + 1 ≤ fuel + 1) :
    outcome (readElements (fuel + 1) done) string ≠ .running := by
  have blind := blindParser fuel
  intro running
  obtain ⟨token, rest, ran, running⟩ :=
    outcome_bind_running (fun _ => (blindParser (fuel + 1)).elements _ _) (Halts.get.ends string) running
  by_cases isEof : token = .eof
  · rw [isEof, parseElements_eof] at running
    cases running
  · have shorter := get_shorter ran isEof
    have valued := halting.value string "array element expected" (by omega) (by omega)
    rw [readValue, outcome_bind_read ran (blind.value _ _)] at valued
    rw [parseElements_token fuel isEof] at running
    obtain ⟨element, last, inner, running⟩ := outcome_bind_running (blind.elementEnd _) valued running
    have read : outcome (readValue fuel "array element expected") string = .read element last := by
      rw [readValue, outcome_bind_read ran (blind.value _ _), inner]
    have less := readValue_shorter read
    exact halting.elementEnd (by omega) done element running

theorem succ_members {string : Text} (done : List (Text × Value)) (enough : 2 * string.length + 1 ≤ fuel + 1) :
    outcome (readMembers (fuel + 1) done) string ≠ .running := by
  have blind := blindParser fuel
  intro running
  obtain ⟨token, rest, ran, running⟩ :=
    outcome_bind_running (fun _ => (blindParser (fuel + 1)).members _ _) (Halts.get.ends string) running
  by_cases isEof : token = .eof
  · rw [isEof, parseMembers_eof] at running
    cases running
  have shorter := get_shorter ran isEof
  by_cases isString : ∃ content, token = .string content
  · obtain ⟨content, rfl⟩ := isString
    rw [parseMembers_string] at running
    obtain ⟨token, last, colon, running⟩ :=
      outcome_bind_running (blind.memberColon _ _) (Halts.get.ends rest) running
    rw [memberColon] at running
    split at running
    · cases running
    rename_i isColon
    rw [not_not] at isColon
    have less := get_shorter colon (by rw [isColon]; decide)
    have valued := halting.value last "object member value expected" (by omega) (by omega)
    obtain ⟨member, tail, inner, running⟩ := outcome_bind_running (blind.memberAdd _ _) valued running
    have least := readValue_shorter inner
    rw [outcome_memberAdd] at running
    cases unescaped : stringUnescape content with
    | ok key =>
        rw [unescaped] at running
        exact halting.memberEnd (by omega) _ running
    | error fault =>
        rw [unescaped] at running
        cases running
  · rw [parseMembers_other fuel isEof fun content same => isString ⟨content, same⟩] at running
    cases running

theorem succ_value (string : Text) (what : String) (enough : 2 * string.length ≤ fuel + 1) :
    outcome (readValue (fuel + 1) what) string ≠ .running := by
  intro running
  obtain ⟨token, rest, ran, running⟩ :=
    outcome_bind_running (fun _ => (blindParser (fuel + 1)).value _ _) (Halts.get.ends string) running
  by_cases isObject : token = .lcb
  · have shorter := get_shorter ran (by rw [isObject]; decide)
    rw [isObject, parseValue_lcb] at running
    exact halting.members [] (by omega) running
  by_cases isArray : token = .lb
  · have shorter := get_shorter ran (by rw [isArray]; decide)
    rw [isArray, parseValue_lb] at running
    exact halting.elements [] (by omega) running
  rw [parseValue_other fuel isObject isArray] at running
  cases isValue : token.value with
  | none =>
      rw [isValue] at running
      cases running
  | some value =>
      rw [isValue] at running
      cases running

end HaltingParser

theorem haltingParser (fuel : Nat) : HaltingParser fuel := by
  induction fuel with
  | zero =>
      refine ⟨fun _ _ positive => ?_, fun _ enough => ?_, fun _ enough => ?_⟩
      · cases positive
      · cases enough
      · cases enough
  | succ fuel halting =>
      exact ⟨fun string what _ => halting.succ_value string what, halting.succ_elements, halting.succ_members⟩

/-- The parser ends on every input. -/
theorem fromString_ne_running (string : Text) : fromString string ≠ .error .running := by
  have parser := haltingParser (2 * string.length + 2)
  have running : fromString string = .error .running → outcome (parse (2 * string.length + 2)) string = .running := by
    rw [fromString, outcome]
    cases parse (2 * string.length + 2) (Lexer.init string) with
    | mk result lexer =>
        intro same
        cases same
        rfl
  intro same
  obtain ⟨token, rest, ran, running⟩ :=
    outcome_bind_running (Blind.parseRoot _) (Halts.get.ends string) (running same)
  cases token with
  | lcb =>
      have shorter := get_shorter ran (by decide)
      exact parser.members [] (by omega) running
  | lb =>
      have shorter := get_shorter ran (by decide)
      exact parser.elements [] (by omega) running
  | _ => cases running

end SimpleNFast.Json
