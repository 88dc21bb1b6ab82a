import SimpleNFast.Proof.Json.Numerals

set_option maxRecDepth 100000

namespace SimpleNFast.Json

/-- A buffer of this length before a further character. -/
theorem getBuffer_ok {word rest : Text} (line : ∀ octet ∈ word, octet ≠ byte '\n') (nonempty : rest ≠ []) :
    Lexer.getBuffer word.length (word ++ rest) = (.ok word, rest) := by
  have buffer : ((word ++ rest).takeWhile (· != byte '\n')).take word.length = word := by
    rw [List.takeWhile_append_of_pos (by simpa using line), List.take_left]
  have positive := List.length_pos_iff.mpr nonempty
  rw [Lexer.getBuffer, buffer, if_neg (by rw [List.length_append]; omega), List.drop_left]

theorem getBuffer_read {count : Nat} {string word rest : Text}
    (read : Lexer.getBuffer count string = (.ok word, rest)) : string = word ++ rest ∧ rest ≠ [] := by
  have isPrefix : (string.takeWhile (· != byte '\n')).take count <+: string :=
    (List.take_prefix _ _).trans (List.takeWhile_prefix _)
  have split := List.prefix_iff_eq_append.mp isPrefix
  rw [Lexer.getBuffer] at read
  split at read
  · cases read
  · rename_i longer
    cases read
    refine ⟨split.symm, ?_⟩
    intro empty
    rw [empty, List.append_nil] at split
    exact longer (congrArg List.length split).symm

theorem getBuffer_empty (count : Nat) (string : Text)
    (failed : (Lexer.getBuffer count string).1 = .error .failure) : (Lexer.getBuffer count string).2 = [] := by
  rw [Lexer.getBuffer] at failed ⊢
  split
  · rfl
  · rename_i longer
    rw [if_neg longer] at failed
    cases failed

theorem Blind.getWord (word : String) (token : Token) : Blind (Lexer.getWord word token) := by
  refine bind (ofRead (getBuffer_empty _)) fun buffer => ?_
  split
  · exact parsingError _
  · exact pure _

theorem outcome_getWord {word : String} (token : Token) {rest : Text}
    (line : ∀ octet ∈ text word, octet ≠ byte '\n') (nonempty : rest ≠ []) :
    outcome (Lexer.getWord word token) (text word ++ rest) = .read token rest := by
  have length : word.length = (text word).length := by
    rw [text, List.length_map, String.length_toList]
  have ran : outcome (Lexer.ofRead (Lexer.getBuffer word.length)) (text word ++ rest) = .read (text word) rest := by
    rw [length, outcome_ofRead (getBuffer_ok line nonempty)]
    rfl
  rw [Lexer.getWord, outcome_bind_read ran]
  · rw [if_neg (by simp)]
    rfl
  · rw [if_neg (by simp)]
    exact Blind.pure _

/-- What a word has read. -/
theorem getWord_read {word : String} {token result : Token} {string rest : Text}
    (read : outcome (Lexer.getWord word token) string = .read result rest) :
    result = token ∧ string = text word ++ rest ∧ rest ≠ [] := by
  rw [outcome, Lexer.getWord, run_bind] at read
  have ran : Lexer.ofRead (Lexer.getBuffer word.length) (Lexer.init string) =
    ((Lexer.getBuffer word.length string).1, ⟨(Lexer.getBuffer word.length string).2, _⟩) := rfl
  rw [ran] at read
  rcases buffer : Lexer.getBuffer word.length string with ⟨result, later⟩
  cases result with
  | error fault =>
      rw [buffer] at read
      cases fault <;> cases read
  | ok found =>
      rw [buffer] at read
      obtain ⟨rfl, nonempty⟩ := getBuffer_read buffer
      dsimp only at read
      by_cases same : found = text word
      · rw [if_neg (by simp [same])] at read
        cases read
        exact ⟨rfl, by rw [same], nonempty⟩
      · rw [if_pos same] at read
        cases read

theorem stringUnescape_ne (string : Text) :
    stringUnescape string ≠ .error .failure ∧ stringUnescape string ≠ .error .running := by
  obtain ⟨content, ran, -⟩ | ⟨what, ran⟩ := stringUnescape_total string
  · rw [ran]
    simp
  · rw [ran]
    simp

/-- The content of a literal becomes the string of a token. -/
def stringToken (content : Text) : Lex Token := do
  let string ← (stringUnescape content : Except Fault Text)
  pure (.string string)

theorem Blind.stringToken (content : Text) : Blind (stringToken content) :=
  bind (lift (stringUnescape_ne content).1) fun _ => pure _

theorem outcome_stringToken (content rest : Text) :
    outcome (stringToken content) rest = Outcome.ofOption ((stringUnescape content).toOption.map .string) rest :=
  outcome_lift (stringUnescape_ne content) Token.string rest

/-- A literal after its opening quote. -/
def stringTail (count : Nat) : Lex Token := Lexer.getStringLoop count >>= stringToken

theorem getString_eq : Lexer.getString = Lexer.fuel >>= stringTail := rfl

theorem Blind.stringTail (count : Nat) : Blind (stringTail count) := bind (getStringLoop count) stringToken

theorem Blind.getString : Blind Lexer.getString := by
  rw [getString_eq]
  exact bind fuel stringTail

/-- A literal that the lexer reads. -/
theorem outcome_getString {body : Text} (readable : bodyOf Item.IsRead body) (rest : Text) :
    outcome Lexer.getString (body ++ byte '"' :: rest) =
      Outcome.ofOption ((Lexeme.string? body).map .string) rest := by
  obtain ⟨items, isRead, rfl⟩ := readable
  have bound := items_length_le items
  have once := stringUnescape_items isRead
  have ran := outcome_getStringLoop_items isRead
    (show items.length < (items.flatMap Item.text ++ byte '"' :: rest).length + 1 by
      rw [List.length_append]; omega) rest
  rw [getString_eq, outcome_bind_read (outcome_fuel _) (Blind.stringTail _), stringTail,
    outcome_bind_read ran (Blind.stringToken _), outcome_stringToken, Lexeme.string?, once]
  rfl

/-- What a literal has read. -/
theorem getString_read {string rest : Text} {token : Token}
    (read : outcome Lexer.getString string = .read token rest) :
    ∃ body, bodyOf Item.IsRead body ∧ string = body ++ byte '"' :: rest ∧
      (Lexeme.string? body).map .string = some token := by
  rw [getString_eq, outcome_bind_read (outcome_fuel _) (Blind.stringTail _), stringTail] at read
  obtain ⟨content, later, ran, converted⟩ := outcome_bind_cases Blind.stringToken read
  obtain ⟨items, isRead, rfl, rfl⟩ := getStringLoop_read ran
  rw [outcome_stringToken] at converted
  obtain ⟨isToken, rfl⟩ := Outcome.ofOption_read converted
  refine ⟨_, ⟨items, isRead, rfl⟩, rfl, ?_⟩
  rw [Lexeme.string?, stringUnescape_items isRead]
  exact isToken

/-- A character is put back before a token is read that begins with it. -/
theorem outcome_again {action : Lex Token} (blind : Blind action) (char : UInt8) (rest : Text) :
    outcome (do Lexer.ungetc char; action) rest = outcome action (char :: rest) :=
  outcome_bind_read (outcome_ungetc char rest) blind

theorem Blind.again {action : Lex Token} (blind : Blind action) (char : UInt8) :
    Blind (do Lexer.ungetc char; action) :=
  bind (ungetc char) fun _ => blind

theorem Blind.getToken (char : UInt8) : Blind (Lexer.getToken char) := by
  rw [Lexer.getToken]
  split
  · exact pure _
  split
  · exact pure _
  split
  · exact pure _
  split
  · exact pure _
  split
  · exact pure _
  split
  · exact pure _
  split
  · exact (getWord _ _).again char
  split
  · exact (getWord _ _).again char
  split
  · exact (getWord _ _).again char
  split
  · exact getNumber.again char
  split
  · exact getString
  · exact parsingError _

/-- The characters that are tokens. -/
def Token.mark : Token → Option UInt8
  | .lcb => some (byte '\x7b')
  | .rcb => some (byte '\x7d')
  | .lb => some (byte '[')
  | .rb => some (byte ']')
  | .colon => some (byte ':')
  | .comma => some (byte ',')
  | _ => none

theorem outcome_getToken_mark {token : Token} {char : UInt8} (isMark : token.mark = some char) (rest : Text) :
    outcome (Lexer.getToken char) rest = .read token rest := by
  cases token <;> cases isMark <;> rfl

theorem outcome_getToken_null (rest : Text) :
    outcome (Lexer.getToken (byte 'n')) rest = outcome Lexer.getNull (byte 'n' :: rest) :=
  outcome_again (Blind.getWord _ _) _ rest

theorem outcome_getToken_true (rest : Text) :
    outcome (Lexer.getToken (byte 't')) rest = outcome Lexer.getTrue (byte 't' :: rest) :=
  outcome_again (Blind.getWord _ _) _ rest

theorem outcome_getToken_false (rest : Text) :
    outcome (Lexer.getToken (byte 'f')) rest = outcome Lexer.getFalse (byte 'f' :: rest) :=
  outcome_again (Blind.getWord _ _) _ rest

theorem outcome_getToken_string (rest : Text) :
    outcome (Lexer.getToken (byte '"')) rest = outcome Lexer.getString rest := rfl

/-- The characters before the ones of numbers in the choice of a token. -/
def marks : List UInt8 :=
  [byte '\x7b', byte '\x7d', byte '[', byte ']', byte ':', byte ',', byte 'n', byte 't', byte 'f']

theorem number_not_mark {char : UInt8} (isNumber : char = byte '-' ∨ digit char = true) : char ∉ marks := by
  revert char
  apply octet_forall
  decide

/-- The character of a number is put back before it is read. -/
theorem getToken_number {char : UInt8} (isNumber : char = byte '-' ∨ digit char = true) (lexer : Lexer) :
    Lexer.getToken char lexer = Lexer.getNumber ⟨char :: lexer.rest, lexer.position.backward char⟩ := by
  have other := number_not_mark isNumber
  simp only [marks, List.mem_cons, List.not_mem_nil, or_false, not_or] at other
  obtain ⟨n1, n2, n3, n4, n5, n6, n7, n8, n9⟩ := other
  rw [Lexer.getToken, if_neg n1, if_neg n2, if_neg n3, if_neg n4, if_neg n5, if_neg n6, if_neg n7, if_neg n8,
    if_neg n9, if_pos isNumber]
  rfl

theorem outcome_getToken_number {char : UInt8} (isNumber : char = byte '-' ∨ digit char = true) (rest : Text) :
    outcome (Lexer.getToken char) rest = outcome Lexer.getNumber (char :: rest) := by
  rw [outcome, getToken_number isNumber]
  exact Blind.getNumber.same _

/-- What a token has read that begins with this character. -/
theorem getToken_read {char : UInt8} {string rest : Text} {token : Token}
    (read : outcome (Lexer.getToken char) string = .read token rest) :
    (token.mark = some char ∧ string = rest) ∨
      ∃ lexeme : Lexeme, lexeme.Within .read ∧ lexeme.token = some token ∧ char :: string = lexeme.text ++ rest ∧
        lexeme.EndsBefore rest := by
  have words : ∀ (lexeme : Lexeme) {word : String} {result : Token},
      outcome (do Lexer.ungetc char; Lexer.getWord word result) string = .read token rest →
      lexeme.Within .read → lexeme.token = some result → lexeme.text = text word →
      (rest ≠ [] → lexeme.EndsBefore rest) →
      ∃ lexeme : Lexeme, lexeme.Within .read ∧ lexeme.token = some token ∧ char :: string = lexeme.text ++ rest ∧
        lexeme.EndsBefore rest := by
    intro lexeme word result read within isToken isText ends
    rw [outcome_again (Blind.getWord _ _)] at read
    obtain ⟨rfl, split, nonempty⟩ := getWord_read read
    exact ⟨lexeme, within, isToken, by rw [split, isText], ends nonempty⟩
  rw [Lexer.getToken] at read
  split at read
  · rename_i same
    cases read
    exact .inl ⟨by rw [same]; rfl, rfl⟩
  split at read
  · rename_i same
    cases read
    exact .inl ⟨by rw [same]; rfl, rfl⟩
  split at read
  · rename_i same
    cases read
    exact .inl ⟨by rw [same]; rfl, rfl⟩
  split at read
  · rename_i same
    cases read
    exact .inl ⟨by rw [same]; rfl, rfl⟩
  split at read
  · rename_i same
    cases read
    exact .inl ⟨by rw [same]; rfl, rfl⟩
  split at read
  · rename_i same
    cases read
    exact .inl ⟨by rw [same]; rfl, rfl⟩
  split at read
  · exact .inr (words .null read trivial rfl rfl id)
  split at read
  · exact .inr (words .true read trivial rfl rfl id)
  split at read
  · exact .inr (words .false read trivial rfl rfl id)
  split at read
  · rw [outcome_again Blind.getNumber] at read
    obtain ⟨numeral, split, isToken, ends⟩ := getNumber_read read
    exact .inr ⟨.number numeral, trivial, isToken, split, ends⟩
  split at read
  · rename_i same
    subst same
    obtain ⟨body, readable, rfl, isToken⟩ := getString_read read
    refine .inr ⟨.string body, readable, isToken, ?_, trivial⟩
    simp [Lexeme.text, Lexeme.quoted]
  · cases read

/-- A token after white space. -/
def skipToken : Lex Token := do
  let (_, char) ← Lexer.getWhile space (← Lexer.fuel)
  Lexer.getToken char

theorem Blind.skipWhile (count : Nat) : Blind (do
    let (_, char) ← Lexer.getWhile space count
    Lexer.getToken char) :=
  bind (getWhile _ _) fun _ => getToken _

theorem Blind.skipToken : Blind skipToken := bind fuel skipWhile

/-- The end of the input becomes a token. -/
def Outcome.orEof : Outcome Token → Outcome Token
  | .ended => .read .eof []
  | outcome => outcome

theorem get_eq (lexer : Lexer) :
    Lexer.get lexer =
      match skipToken lexer with
      | (.error .failure, lexer) => (.ok .eof, lexer)
      | result => result := rfl

theorem outcome_of_get (lexer : Lexer) : Outcome.of (Lexer.get lexer) = (Outcome.of (skipToken lexer)).orEof := by
  have empty := Blind.skipToken.empty lexer
  rw [get_eq]
  match ran : skipToken lexer with
  | (.ok token, later) => rfl
  | (.error .failure, later) =>
      rw [ran] at empty
      change Outcome.read Token.eof later.rest = _
      rw [show later.rest = [] from empty rfl]
      rfl
  | (.error .running, later) => rfl
  | (.error (.parsingError _ _ _), later) => rfl
  | (.error (.invalidArgument _), later) => rfl
  | (.error (.outOfRange _), later) => rfl
  | (.error (.lengthError _), later) => rfl

theorem outcome_get (string : Text) : outcome Lexer.get string = (outcome skipToken string).orEof :=
  outcome_of_get (Lexer.init string)

theorem Outcome.orEof_ne_ended (outcome : Outcome Token) : outcome.orEof ≠ .ended := by
  cases outcome <;> simp [Outcome.orEof]

theorem Blind.get : Blind Lexer.get where
  same lexer := by rw [outcome_of_get, outcome_get, Blind.skipToken.same]
  empty lexer ended := by
    rw [outcome_of_get] at ended
    exact absurd ended (Outcome.orEof_ne_ended _)

/-- White space and a token that begins with a character that is none. -/
theorem outcome_get_skip {before : Text} (spaces : ∀ octet ∈ before, space octet = true) {char : UInt8}
    (stops : space char = false) (rest : Text) :
    outcome Lexer.get (before ++ char :: rest) = (outcome (Lexer.getToken char) rest).orEof := by
  have skipped := outcome_getWhile spaces stops
    (show before.length < (before ++ char :: rest).length + 1 by simp) rest
  rw [outcome_get, skipToken, outcome_bind_read (outcome_fuel _) (Blind.skipWhile _),
    outcome_bind_read skipped (Blind.getToken char)]

/-- White space up to the end of the input. -/
theorem outcome_get_spaces {string : Text} (spaces : ∀ octet ∈ string, space octet = true) :
    outcome Lexer.get string = .read .eof [] := by
  have ended := outcome_getWhile_all spaces (Nat.lt_succ_self string.length)
  rw [outcome_get, skipToken, outcome_bind_read (outcome_fuel _) (Blind.skipWhile _), outcome_bind_ended ended]
  rfl

theorem space_nil : Grammar.read.space [] := fun _ member => absurd member List.not_mem_nil

/-- A character that is a token. -/
theorem outcome_get_mark {before : Text} (spaces : Grammar.read.space before) (token : Token) {char : UInt8}
    (isMark : token.mark = some char) (rest : Text) :
    outcome Lexer.get (before ++ char :: rest) = .read token rest := by
  have stops : space char = false := by
    cases token <;> cases isMark <;> rfl
  rw [outcome_get_skip spaces stops, outcome_getToken_mark isMark]
  rfl

/-- The characters after a value. -/
def Follows (rest : Text) : Prop :=
  ∃ char tail, rest = char :: tail ∧ (space char = true ∨ char = byte ',' ∨ char = byte ']' ∨ char = byte '\x7d')

theorem Follows.stops {char : UInt8}
    (follows : space char = true ∨ char = byte ',' ∨ char = byte ']' ∨ char = byte '\x7d') : Stops char := by
  revert char
  apply octet_forall
  simp only [Stops]
  decide

theorem Follows.endsBefore {rest : Text} (follows : Follows rest) (lexeme : Lexeme) : lexeme.EndsBefore rest := by
  obtain ⟨char, tail, rfl, follow⟩ := follows
  cases lexeme with
  | number numeral => exact ⟨char, tail, rfl, (Follows.stops follow).endsAt numeral⟩
  | string body => trivial
  | _ => exact List.cons_ne_nil char tail

/-- A number begins with a minus or a digit. -/
theorem Number.text_head (numeral : Number) :
    ∃ char tail, numeral.text = char :: tail ∧ (char = byte '-' ∨ digit char = true) := by
  have whole : ∃ first rest, numeral.whole = first :: rest ∧ digit first = true := by
    obtain zero | ⟨first, rest, same, positive, -⟩ := numeral.wholeForm
    · exact ⟨byte '0', [], zero, by decide⟩
    · exact ⟨first, rest, same, by simp [digit, positive]⟩
  obtain ⟨first, rest, same, isDigit⟩ := whole
  rw [Number.text_eq, Number.sign, same]
  cases numeral.negative with
  | true => exact ⟨byte '-', _, rfl, .inl rfl⟩
  | false => exact ⟨first, _, rfl, .inr isDigit⟩

theorem number_not_space {char : UInt8} (isNumber : char = byte '-' ∨ digit char = true) : space char = false := by
  revert char
  apply octet_forall
  decide

/-- The token of a literal, whatever comes after it. -/
theorem outcome_get_string {before : Text} (spaces : Grammar.read.space before) {body : Text}
    (readable : bodyOf Item.IsRead body) (rest : Text) :
    outcome Lexer.get (before ++ (Lexeme.quoted body ++ rest)) =
      Outcome.ofOption ((Lexeme.string? body).map .string) rest := by
  have ofOption : ∀ result : Option Token, (Outcome.ofOption result rest).orEof = Outcome.ofOption result rest := by
    intro result
    cases result <;> rfl
  rw [Lexeme.quoted, List.cons_append, List.cons_append, outcome_get_skip spaces (by decide), outcome_getToken_string,
    List.append_assoc, List.singleton_append, outcome_getString readable, ofOption]

/-- A value that is one token as it is read. -/
theorem outcome_get_lexeme {before : Text} (spaces : Grammar.read.space before) {lexeme : Lexeme}
    (within : lexeme.Within .read) {rest : Text} (ends : lexeme.EndsBefore rest) :
    outcome Lexer.get (before ++ (lexeme.text ++ rest)) = Outcome.ofOption lexeme.token rest := by
  have words : ∀ {word : String} {token : Token} {first : UInt8} {others : Text}, text word = first :: others →
      space first = false → (∀ octet ∈ text word, octet ≠ byte '\n') → rest ≠ [] →
      outcome (Lexer.getToken first) (others ++ rest) =
        outcome (Lexer.getWord word token) (first :: (others ++ rest)) →
      outcome Lexer.get (before ++ (text word ++ rest)) = .read token rest := by
    intro word token first others isText stops line nonempty again
    rw [isText, List.cons_append, outcome_get_skip spaces stops, again, ← List.cons_append, ← isText,
      outcome_getWord token line nonempty]
    rfl
  cases lexeme with
  | null => exact words rfl (by decide) (by simp [text, byte]) ends (outcome_getToken_null _)
  | true => exact words rfl (by decide) (by simp [text, byte]) ends (outcome_getToken_true _)
  | false => exact words rfl (by decide) (by simp [text, byte]) ends (outcome_getToken_false _)
  | number numeral =>
      obtain ⟨first, others, isText, isNumber⟩ := numeral.text_head
      obtain ⟨char, tail, rfl, endsAt⟩ := ends
      have ofOption (result : Option Token) :
          (Outcome.ofOption result (char :: tail)).orEof = Outcome.ofOption result (char :: tail) := by
        cases result <;> rfl
      have stops := number_not_space isNumber
      change outcome Lexer.get (before ++ (numeral.text ++ char :: tail)) = _
      rw [isText, List.cons_append, outcome_get_skip spaces stops, outcome_getToken_number isNumber, ← List.cons_append,
        ← isText, outcome_getNumber numeral endsAt, ofOption]
      rfl
  | string body => exact outcome_get_string spaces within rest

/-- What a token has read with the white space before it. -/
theorem get_read {string rest : Text} {token : Token} (read : outcome Lexer.get string = .read token rest)
    (notEof : token ≠ .eof) :
    ∃ before, Grammar.read.space before ∧
      ((∃ char, token.mark = some char ∧ string = before ++ char :: rest) ∨
        ∃ lexeme : Lexeme, lexeme.Within .read ∧ lexeme.token = some token ∧
          string = before ++ (lexeme.text ++ rest) ∧ lexeme.EndsBefore rest) := by
  obtain ⟨before, char, tail, rfl, spaces, stops⟩ | spaces := span_cases space string
  · rw [outcome_get_skip spaces stops] at read
    have read : outcome (Lexer.getToken char) tail = .read token rest := by
      match ran : outcome (Lexer.getToken char) tail with
      | .read value last =>
          rw [ran] at read
          exact read
      | .ended =>
          rw [ran] at read
          cases read
          exact absurd rfl notEof
      | .refused =>
          rw [ran] at read
          cases read
      | .running =>
          rw [ran] at read
          cases read
    refine ⟨before, spaces, ?_⟩
    obtain ⟨isMark, rfl⟩ | ⟨lexeme, within, isToken, split, ends⟩ := getToken_read read
    · exact .inl ⟨char, isMark, rfl⟩
    · exact .inr ⟨lexeme, within, isToken, by rw [split], ends⟩
  · rw [outcome_get_spaces spaces] at read
    cases read
    exact absurd rfl notEof

theorem Lexeme.token_ne {lexeme : Lexeme} {token : Token} (isToken : lexeme.token = some token) :
    token ≠ .eof ∧ token.mark = none := by
  cases lexeme with
  | null =>
      cases isToken
      decide
  | true =>
      cases isToken
      decide
  | false =>
      cases isToken
      decide
  | number numeral =>
      change numeral.token = some token at isToken
      rw [Number.token] at isToken
      split at isToken
      · split at isToken
        · obtain ⟨value, -, rfl⟩ := Option.map_eq_some_iff.mp isToken
          exact ⟨by simp, rfl⟩
        · obtain ⟨value, -, rfl⟩ := Option.map_eq_some_iff.mp isToken
          exact ⟨by simp, rfl⟩
      · cases isToken
  | string body =>
      obtain ⟨value, -, rfl⟩ := Option.map_eq_some_iff.mp isToken
      exact ⟨by simp, rfl⟩

/-- The end of the input is met when everything was read. -/
theorem get_eof {string rest : Text} (read : outcome Lexer.get string = .read .eof rest) : rest = [] := by
  obtain ⟨before, char, tail, rfl, spaces, stops⟩ | spaces := span_cases space string
  · rw [outcome_get_skip spaces stops] at read
    match ran : outcome (Lexer.getToken char) tail with
    | .ended =>
        rw [ran] at read
        cases read
        rfl
    | .read value last =>
        rw [ran] at read
        cases read
        obtain ⟨isMark, -⟩ | ⟨lexeme, -, isToken, -⟩ := getToken_read ran
        · cases isMark
        · exact absurd rfl (Lexeme.token_ne isToken).1
    | .refused =>
        rw [ran] at read
        cases read
    | .running =>
        rw [ran] at read
        cases read
  · rw [outcome_get_spaces spaces] at read
    cases read
    rfl

end SimpleNFast.Json
