import SimpleNFast.Construction.Json.Documents
import SimpleNFast.Proof.Json.Parsing

namespace SimpleNFast.Json

theorem ends_iff (string : Text) : Ends string ↔ outcome Lexer.get string = .read .eof [] := by
  constructor
  · rintro ⟨lexer, ran⟩
    have read : outcome Lexer.get string = .read .eof lexer.rest := by
      rw [outcome, ran]
      rfl
    rw [read, get_eof read]
  · intro read
    rw [outcome] at read
    rcases ran : Lexer.get (Lexer.init string) with ⟨found, lexer⟩
    cases found with
    | ok token =>
        rw [ran] at read
        change Outcome.read token lexer.rest = _ at read
        injection read with isEof
        exact ⟨lexer, by rw [isEof] at ran; exact ran⟩
    | error fault =>
        rw [ran] at read
        cases fault <;> cases read

theorem outcome_get_nil : outcome Lexer.get [] = .read .eof [] :=
  outcome_get_spaces fun _ member => absurd member List.not_mem_nil

theorem get_mark_read {string rest : Text} {token : Token} (read : outcome Lexer.get string = .read token rest)
    (char : UInt8) (isMark : token.mark = some char) :
    ∃ before, Grammar.read.space before ∧ string = before ++ char :: rest := by
  have notEof : token ≠ .eof := by
    rintro rfl
    cases isMark
  obtain ⟨before, spaces, ⟨found, same, split⟩ | ⟨lexeme, -, isToken, -⟩⟩ := get_read read notEof
  · rw [isMark] at same
    cases same
    exact ⟨before, spaces, split⟩
  · rw [(Lexeme.token_ne isToken).2] at isMark
    cases isMark

theorem Lexeme.token_string {lexeme : Lexeme} {content : Text} (isToken : lexeme.token = some (.string content)) :
    ∃ body, lexeme = .string body ∧ Lexeme.string? body = some content := by
  cases lexeme with
  | null => cases isToken
  | true => cases isToken
  | false => cases isToken
  | number numeral =>
      change numeral.token = _ at isToken
      rw [Number.token] at isToken
      split at isToken
      · split at isToken
        · obtain ⟨value, -, same⟩ := Option.map_eq_some_iff.mp isToken
          cases same
        · obtain ⟨value, -, same⟩ := Option.map_eq_some_iff.mp isToken
          cases same
      · cases isToken
  | string body =>
      obtain ⟨value, found, same⟩ := Option.map_eq_some_iff.mp isToken
      cases same
      exact ⟨body, rfl, found⟩

theorem get_string_read {string content rest : Text} (read : outcome Lexer.get string = .read (.string content) rest) :
    ∃ before body, Grammar.read.space before ∧ bodyOf Item.IsRead body ∧ Lexeme.string? body = some content ∧
      string = before ++ (Lexeme.quoted body ++ rest) := by
  obtain ⟨before, spaces, ⟨char, isMark, split⟩ | ⟨lexeme, within, isToken, split, -⟩⟩ := get_read read (by simp)
  · cases isMark
  · obtain ⟨body, rfl, same⟩ := Lexeme.token_string isToken
    exact ⟨before, body, spaces, within, same, split⟩

theorem Token.value_of_mark {token : Token} {char : UInt8} (isMark : token.mark = some char) :
    token.value = none := by
  cases token <;> first | rfl | cases isMark

/-- The texts that the parser reads as a value, the elements of an array or the members of an object. -/
structure Inverted (fuel : Nat) : Prop where
  value : ∀ {what string result rest}, outcome (readValue fuel what) string = .read result rest →
    (∃ before tree, Grammar.read.space before ∧ Tree.Within .read tree ∧ tree.read = some result ∧
      tree.EndsBefore rest ∧ string = before ++ (tree.text ++ rest)) ∨ rest = []
  elements : ∀ {done string result rest}, outcome (readElements fuel done) string = .read result rest →
    (∃ elements values, Elements.Within .read elements ∧ elements.read = some values ∧
      result = .array (done ++ values) ∧ string = elements.text ++ byte ']' :: rest) ∨
    ∃ elements, CutElements.IsRead elements ∧ string = elements.text ∧ rest = []
  members : ∀ {done string result rest}, outcome (readMembers fuel done) string = .read result rest →
    (∃ members values, Members.Within .read members ∧ members.read = some values ∧
      result = .object (values.foldl (fun members member => Value.insert members member.1 member.2) done) ∧
      string = members.text ++ byte '\x7d' :: rest) ∨
    ∃ members, CutMembers.IsRead members ∧ string = members.text ∧ rest = []

section Steps

variable {fuel : Nat}

/-- What the loop has read after an element. -/
theorem elementEnd_read {done : List Value} {element result : Value} {string rest : Text}
    (read : outcome (elementEnd fuel done element) string = .read result rest) :
    ∃ after later, Grammar.read.space after ∧
      ((string = after ++ byte ']' :: later ∧ result = .array (done ++ [element]) ∧ rest = later) ∨
        (string = after ++ byte ',' :: later ∧
          outcome (readElements fuel (done ++ [element])) later = .read result rest)) := by
  obtain ⟨token, later, first, read⟩ := outcome_bind_cases ((blindParser fuel).afterElement _) read
  rw [afterElement] at read
  split at read
  · rename_i isBracket
    subst isBracket
    obtain ⟨after, spaces, split⟩ := get_mark_read first (byte ']') rfl
    cases read
    exact ⟨after, later, spaces, .inl ⟨split, rfl, rfl⟩⟩
  split at read
  · cases read
  · rename_i isComma
    rw [not_not] at isComma
    subst isComma
    obtain ⟨after, spaces, split⟩ := get_mark_read first (byte ',') rfl
    exact ⟨after, later, spaces, .inr ⟨split, read⟩⟩

/-- What the loop has read after a member. -/
theorem memberEnd_read {done : List (Text × Value)} {result : Value} {string rest : Text}
    (read : outcome (memberEnd fuel done) string = .read result rest) :
    ∃ after later, Grammar.read.space after ∧
      ((string = after ++ byte '\x7d' :: later ∧ result = .object done ∧ rest = later) ∨
        (string = after ++ byte ',' :: later ∧ outcome (readMembers fuel done) later = .read result rest)) := by
  obtain ⟨token, later, first, read⟩ := outcome_bind_cases ((blindParser fuel).afterMember _) read
  rw [afterMember] at read
  split at read
  · rename_i isBracket
    subst isBracket
    obtain ⟨after, spaces, split⟩ := get_mark_read first (byte '\x7d') rfl
    cases read
    exact ⟨after, later, spaces, .inl ⟨split, rfl, rfl⟩⟩
  split at read
  · cases read
  · rename_i isComma
    rw [not_not] at isComma
    subst isComma
    obtain ⟨after, spaces, split⟩ := get_mark_read first (byte ',') rfl
    exact ⟨after, later, spaces, .inr ⟨split, read⟩⟩

/-- What a member has read after its key. -/
theorem memberColon_read {done : List (Text × Value)} {content string rest : Text} {token : Token} {result : Value}
    (read : outcome (memberColon fuel done content token) string = .read result rest) :
    token = .colon ∧ ∃ member key later,
      outcome (readValue fuel "object member value expected") string = .read member later ∧
      stringUnescape content = .ok key ∧
      outcome (memberEnd fuel (Value.insert done key member)) later = .read result rest := by
  rw [memberColon] at read
  split at read
  · cases read
  · rename_i isColon
    rw [not_not] at isColon
    obtain ⟨member, later, inner, read⟩ := outcome_bind_cases ((blindParser fuel).memberAdd _ _) read
    rw [outcome_memberAdd] at read
    cases unescaped : stringUnescape content with
    | ok key =>
        rw [unescaped] at read
        exact ⟨isColon, member, key, later, inner, rfl, read⟩
    | error fault =>
        rw [unescaped] at read
        cases read

/-- The end of the input after an element is refused. -/
theorem elementEnd_nil {done : List Value} {element result : Value} {rest : Text} :
    outcome (elementEnd fuel done element) [] ≠ .read result rest := by
  intro read
  obtain ⟨after, later, -, ⟨split, -⟩ | ⟨split, -⟩⟩ := elementEnd_read read
  · simp at split
  · simp at split

theorem memberEnd_nil {done : List (Text × Value)} {result : Value} {rest : Text} :
    outcome (memberEnd fuel done) [] ≠ .read result rest := by
  intro read
  obtain ⟨after, later, -, ⟨split, -⟩ | ⟨split, -⟩⟩ := memberEnd_read read
  · simp at split
  · simp at split

end Steps

theorem Inverted.succ_elements {fuel : Nat} (inverted : Inverted fuel) {done : List Value} {string rest : Text}
    {result : Value} (read : outcome (readElements (fuel + 1) done) string = .read result rest) :
    (∃ elements values, Elements.Within .read elements ∧ elements.read = some values ∧
      result = .array (done ++ values) ∧ string = elements.text ++ byte ']' :: rest) ∨
    ∃ elements, CutElements.IsRead elements ∧ string = elements.text ∧ rest = [] := by
  have blind := blindParser fuel
  rw [readElements] at read
  obtain ⟨token, later, first, parsed⟩ :=
    outcome_bind_cases (fun _ => (blindParser (fuel + 1)).elements _ _) read
  by_cases isEof : token = .eof
  · subst isEof
    have empty := get_eof first
    subst empty
    cases parsed
    exact .inr ⟨.stop string, (ends_iff string).mpr first, rfl, rfl⟩
  · rw [parseElements_token fuel isEof] at parsed
    obtain ⟨element, last, inner, ended⟩ := outcome_bind_cases (blind.elementEnd _) parsed
    have valued : outcome (readValue fuel "array element expected") string = .read element last := by
      rw [readValue, outcome_bind_read first (blind.value _ _), inner]
    obtain ⟨before, tree, spaces, within, isValue, -, rfl⟩ | rfl := inverted.value valued
    · obtain ⟨after, tail, spacesAfter, ⟨rfl, rfl, rfl⟩ | ⟨rfl, others⟩⟩ := elementEnd_read ended
      · refine .inl ⟨.last before tree after, [element], ⟨spaces, within, spacesAfter⟩, ?_, rfl, ?_⟩
        · rw [Elements.read, isValue]
          rfl
        · simp [Elements.text]
      · obtain ⟨elements, values, withinOthers, areValues, rfl, rfl⟩ | ⟨elements, areRead, rfl, rfl⟩ :=
          inverted.elements others
        · refine .inl ⟨.more before tree after elements, element :: values,
            ⟨⟨spaces, within, spacesAfter⟩, withinOthers⟩, ?_, ?_, ?_⟩
          · rw [Elements.read, isValue, areValues]
            rfl
          · rw [List.append_assoc]
            rfl
          · simp [Elements.text]
        · refine .inr ⟨.more before tree after elements, ⟨⟨spaces, within, spacesAfter⟩, ?_, areRead⟩, ?_, rfl⟩
          · rw [isValue]
            rfl
          · simp [CutElements.text]
    · exact absurd ended elementEnd_nil

theorem Inverted.succ_members {fuel : Nat} (inverted : Inverted fuel) {done : List (Text × Value)}
    {string rest : Text} {result : Value}
    (read : outcome (readMembers (fuel + 1) done) string = .read result rest) :
    (∃ members values, Members.Within .read members ∧ members.read = some values ∧
      result = .object (values.foldl (fun members member => Value.insert members member.1 member.2) done) ∧
      string = members.text ++ byte '\x7d' :: rest) ∨
    ∃ members, CutMembers.IsRead members ∧ string = members.text ∧ rest = [] := by
  have blind := blindParser fuel
  rw [readMembers] at read
  obtain ⟨token, later, first, parsed⟩ := outcome_bind_cases (fun _ => (blindParser (fuel + 1)).members _ _) read
  by_cases isEof : token = .eof
  · subst isEof
    have empty := get_eof first
    subst empty
    cases parsed
    exact .inr ⟨.stop string, (ends_iff string).mpr first, rfl, rfl⟩
  · by_cases isString : ∃ content, token = .string content
    · obtain ⟨content, rfl⟩ := isString
      obtain ⟨before, body, spaces, readable, isContent, rfl⟩ := get_string_read first
      rw [parseMembers_string] at parsed
      obtain ⟨token, tail, second, parsed⟩ := outcome_bind_cases (blind.memberColon _ _) parsed
      obtain ⟨rfl, member, key, last, inner, unescaped, ended⟩ := memberColon_read parsed
      obtain ⟨afterKey, spacesKey, rfl⟩ := get_mark_read second (byte ':') rfl
      have isKey : Lexeme.key body = some key := by
        rw [Lexeme.key, isContent, Option.bind_some, unescaped]
        rfl
      obtain ⟨beforeValue, tree, spacesValue, within, isValue, -, rfl⟩ | rfl := inverted.value inner
      · have head : HeadWithin .read before body afterKey beforeValue := ⟨spaces, readable, spacesKey, spacesValue⟩
        obtain ⟨after, tail, spacesAfter, ⟨rfl, rfl, rfl⟩ | ⟨rfl, others⟩⟩ := memberEnd_read ended
        · refine .inl ⟨.last before body afterKey beforeValue tree after, [(key, member)],
            ⟨head, within, spacesAfter⟩, ?_, rfl, ?_⟩
          · rw [Members.read, isKey, isValue]
            rfl
          · simp [Members.text, memberHead]
        · obtain ⟨members, values, withinOthers, areValues, rfl, rfl⟩ | ⟨members, areRead, rfl, rfl⟩ :=
            inverted.members others
          · refine .inl ⟨.more before body afterKey beforeValue tree after members, (key, member) :: values,
              ⟨⟨head, within, spacesAfter⟩, withinOthers⟩, ?_, rfl, ?_⟩
            · rw [Members.read, isKey, isValue, areValues]
              rfl
            · simp [Members.text, memberHead]
          · refine .inr ⟨.more before body afterKey beforeValue tree after members,
              ⟨⟨head, within, spacesAfter⟩, ⟨?_, ?_⟩, areRead⟩, ?_, rfl⟩
            · rw [isKey]
              rfl
            · rw [isValue]
              rfl
            · simp [CutMembers.text, memberHead]
      · exact absurd ended memberEnd_nil
    · rw [parseMembers_other fuel isEof fun content same => isString ⟨content, same⟩] at parsed
      cases parsed

theorem Inverted.succ_value {fuel : Nat} (inverted : Inverted fuel) {what : String} {string rest : Text}
    {result : Value} (read : outcome (readValue (fuel + 1) what) string = .read result rest) :
    (∃ before tree, Grammar.read.space before ∧ Tree.Within .read tree ∧ tree.read = some result ∧
      tree.EndsBefore rest ∧ string = before ++ (tree.text ++ rest)) ∨ rest = [] := by
  rw [readValue] at read
  obtain ⟨token, later, first, parsed⟩ := outcome_bind_cases (fun _ => (blindParser (fuel + 1)).value _ _) read
  by_cases isArray : token = .lb
  · subst isArray
    obtain ⟨before, spaces, rfl⟩ := get_mark_read first (byte '[') rfl
    obtain ⟨elements, values, within, areValues, rfl, rfl⟩ | ⟨_, _, _, rfl⟩ := inverted.elements parsed
    · refine .inl ⟨before, .array elements, spaces, within, ?_, trivial, by simp [Tree.text]⟩
      rw [Tree.read, areValues]
      rfl
    · exact .inr rfl
  by_cases isObject : token = .lcb
  · subst isObject
    obtain ⟨before, spaces, rfl⟩ := get_mark_read first (byte '\x7b') rfl
    obtain ⟨members, values, within, areValues, rfl, rfl⟩ | ⟨_, _, _, rfl⟩ := inverted.members parsed
    · refine .inl ⟨before, .object members, spaces, within, ?_, trivial, by simp [Tree.text]⟩
      rw [Tree.read, areValues]
      rfl
    · exact .inr rfl
  rw [parseValue_other fuel isObject isArray] at parsed
  cases isValue : token.value with
  | none =>
      rw [isValue] at parsed
      cases parsed
  | some value =>
      rw [isValue] at parsed
      cases parsed
      have notEof : token ≠ .eof := by
        rintro rfl
        cases isValue
      obtain ⟨before, spaces, ⟨char, isMark, rfl⟩ | ⟨lexeme, within, isToken, rfl, ends⟩⟩ := get_read first notEof
      · rw [Token.value_of_mark isMark] at isValue
        cases isValue
      · refine .inl ⟨before, .scalar lexeme, spaces, within, ?_, ends, rfl⟩
        rw [Tree.read, isToken]
        exact isValue

/-- What the parser has read is the text of a tree, or the input has ended in it. -/
theorem inverted (fuel : Nat) : Inverted fuel := by
  induction fuel with
  | zero =>
      refine ⟨fun read => ?_, fun read => ?_, fun read => ?_⟩
      · obtain ⟨token, later, -, parsed⟩ := outcome_bind_cases (fun _ => (blindParser 0).value _ _) read
        cases parsed
      · obtain ⟨token, later, -, parsed⟩ := outcome_bind_cases (fun _ => (blindParser 0).elements _ _) read
        cases parsed
      · obtain ⟨token, later, -, parsed⟩ := outcome_bind_cases (fun _ => (blindParser 0).members _ _) read
        cases parsed
  | succ fuel inverted => exact ⟨inverted.succ_value, inverted.succ_elements, inverted.succ_members⟩

end SimpleNFast.Json
