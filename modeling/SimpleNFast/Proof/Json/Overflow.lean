import SimpleNFast.Proof.Json.Conversions
import SimpleNFast.Proof.Json.Termination

namespace SimpleNFast.Json

theorem overNumber_ne_nil {string : Text} (number : OverNumber string) : string ≠ [] := by
  obtain ⟨before, numeral, rest, -, -, ⟨char, tail, rfl, -⟩, rfl⟩ := number
  simp

/-- The key of a member is refused with an exception that is named. -/
theorem memberAdd_undocumented (fuel : Nat) {members : List (Text × Value)} {content : Text} {member : Value}
    {lexer : Lexer} :
    Undocumented (memberAdd fuel members content member lexer) ↔ ∃ key, stringUnescape content = .ok key ∧
      Undocumented (memberEnd fuel (Value.insert members key member) lexer) := by
  cases unescaped : stringUnescape content with
  | ok key =>
      have added : Value.addMember members content member = .ok (Value.insert members key member) := by
        rw [Value.addMember, unescaped]
        rfl
      have step : memberAdd fuel members content member lexer =
          memberEnd fuel (Value.insert members key member) lexer := by
        rw [memberAdd, added]
        rfl
      rw [step]
      constructor
      · exact fun thrown => ⟨key, rfl, thrown⟩
      · rintro ⟨found, same, thrown⟩
        cases same
        exact thrown
  | error fault =>
      have named := Documented.stringUnescape content fault unescaped
      have failed : Value.addMember members content member = .error fault := by
        rw [Value.addMember, unescaped]
        rfl
      apply iff_of_false
      · rw [memberAdd, failed]
        rintro ⟨found, last, same, -, notNamed⟩
        cases same
        exact notNamed named
      · rintro ⟨key, same, -⟩
        cases same

/-- What the parser throws that is not named comes from a number out of range. -/
structure Blamed (fuel : Nat) : Prop where
  value : ∀ {what lexer}, Undocumented (readValue fuel what lexer) → MeetsOverflow .value lexer.rest
  elements : ∀ {done lexer}, Undocumented (readElements fuel done lexer) → MeetsOverflow .element lexer.rest
  members : ∀ {done lexer}, Undocumented (readMembers fuel done lexer) → MeetsOverflow .member lexer.rest

section Blame

variable {fuel : Nat} (blamed : Blamed fuel)
include blamed

theorem Blamed.elementEnd {done : List Value} {element : Value} {lexer : Lexer}
    (thrown : Undocumented (elementEnd fuel done element lexer)) :
    OverNumber lexer.rest ∨ ∃ after later, Grammar.read.space after ∧ lexer.rest = after ++ byte ',' :: later ∧
      MeetsOverflow .element later := by
  obtain thrown | ⟨token, later, ran, thrown⟩ := undocumented_bind.mp thrown
  · exact .inl ((get_undocumented_iff lexer).mp thrown)
  · rw [afterElement] at thrown
    split at thrown
    · exact absurd thrown ((Documented.pure _).not_undocumented later)
    split at thrown
    · exact absurd thrown ((Documented.parsingError _).not_undocumented later)
    · rename_i isComma
      rw [not_not] at isComma
      subst isComma
      obtain ⟨after, spaces, split⟩ := get_mark_read (Blind.get.read ran) (byte ',') rfl
      exact .inr ⟨after, later.rest, spaces, split, blamed.elements thrown⟩

theorem Blamed.memberEnd {done : List (Text × Value)} {lexer : Lexer}
    (thrown : Undocumented (memberEnd fuel done lexer)) :
    OverNumber lexer.rest ∨ ∃ after later, Grammar.read.space after ∧ lexer.rest = after ++ byte ',' :: later ∧
      MeetsOverflow .member later := by
  obtain thrown | ⟨token, later, ran, thrown⟩ := undocumented_bind.mp thrown
  · exact .inl ((get_undocumented_iff lexer).mp thrown)
  · rw [afterMember] at thrown
    split at thrown
    · exact absurd thrown ((Documented.pure _).not_undocumented later)
    split at thrown
    · exact absurd thrown ((Documented.parsingError _).not_undocumented later)
    · rename_i isComma
      rw [not_not] at isComma
      subst isComma
      obtain ⟨after, spaces, split⟩ := get_mark_read (Blind.get.read ran) (byte ',') rfl
      exact .inr ⟨after, later.rest, spaces, split, blamed.members thrown⟩

theorem Blamed.succ_elements {done : List Value} {lexer : Lexer}
    (thrown : Undocumented (readElements (fuel + 1) done lexer)) : MeetsOverflow .element lexer.rest := by
  obtain thrown | ⟨token, later, ran, thrown⟩ := undocumented_bind.mp thrown
  · exact .element (.number ((get_undocumented_iff lexer).mp thrown))
  by_cases isEof : token = .eof
  · rw [isEof, parseElements_eof] at thrown
    exact absurd thrown ((Documented.pure _).not_undocumented later)
  rw [parseElements_token fuel isEof] at thrown
  obtain thrown | ⟨element, last, inner, thrown⟩ := undocumented_bind.mp thrown
  · exact .element (blamed.value (undocumented_bind.mpr (.inr ⟨token, later, ran, thrown⟩)))
  have read : readValue fuel "array element expected" lexer = (.ok element, last) := (run_bind_ok ran _).trans inner
  have tree := (inverted fuel).value (((blindParser fuel).readValue _).read read)
  obtain number | ⟨after, tail, spacesAfter, comma, meets⟩ := blamed.elementEnd thrown
  · obtain ⟨before, tree, spaces, within, isValue, ends, split⟩ | empty := tree
    · rw [split]
      exact .afterElement spaces ⟨within, by rw [isValue]; rfl, ends⟩ number
    · exact absurd empty (overNumber_ne_nil number)
  · rw [comma] at tree
    obtain ⟨before, tree, spaces, within, isValue, ends, split⟩ | empty := tree
    · rw [split]
      exact .nextElement spaces ⟨within, by rw [isValue]; rfl, ends⟩ spacesAfter meets
    · simp at empty

theorem Blamed.succ_members {done : List (Text × Value)} {lexer : Lexer}
    (thrown : Undocumented (readMembers (fuel + 1) done lexer)) : MeetsOverflow .member lexer.rest := by
  obtain thrown | ⟨token, later, ran, thrown⟩ := undocumented_bind.mp thrown
  · exact .key ((get_undocumented_iff lexer).mp thrown)
  by_cases isEof : token = .eof
  · rw [isEof, parseMembers_eof] at thrown
    exact absurd thrown ((Documented.pure _).not_undocumented later)
  by_cases isString : ∃ content, token = .string content
  · obtain ⟨content, rfl⟩ := isString
    obtain ⟨before, body, spaces, readable, isContent, split⟩ := get_string_read (Blind.get.read ran)
    have isSome : (Lexeme.string? body).isSome = true := by rw [isContent]; rfl
    rw [split]
    rw [parseMembers_string] at thrown
    obtain thrown | ⟨token, tail, colon, thrown⟩ := undocumented_bind.mp thrown
    · exact .afterKey spaces readable isSome ((get_undocumented_iff later).mp thrown)
    rw [memberColon] at thrown
    split at thrown
    · exact absurd thrown ((Documented.parsingError _).not_undocumented tail)
    rename_i isColon
    rw [not_not] at isColon
    subst isColon
    obtain ⟨afterKey, spacesKey, splitKey⟩ := get_mark_read (Blind.get.read colon) (byte ':') rfl
    rw [splitKey]
    obtain thrown | ⟨member, last, inner, thrown⟩ := undocumented_bind.mp thrown
    · exact .member spaces readable isSome spacesKey (blamed.value thrown)
    have tree := (inverted fuel).value (((blindParser fuel).readValue _).read inner)
    obtain ⟨key, unescaped, thrown⟩ := (memberAdd_undocumented fuel).mp thrown
    have isKey : (Lexeme.key body).isSome = true := by
      rw [Lexeme.key, isContent, Option.bind_some, unescaped]
      rfl
    have text (beforeValue rest : Text) :
        before ++ (Lexeme.quoted body ++ (afterKey ++ byte ':' :: (beforeValue ++ rest))) =
          memberHead before body afterKey beforeValue ++ rest := by
      simp [memberHead]
    obtain number | ⟨after, tail, spacesAfter, comma, meets⟩ := blamed.memberEnd thrown
    · obtain ⟨beforeValue, tree, spacesValue, within, isValue, ends, split⟩ | empty := tree
      · rw [split, text]
        exact .afterMember ⟨spaces, readable, spacesKey, spacesValue⟩ isKey ⟨within, by rw [isValue]; rfl, ends⟩ number
      · exact absurd empty (overNumber_ne_nil number)
    · rw [comma] at tree
      obtain ⟨beforeValue, tree, spacesValue, within, isValue, ends, split⟩ | empty := tree
      · rw [split, text]
        exact .nextMember ⟨spaces, readable, spacesKey, spacesValue⟩ isKey ⟨within, by rw [isValue]; rfl, ends⟩
          spacesAfter meets
      · simp at empty
  · rw [parseMembers_other fuel isEof fun content same => isString ⟨content, same⟩] at thrown
    exact absurd thrown ((Documented.parsingError _).not_undocumented later)

theorem Blamed.succ_value {what : String} {lexer : Lexer}
    (thrown : Undocumented (readValue (fuel + 1) what lexer)) : MeetsOverflow .value lexer.rest := by
  obtain thrown | ⟨token, later, ran, thrown⟩ := undocumented_bind.mp thrown
  · exact .number ((get_undocumented_iff lexer).mp thrown)
  by_cases isArray : token = .lb
  · subst isArray
    obtain ⟨before, spaces, split⟩ := get_mark_read (Blind.get.read ran) (byte '[') rfl
    rw [split]
    exact .array spaces (blamed.elements thrown)
  by_cases isObject : token = .lcb
  · subst isObject
    obtain ⟨before, spaces, split⟩ := get_mark_read (Blind.get.read ran) (byte '\x7b') rfl
    rw [split]
    exact .object spaces (blamed.members thrown)
  rw [parseValue_other fuel isObject isArray] at thrown
  cases isValue : token.value with
  | some value =>
      rw [isValue] at thrown
      exact absurd thrown ((Documented.pure _).not_undocumented later)
  | none =>
      rw [isValue] at thrown
      exact absurd thrown ((Documented.parsingError _).not_undocumented later)

end Blame

theorem blamed (fuel : Nat) : Blamed fuel := by
  have running {first : Type} (next : Token → Lex first) (lexer : Lexer)
      (stuck : ∀ token, Documented (next token)) (thrown : Undocumented ((Lexer.get >>= next) lexer)) :
      OverNumber lexer.rest := by
    obtain thrown | ⟨token, later, -, thrown⟩ := undocumented_bind.mp thrown
    · exact (get_undocumented_iff lexer).mp thrown
    · exact absurd thrown ((stuck token).not_undocumented later)
  induction fuel with
  | zero =>
      refine ⟨fun thrown => .number (running _ _ ?_ thrown), fun thrown => .element (.number (running _ _ ?_ thrown)),
        fun thrown => .key (running _ _ ?_ thrown)⟩
      · exact fun token => Documented.throw (.inl rfl)
      · exact fun token => Documented.throw (.inl rfl)
      · exact fun token => Documented.throw (.inl rfl)
  | succ fuel blamed => exact ⟨blamed.succ_value, blamed.succ_elements, blamed.succ_members⟩

/-- What the parser throws at a place where it meets a number out of range. -/
def Place.Throws (string : Text) : Place → Prop
  | .value => ∀ fuel what, ∀ lexer : Lexer, lexer.rest = string → 2 * string.length ≤ fuel →
      Undocumented (readValue fuel what lexer)
  | .element => ∀ fuel done, ∀ lexer : Lexer, lexer.rest = string → 2 * string.length + 1 ≤ fuel →
      Undocumented (readElements fuel done lexer)
  | .member => ∀ fuel done, ∀ lexer : Lexer, lexer.rest = string → 2 * string.length + 1 ≤ fuel →
      Undocumented (readMembers fuel done lexer)

theorem get_thrown {value : Type} {string : Text} (number : OverNumber string) {lexer : Lexer}
    (isString : lexer.rest = string) (next : Token → Lex value) : Undocumented ((Lexer.get >>= next) lexer) :=
  undocumented_bind.mpr (.inl ((get_undocumented_iff lexer).mpr (isString ▸ number)))

theorem Documented.parseValue_eof (fuel : Nat) (what : String) : Documented (parseValue fuel .eof what) := by
  cases fuel with
  | zero => exact throw (.inl rfl)
  | succ fuel => exact parsingError _

section Forward

variable {fuel : Nat} {lexer : Lexer}

/-- The parser reads a tree where twice its length is enough. -/
theorem Tree.IsRead.outcome_eq {tree : Tree} {rest : Text} (isRead : tree.IsRead rest) {before : Text}
    (spaces : Grammar.read.space before) (enough : 2 * tree.text.length ≤ fuel) (what : String) :
    ∃ value, outcome (readValue fuel what) (before ++ (tree.text ++ rest)) = .read value rest := by
  obtain ⟨value, isValue⟩ := Option.isSome_iff_exists.mp isRead.isSome
  have ran := tree.outcome_eq isRead.within spaces isRead.ends (tree.cost_le.trans enough) what
  rw [isValue] at ran
  exact ⟨value, ran⟩

/-- The loop has read an element and goes on after it. -/
theorem run_element {tree : Tree} {before rest : Text} (spaces : Grammar.read.space before) (isRead : tree.IsRead rest)
    (isString : lexer.rest = before ++ (tree.text ++ rest)) (enough : 2 * tree.text.length ≤ fuel)
    (done : List Value) :
    ∃ value, ∃ later : Lexer, later.rest = rest ∧
      readElements (fuel + 1) done lexer = elementEnd fuel done value later := by
  obtain ⟨value, read⟩ := isRead.outcome_eq spaces enough "array element expected"
  obtain ⟨later, isRest, ran⟩ := ((blindParser fuel).readValue _).run isString read
  refine ⟨value, later, isRest, ?_⟩
  rw [readValue, run_bind] at ran
  rcases first : Lexer.get lexer with ⟨found, middle⟩
  cases found with
  | error fault =>
      rw [first] at ran
      cases ran
  | ok token =>
      rw [first] at ran
      have notEof : token ≠ .eof := by
        rintro rfl
        exact Tree.get_ne_eof isRead.within spaces isRead.ends _ (isString ▸ Blind.get.read first)
      rw [readElements, run_bind_ok first, parseElements_token fuel notEof]
      exact run_bind_ok ran _

/-- The loop has read a key. -/
theorem run_key (fuel : Nat) {before body content rest : Text} (spaces : Grammar.read.space before)
    (readable : bodyOf Item.IsRead body) (isContent : Lexeme.string? body = some content)
    (isString : lexer.rest = before ++ (Lexeme.quoted body ++ rest)) (done : List (Text × Value)) :
    ∃ later : Lexer, later.rest = rest ∧
      readMembers (fuel + 1) done lexer = (Lexer.get >>= memberColon fuel done content) later := by
  have read := outcome_get_string spaces readable rest
  rw [isContent] at read
  obtain ⟨later, isRest, step⟩ := run_bind_read Blind.get isString read fun token => parseMembers (fuel + 1) token done
  exact ⟨later, isRest, by rw [readMembers, step, parseMembers_string]⟩

/-- The loop has read a colon. -/
theorem run_colon (fuel : Nat) {after rest : Text} (spaces : Grammar.read.space after)
    (isString : lexer.rest = after ++ byte ':' :: rest) (done : List (Text × Value)) (content : Text) :
    ∃ later : Lexer, later.rest = rest ∧
      (Lexer.get >>= memberColon fuel done content) lexer = memberValue fuel done content later :=
  run_bind_read Blind.get isString (outcome_get_mark spaces .colon rfl rest) _

/-- The loop has read a member, and what comes after it is thrown. -/
theorem run_member {tree : Tree} {before key afterKey beforeValue rest : Text}
    (head : HeadWithin .read before key afterKey beforeValue) (keyed : (Lexeme.key key).isSome = true)
    (isRead : tree.IsRead rest)
    (isString : lexer.rest = memberHead before key afterKey beforeValue ++ (tree.text ++ rest))
    (enough : 2 * tree.text.length ≤ fuel) (done : List (Text × Value))
    (thrown : ∀ members, ∀ later : Lexer, later.rest = rest → Undocumented (memberEnd fuel members later)) :
    Undocumented (readMembers (fuel + 1) done lexer) := by
  obtain ⟨spaces, readable, spacesKey, spacesValue⟩ := head
  obtain ⟨name, isKey⟩ := Option.isSome_iff_exists.mp keyed
  obtain ⟨content, isContent, isName⟩ := Option.bind_eq_some_iff.mp isKey
  obtain ⟨value, read⟩ := isRead.outcome_eq spacesValue enough "object member value expected"
  have split : lexer.rest =
      before ++ (Lexeme.quoted key ++ (afterKey ++ byte ':' :: (beforeValue ++ (tree.text ++ rest)))) := by
    rw [isString]
    simp [memberHead]
  obtain ⟨first, isFirst, stepKey⟩ := run_key fuel spaces readable isContent split done
  obtain ⟨second, isSecond, stepColon⟩ := run_colon fuel spacesKey isFirst done content
  obtain ⟨last, isLast, stepValue⟩ := run_bind_read ((blindParser fuel).readValue _) isSecond read
    (memberAdd fuel done content)
  rw [stepKey, stepColon, memberValue, stepValue]
  refine (memberAdd_undocumented fuel).mpr ⟨name, ?_, thrown _ last isLast⟩
  cases unescaped : stringUnescape content with
  | ok found =>
      rw [unescaped] at isName
      cases isName
      rfl
  | error fault =>
      rw [unescaped] at isName
      cases isName

end Forward

/-- Wherever the parser meets a number out of range, the exception is thrown. -/
theorem MeetsOverflow.throws {place : Place} {string : Text} (meets : MeetsOverflow place string) :
    place.Throws string := by
  induction meets with
  | number number => exact fun fuel what lexer isString _ => get_thrown number isString _
  | @array before string spaces _ inductionHypothesis =>
      intro fuel what lexer isString enough
      rw [List.length_append, List.length_cons] at enough
      obtain ⟨fuel, rfl⟩ := Nat.exists_eq_succ_of_ne_zero (show fuel ≠ 0 by omega)
      obtain ⟨later, isLater, step⟩ := run_bind_read Blind.get isString (outcome_get_mark spaces .lb rfl string)
        fun token => parseValue (fuel + 1) token what
      rw [readValue, step, parseValue_lb]
      exact inductionHypothesis fuel [] later isLater (by omega)
  | @object before string spaces _ inductionHypothesis =>
      intro fuel what lexer isString enough
      rw [List.length_append, List.length_cons] at enough
      obtain ⟨fuel, rfl⟩ := Nat.exists_eq_succ_of_ne_zero (show fuel ≠ 0 by omega)
      obtain ⟨later, isLater, step⟩ := run_bind_read Blind.get isString (outcome_get_mark spaces .lcb rfl string)
        fun token => parseValue (fuel + 1) token what
      rw [readValue, step, parseValue_lcb]
      exact inductionHypothesis fuel [] later isLater (by omega)
  | element _ inductionHypothesis =>
      intro fuel done lexer isString enough
      obtain ⟨fuel, rfl⟩ := Nat.exists_eq_succ_of_ne_zero (show fuel ≠ 0 by omega)
      have thrown := inductionHypothesis fuel "array element expected" lexer isString (by omega)
      obtain thrown | ⟨token, later, ran, thrown⟩ := undocumented_bind.mp thrown
      · exact undocumented_bind.mpr (.inl thrown)
      · have notEof : token ≠ .eof := by
          rintro rfl
          exact (Documented.parseValue_eof fuel _).not_undocumented later thrown
        refine undocumented_bind.mpr (.inr ⟨token, later, ran, ?_⟩)
        rw [parseElements_token fuel notEof]
        exact undocumented_bind.mpr (.inl thrown)
  | @afterElement before string tree spaces isRead number =>
      intro fuel done lexer isString enough
      simp only [List.length_append] at enough
      obtain ⟨fuel, rfl⟩ := Nat.exists_eq_succ_of_ne_zero (show fuel ≠ 0 by omega)
      obtain ⟨value, later, isLater, step⟩ := run_element spaces isRead isString (show _ ≤ fuel by omega) done
      rw [step]
      exact get_thrown number isLater _
  | @nextElement before after string tree spaces isRead spacesAfter _ inductionHypothesis =>
      intro fuel done lexer isString enough
      simp only [List.length_append, List.length_cons] at enough
      obtain ⟨fuel, rfl⟩ := Nat.exists_eq_succ_of_ne_zero (show fuel ≠ 0 by omega)
      obtain ⟨value, later, isLater, step⟩ := run_element spaces isRead isString (show _ ≤ fuel by omega) done
      obtain ⟨last, isLast, comma⟩ := run_bind_read Blind.get isLater (outcome_get_mark spacesAfter .comma rfl string)
        (Json.afterElement fuel (done ++ [value]))
      rw [step, elementEnd, comma]
      exact inductionHypothesis fuel (done ++ [value]) last isLast (by omega)
  | key number => exact fun fuel done lexer isString _ => get_thrown number isString _
  | @afterKey before body string spaces readable isSome number =>
      intro fuel done lexer isString enough
      obtain ⟨fuel, rfl⟩ := Nat.exists_eq_succ_of_ne_zero (show fuel ≠ 0 by omega)
      obtain ⟨content, isContent⟩ := Option.isSome_iff_exists.mp isSome
      obtain ⟨later, isLater, step⟩ := run_key fuel spaces readable isContent isString done
      rw [step]
      exact get_thrown number isLater _
  | @member before body afterKey string spaces readable isSome spacesKey _ inductionHypothesis =>
      intro fuel done lexer isString enough
      simp only [List.length_append, List.length_cons] at enough
      obtain ⟨fuel, rfl⟩ := Nat.exists_eq_succ_of_ne_zero (show fuel ≠ 0 by omega)
      obtain ⟨content, isContent⟩ := Option.isSome_iff_exists.mp isSome
      obtain ⟨later, isLater, stepKey⟩ := run_key fuel spaces readable isContent isString done
      obtain ⟨last, isLast, stepColon⟩ := run_colon fuel spacesKey isLater done content
      rw [stepKey, stepColon]
      have thrown := inductionHypothesis fuel "object member value expected" last isLast (by omega)
      exact undocumented_bind.mpr (.inl thrown)
  | @afterMember before key afterKey beforeValue string tree head keyed isRead number =>
      intro fuel done lexer isString enough
      simp only [List.length_append] at enough
      obtain ⟨fuel, rfl⟩ := Nat.exists_eq_succ_of_ne_zero (show fuel ≠ 0 by omega)
      refine run_member head keyed isRead isString (show _ ≤ fuel by omega) done ?_
      exact fun members later isLater => get_thrown number isLater _
  | @nextMember before key afterKey beforeValue after string tree head keyed isRead spacesAfter _ inductionHypothesis =>
      intro fuel done lexer isString enough
      simp only [List.length_append, List.length_cons] at enough
      obtain ⟨fuel, rfl⟩ := Nat.exists_eq_succ_of_ne_zero (show fuel ≠ 0 by omega)
      refine run_member head keyed isRead isString (show _ ≤ fuel by omega) done ?_
      intro members later isLater
      obtain ⟨last, isLast, comma⟩ := run_bind_read Blind.get isLater (outcome_get_mark spacesAfter .comma rfl string)
        (Json.afterMember fuel members)
      rw [memberEnd, comma]
      exact inductionHypothesis fuel members last isLast (by omega)

end SimpleNFast.Json
