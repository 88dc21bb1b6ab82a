import SimpleNFast.Proof.Json.Tokens

namespace SimpleNFast.Json

section Steps

variable (fuel : Nat)

/-- The loops and the switch with the token that they begin with. -/
def readValue (what : String) : Lex Value := Lexer.get >>= fun token => parseValue fuel token what

def readElements (elements : List Value) : Lex Value := Lexer.get >>= fun token => parseElements fuel token elements

def readMembers (members : List (Text × Value)) : Lex Value :=
  Lexer.get >>= fun token => parseMembers fuel token members

/-- The decision after an element. -/
def afterElement (elements : List Value) (token : Token) : Lex Value :=
  if token = .rb then pure (.array elements)
  else if token ≠ .comma then Lexer.parsingError (text ", or ] expected")
  else readElements fuel elements

/-- The decision after a member. -/
def afterMember (members : List (Text × Value)) (token : Token) : Lex Value :=
  if token = .rcb then pure (.object members)
  else if token ≠ .comma then Lexer.parsingError (text ", or \x7d expected")
  else readMembers fuel members

/-- The rest of the loop after an element was read. -/
def elementEnd (elements : List Value) (element : Value) : Lex Value :=
  Lexer.get >>= afterElement fuel (elements ++ [element])

/-- The rest of the loop after the members were updated. -/
def memberEnd (members : List (Text × Value)) : Lex Value := Lexer.get >>= afterMember fuel members

/-- The rest of the loop after a member was read. -/
def memberAdd (members : List (Text × Value)) (key : Text) (member : Value) : Lex Value :=
  (liftM (Value.addMember members key member) : Lex (List (Text × Value))) >>= memberEnd fuel

/-- A member after its colon. -/
def memberValue (members : List (Text × Value)) (key : Text) : Lex Value :=
  readValue fuel "object member value expected" >>= memberAdd fuel members key

/-- A member after its key. -/
def memberColon (members : List (Text × Value)) (key : Text) (token : Token) : Lex Value :=
  if token ≠ .colon then Lexer.parsingError (text "colon expected") else memberValue fuel members key

theorem parseElements_eof (elements : List Value) :
    parseElements (fuel + 1) .eof elements = pure (.array elements) := rfl

theorem parseElements_token {token : Token} (notEof : token ≠ .eof) (elements : List Value) :
    parseElements (fuel + 1) token elements =
      parseValue fuel token "array element expected" >>= elementEnd fuel elements := by
  rw [parseElements, if_neg notEof]
  rfl

theorem parseMembers_eof (members : List (Text × Value)) :
    parseMembers (fuel + 1) .eof members = pure (.object members) := rfl

theorem parseMembers_string (key : Text) (members : List (Text × Value)) :
    parseMembers (fuel + 1) (.string key) members = Lexer.get >>= memberColon fuel members key := by
  rw [parseMembers]
  congr 1
  funext token
  rw [memberColon]
  split
  · rfl
  · rw [memberValue, readValue, bind_assoc]
    rfl

theorem parseMembers_other {token : Token} (notEof : token ≠ .eof) (notString : ∀ key, token ≠ .string key)
    (members : List (Text × Value)) :
    parseMembers (fuel + 1) token members = Lexer.parsingError (text "string expected") := by
  cases token with
  | eof => exact absurd rfl notEof
  | string key => exact absurd rfl (notString key)
  | _ => rfl

theorem parseValue_lcb (what : String) : parseValue (fuel + 1) .lcb what = readMembers fuel [] := rfl

theorem parseValue_lb (what : String) : parseValue (fuel + 1) .lb what = readElements fuel [] := rfl

theorem parseValue_other {token : Token} (notObject : token ≠ .lcb) (notArray : token ≠ .lb) (what : String) :
    parseValue (fuel + 1) token what =
      match token.value with
      | some value => pure value
      | none => Lexer.parsingError (text what) := by
  cases token with
  | lcb => exact absurd rfl notObject
  | lb => exact absurd rfl notArray
  | _ => rfl

end Steps

theorem addMember_ne (members : List (Text × Value)) (key : Text) (member : Value) :
    Value.addMember members key member ≠ .error .failure ∧ Value.addMember members key member ≠ .error .running := by
  have other := stringUnescape_ne key
  rw [Value.addMember]
  match ran : stringUnescape key with
  | .ok content =>
      constructor
      · intro same
        cases same
      · intro same
        cases same
  | .error fault =>
      rw [ran] at other
      constructor
      · intro same
        cases same
        exact other.1 rfl
      · intro same
        cases same
        exact other.2 rfl

/-- All three functions of the parser do not look at positions. -/
structure BlindParser (fuel : Nat) : Prop where
  elements : ∀ token elements, Blind (parseElements fuel token elements)
  members : ∀ token members, Blind (parseMembers fuel token members)
  value : ∀ token what, Blind (parseValue fuel token what)

namespace BlindParser

variable {fuel : Nat} (blind : BlindParser fuel)
include blind

theorem readValue (what : String) : Blind (readValue fuel what) := Blind.bind Blind.get fun _ => blind.value _ _

theorem readElements (elements : List Value) : Blind (readElements fuel elements) :=
  Blind.bind Blind.get fun _ => blind.elements _ _

theorem readMembers (members : List (Text × Value)) : Blind (readMembers fuel members) :=
  Blind.bind Blind.get fun _ => blind.members _ _

theorem afterElement (elements : List Value) (token : Token) : Blind (afterElement fuel elements token) := by
  rw [Json.afterElement]
  split
  · exact Blind.pure _
  split
  · exact Blind.parsingError _
  · exact blind.readElements elements

theorem afterMember (members : List (Text × Value)) (token : Token) : Blind (afterMember fuel members token) := by
  rw [Json.afterMember]
  split
  · exact Blind.pure _
  split
  · exact Blind.parsingError _
  · exact blind.readMembers members

theorem elementEnd (elements : List Value) (element : Value) : Blind (elementEnd fuel elements element) :=
  Blind.bind Blind.get (blind.afterElement _)

theorem memberEnd (members : List (Text × Value)) : Blind (memberEnd fuel members) :=
  Blind.bind Blind.get (blind.afterMember _)

theorem memberAdd (members : List (Text × Value)) (key : Text) (member : Value) :
    Blind (memberAdd fuel members key member) :=
  Blind.bind (Blind.lift (addMember_ne members key member).1) blind.memberEnd

theorem memberValue (members : List (Text × Value)) (key : Text) : Blind (memberValue fuel members key) :=
  Blind.bind (blind.readValue _) (blind.memberAdd _ _)

theorem memberColon (members : List (Text × Value)) (key : Text) (token : Token) :
    Blind (memberColon fuel members key token) := by
  rw [Json.memberColon]
  split
  · exact Blind.parsingError _
  · exact blind.memberValue members key

end BlindParser

theorem blindParser (fuel : Nat) : BlindParser fuel := by
  induction fuel with
  | zero =>
      refine ⟨fun _ _ => ?_, fun _ _ => ?_, fun _ _ => ?_⟩
      · exact Blind.throw (by decide)
      · exact Blind.throw (by decide)
      · exact Blind.throw (by decide)
  | succ fuel blind =>
      refine ⟨fun token elements => ?_, fun token members => ?_, fun token what => ?_⟩
      · by_cases isEof : token = .eof
        · rw [isEof, parseElements_eof]
          exact Blind.pure _
        · rw [parseElements_token fuel isEof]
          exact Blind.bind (blind.value _ _) (blind.elementEnd _)
      · by_cases isEof : token = .eof
        · rw [isEof, parseMembers_eof]
          exact Blind.pure _
        · by_cases isString : ∃ key, token = .string key
          · obtain ⟨key, rfl⟩ := isString
            rw [parseMembers_string]
            exact Blind.bind Blind.get (blind.memberColon _ _)
          · rw [parseMembers_other fuel isEof fun key same => isString ⟨key, same⟩]
            exact Blind.parsingError _
      · by_cases isObject : token = .lcb
        · rw [isObject, parseValue_lcb]
          exact blind.readMembers []
        · by_cases isArray : token = .lb
          · rw [isArray, parseValue_lb]
            exact blind.readElements []
          · rw [parseValue_other fuel isObject isArray]
            split
            · exact Blind.pure _
            · exact Blind.parsingError _

/-- A missing value is refused, and one that is there goes on. -/
def Outcome.after {first second : Type} (value : Option first) (next : first → Outcome second) : Outcome second :=
  match value with
  | some value => next value
  | none => .refused

section Reading

variable {fuel : Nat}

/-- A value that begins with a token that is not the end. -/
theorem outcome_readElements {string rest : Text} {value : Option Value}
    (ran : outcome (readValue fuel "array element expected") string = Outcome.ofOption value rest)
    (notEof : ∀ rest, outcome Lexer.get string ≠ .read .eof rest) (elements : List Value) :
    outcome (readElements (fuel + 1) elements) string =
      Outcome.after value fun value => outcome (elementEnd fuel elements value) rest := by
  have blind := blindParser fuel
  have blindSucc := blindParser (fuel + 1)
  rw [readValue, outcome_bind fun _ => blind.value _ _] at ran
  rw [readElements, outcome_bind fun _ => blindSucc.elements _ _]
  match first : outcome Lexer.get string with
  | .read token later =>
      have other : token ≠ .eof := fun same => notEof later (by rw [first, same])
      rw [first] at ran
      change outcome (parseValue fuel token _) later = _ at ran
      change outcome (parseElements (fuel + 1) token elements) later = _
      rw [parseElements_token fuel other, outcome_bind (blind.elementEnd elements), ran]
      match value with
      | some value => rfl
      | none => rfl
  | .refused =>
      rw [first] at ran
      match value with
      | some value => cases ran
      | none => rfl
  | .ended =>
      rw [first] at ran
      match value with
      | some value => cases ran
      | none => cases ran
  | .running =>
      rw [first] at ran
      match value with
      | some value => cases ran
      | none => cases ran

/-- The bracket after the last element. -/
theorem outcome_elementEnd_last {after : Text} (spaces : Grammar.read.space after) (elements : List Value)
    (element : Value) (rest : Text) :
    outcome (elementEnd fuel elements element) (after ++ byte ']' :: rest) =
      .read (.array (elements ++ [element])) rest :=
  outcome_bind_read (outcome_get_mark spaces .rb rfl rest) (Blind.pure _)

/-- The comma before further elements. -/
theorem outcome_elementEnd_more {after : Text} (spaces : Grammar.read.space after) (elements : List Value)
    (element : Value) (rest : Text) :
    outcome (elementEnd fuel elements element) (after ++ byte ',' :: rest) =
      outcome (readElements fuel (elements ++ [element])) rest :=
  outcome_bind_read (outcome_get_mark spaces .comma rfl rest) ((blindParser fuel).readElements _)

/-- The bracket after the last member. -/
theorem outcome_memberEnd_last {after : Text} (spaces : Grammar.read.space after) (members : List (Text × Value))
    (rest : Text) :
    outcome (memberEnd fuel members) (after ++ byte '\x7d' :: rest) = .read (.object members) rest :=
  outcome_bind_read (outcome_get_mark spaces .rcb rfl rest) (Blind.pure _)

/-- The comma before further members. -/
theorem outcome_memberEnd_more {after : Text} (spaces : Grammar.read.space after) (members : List (Text × Value))
    (rest : Text) :
    outcome (memberEnd fuel members) (after ++ byte ',' :: rest) = outcome (readMembers fuel members) rest :=
  outcome_bind_read (outcome_get_mark spaces .comma rfl rest) ((blindParser fuel).readMembers _)

theorem outcome_memberAdd (members : List (Text × Value)) (key : Text) (member : Value) (rest : Text) :
    outcome (memberAdd fuel members key member) rest =
      match stringUnescape key with
      | .ok key => outcome (memberEnd fuel (Value.insert members key member)) rest
      | .error _ => .refused := by
  have other := addMember_ne members key member
  have blind := (blindParser fuel).memberEnd
  rw [memberAdd, outcome_bind blind]
  match ran : stringUnescape key with
  | .ok content =>
      have added : Value.addMember members key member = .ok (Value.insert members content member) := by
        rw [Value.addMember, ran]
        rfl
      rw [added]
      rfl
  | .error fault =>
      have failed : Value.addMember members key member = .error fault := by
        rw [Value.addMember, ran]
        rfl
      rw [failed] at other ⊢
      cases fault with
      | failure => exact absurd rfl other.1
      | running => exact absurd rfl other.2
      | parsingError => rfl
      | invalidArgument => rfl
      | outOfRange => rfl
      | lengthError => rfl

/-- A member with its value. -/
theorem outcome_readMembers {before key afterKey beforeValue string rest : Text} {value : Option Value}
    (within : HeadWithin .read before key afterKey beforeValue)
    (ran : outcome (readValue fuel "object member value expected") (beforeValue ++ string) =
      Outcome.ofOption value rest) (members : List (Text × Value)) :
    outcome (readMembers (fuel + 1) members) (memberHead before key afterKey beforeValue ++ string) =
      Outcome.after (Lexeme.key key) fun key => Outcome.after value fun value =>
        outcome (memberEnd fuel (Value.insert members key value)) rest := by
  obtain ⟨spaces, body, spacesKey, -⟩ := within
  have blind := blindParser fuel
  have split : memberHead before key afterKey beforeValue ++ string =
      before ++ (Lexeme.quoted key ++ (afterKey ++ byte ':' :: (beforeValue ++ string))) := by
    simp [memberHead]
  have first := outcome_get_string spaces body (afterKey ++ byte ':' :: (beforeValue ++ string))
  rw [split, readMembers, outcome_bind fun _ => (blindParser (fuel + 1)).members _ _, first, Lexeme.key]
  match Lexeme.string? key with
  | none => rfl
  | some content =>
      change outcome (parseMembers (fuel + 1) (.string content) members) _ = _
      rw [parseMembers_string, outcome_bind_read (outcome_get_mark spacesKey .colon rfl _) (blind.memberColon _ _ _)]
      change outcome (memberValue fuel members content) _ = _
      rw [memberValue, outcome_bind (blind.memberAdd members content), ran, Option.bind_some]
      match value with
      | none =>
          generalize (stringUnescape content).toOption = unescaped
          cases unescaped <;> rfl
      | some value =>
          change outcome (memberAdd fuel members content value) rest = _
          rw [outcome_memberAdd]
          generalize stringUnescape content = unescaped
          cases unescaped <;> rfl

end Reading

/-- The first token of a value is not the end of the input. -/
theorem Tree.get_ne_eof {tree : Tree} (within : tree.Within .read) {before : Text}
    (spaces : Grammar.read.space before) {rest : Text} (ends : tree.EndsBefore rest) (last : Text) :
    outcome Lexer.get (before ++ (tree.text ++ rest)) ≠ .read .eof last := by
  have marked : ∀ (token : Token) {char : UInt8} {others : Text}, token.mark = some char → token ≠ .eof →
      outcome Lexer.get (before ++ (char :: others ++ rest)) ≠ .read .eof last := by
    intro token char others isMark other read
    rw [List.cons_append, outcome_get_mark spaces token isMark] at read
    cases read
    exact other rfl
  match tree with
  | .scalar lexeme =>
      change lexeme.Within .read at within
      rw [Tree.text, outcome_get_lexeme spaces within ends]
      intro read
      match isToken : lexeme.token with
      | none =>
          rw [isToken] at read
          cases read
      | some token =>
          rw [isToken] at read
          cases read
          exact (Lexeme.token_ne isToken).1 rfl
  | .emptyArray space => exact marked .lb rfl (by decide)
  | .array elements => exact marked .lb rfl (by decide)
  | .emptyObject space => exact marked .lcb rfl (by decide)
  | .object members => exact marked .lcb rfl (by decide)

mutual

/-- The fuel that the parser needs for a value. -/
def Tree.cost : Tree → Nat
  | .scalar _ => 1
  | .emptyArray _ => 3
  | .array elements => elements.cost + 1
  | .emptyObject _ => 2
  | .object members => members.cost + 1

def Elements.cost : Elements → Nat
  | .last _ value _ => value.cost + 1
  | .more _ value _ rest => max value.cost rest.cost + 1

def Members.cost : Members → Nat
  | .last _ _ _ _ value _ => value.cost + 1
  | .more _ _ _ _ value _ rest => max value.cost rest.cost + 1

end

theorem Follows.endsTree {rest : Text} (follows : Follows rest) (tree : Tree) : tree.EndsBefore rest := by
  cases tree with
  | scalar lexeme => exact follows.endsBefore lexeme
  | _ => trivial

/-- White space and a bracket or a comma stand after a value. -/
theorem follows_mark {after : Text} (spaces : Grammar.read.space after) {char : UInt8}
    (isMark : char = byte ',' ∨ char = byte ']' ∨ char = byte '\x7d') (rest : Text) :
    Follows (after ++ char :: rest) := by
  match after with
  | [] => exact ⟨char, rest, rfl, .inr isMark⟩
  | first :: after => exact ⟨first, after ++ char :: rest, rfl, .inl (spaces first List.mem_cons_self)⟩

theorem outcome_readValue_scalar {lexeme : Lexeme} (within : lexeme.Within .read) {before : Text}
    (spaces : Grammar.read.space before) {rest : Text} (ends : lexeme.EndsBefore rest) (fuel : Nat) (what : String) :
    outcome (readValue (fuel + 1) what) (before ++ (lexeme.text ++ rest)) =
      Outcome.ofOption (lexeme.token.bind Token.value) rest := by
  have blind := blindParser (fuel + 1)
  rw [readValue, outcome_bind fun _ => blind.value _ _, outcome_get_lexeme spaces within ends]
  match isToken : lexeme.token with
  | none => rfl
  | some token =>
      have unmarked := (Lexeme.token_ne isToken).2
      change outcome (parseValue (fuel + 1) token what) rest = Outcome.ofOption token.value rest
      rw [parseValue_other fuel]
      · match token.value with
        | some value => rfl
        | none => rfl
      · rintro rfl
        cases unmarked
      · rintro rfl
        cases unmarked

/-- A container begins with its bracket. -/
theorem outcome_readValue_array {before : Text} (spaces : Grammar.read.space before) (fuel : Nat) (what : String)
    (rest : Text) :
    outcome (readValue (fuel + 1) what) (before ++ byte '[' :: rest) = outcome (readElements fuel []) rest :=
  outcome_bind_read (outcome_get_mark spaces .lb rfl rest) ((blindParser fuel).readElements [])

theorem outcome_readValue_object {before : Text} (spaces : Grammar.read.space before) (fuel : Nat) (what : String)
    (rest : Text) :
    outcome (readValue (fuel + 1) what) (before ++ byte '\x7b' :: rest) = outcome (readMembers fuel []) rest :=
  outcome_bind_read (outcome_get_mark spaces .lcb rfl rest) ((blindParser fuel).readMembers [])

theorem outcome_readElements_empty {space : Text} (spaces : Grammar.read.space space) (fuel : Nat)
    (elements : List Value) (rest : Text) :
    outcome (readElements (fuel + 2) elements) (space ++ byte ']' :: rest) = .refused := by
  refine (outcome_bind_read (outcome_get_mark spaces .rb rfl rest) ((blindParser (fuel + 2)).elements _ _)).trans ?_
  rw [parseElements_token (fuel + 1) (by decide)]
  exact outcome_bind_refused rfl _

theorem outcome_readMembers_empty {space : Text} (spaces : Grammar.read.space space) (fuel : Nat)
    (members : List (Text × Value)) (rest : Text) :
    outcome (readMembers (fuel + 1) members) (space ++ byte '\x7d' :: rest) = .refused :=
  outcome_bind_read (outcome_get_mark spaces .rcb rfl rest) ((blindParser (fuel + 1)).members _ _)

mutual

/-- The parser makes of the text of a tree what `Tree.read` says. -/
theorem Tree.outcome_eq : (tree : Tree) → tree.Within .read → ∀ {before rest : Text}, Grammar.read.space before →
    tree.EndsBefore rest → ∀ {fuel : Nat}, tree.cost ≤ fuel → ∀ what : String,
    outcome (readValue fuel what) (before ++ (tree.text ++ rest)) = Outcome.ofOption tree.read rest
  | .scalar lexeme, within, before, rest, spaces, ends, fuel + 1, _, what =>
      outcome_readValue_scalar within spaces ends fuel what
  | .emptyArray space, within, before, rest, spaces, _, fuel + 1, enough, what => by
      match fuel, enough with
      | fuel + 2, _ =>
          rw [Tree.text, List.cons_append, List.cons_append, List.append_assoc, List.singleton_append,
            outcome_readValue_array spaces, outcome_readElements_empty within]
          rfl
  | .array elements, within, before, rest, spaces, _, fuel + 1, enough, what => by
      have ran := Elements.outcome_eq elements within (show elements.cost ≤ fuel from Nat.le_of_succ_le_succ enough) [] rest
      rw [Tree.text, List.cons_append, List.cons_append, List.append_assoc, List.singleton_append,
        outcome_readValue_array spaces, ran, Tree.read]
      rfl
  | .emptyObject space, within, before, rest, spaces, _, fuel + 1, enough, what => by
      match fuel, enough with
      | fuel + 1, _ =>
          rw [Tree.text, List.cons_append, List.cons_append, List.append_assoc, List.singleton_append,
            outcome_readValue_object spaces, outcome_readMembers_empty within]
          rfl
  | .object members, within, before, rest, spaces, _, fuel + 1, enough, what => by
      have ran := Members.outcome_eq members within (show members.cost ≤ fuel from Nat.le_of_succ_le_succ enough) [] rest
      rw [Tree.text, List.cons_append, List.cons_append, List.append_assoc, List.singleton_append,
        outcome_readValue_object spaces, ran, Tree.read]

theorem Elements.outcome_eq : (elements : Elements) → elements.Within .read → ∀ {fuel : Nat}, elements.cost ≤ fuel →
    ∀ (done : List Value) (rest : Text), outcome (readElements fuel done) (elements.text ++ byte ']' :: rest) =
      Outcome.ofOption (elements.read.map fun values => .array (done ++ values)) rest
  | .last before value after, within, fuel + 1, enough, done, rest => by
      obtain ⟨spaces, inner, spacesAfter⟩ := within
      have ends := (follows_mark spacesAfter (.inr (.inl rfl)) rest).endsTree value
      have ran := Tree.outcome_eq value inner spaces ends (Nat.le_of_succ_le_succ enough) "array element expected"
      have notEof := Tree.get_ne_eof inner spaces ends
      rw [Elements.text, List.append_assoc, List.append_assoc, outcome_readElements ran notEof, Elements.read]
      match value.read with
      | none => rfl
      | some value => exact outcome_elementEnd_last spacesAfter done value rest
  | .more before value after others, within, fuel + 1, enough, done, rest => by
      obtain ⟨⟨spaces, inner, spacesAfter⟩, withinOthers⟩ := within
      have bound : max value.cost others.cost ≤ fuel := Nat.le_of_succ_le_succ enough
      have ends := (follows_mark spacesAfter (.inl rfl) (others.text ++ byte ']' :: rest)).endsTree value
      have ran := Tree.outcome_eq value inner spaces ends ((le_max_left _ _).trans bound) "array element expected"
      have notEof := Tree.get_ne_eof inner spaces ends
      rw [Elements.text, List.append_assoc, List.append_assoc, List.append_assoc, List.cons_append,
        outcome_readElements ran notEof, Elements.read]
      match value.read with
      | none => rfl
      | some value =>
          have later := Elements.outcome_eq others withinOthers ((le_max_right _ _).trans bound) (done ++ [value]) rest
          change outcome (elementEnd fuel done value) _ = _
          rw [outcome_elementEnd_more spacesAfter, later]
          match others.read with
          | none => rfl
          | some values =>
              change Outcome.read (Value.array (done ++ [value] ++ values)) rest = _
              rw [List.append_assoc]
              rfl

theorem Members.outcome_eq : (members : Members) → members.Within .read → ∀ {fuel : Nat}, members.cost ≤ fuel →
    ∀ (done : List (Text × Value)) (rest : Text),
    outcome (readMembers fuel done) (members.text ++ byte '\x7d' :: rest) =
      Outcome.ofOption (members.read.map fun members =>
        .object (members.foldl (fun members member => Value.insert members member.1 member.2) done)) rest
  | .last before key afterKey beforeValue value after, within, fuel + 1, enough, done, rest => by
      obtain ⟨head, inner, spacesAfter⟩ := within
      have ends := (follows_mark spacesAfter (.inr (.inr rfl)) rest).endsTree value
      have ran := Tree.outcome_eq value inner head.2.2.2 ends (Nat.le_of_succ_le_succ enough)
        "object member value expected"
      rw [Members.text, List.append_assoc, List.append_assoc, outcome_readMembers head ran, Members.read]
      match Lexeme.key key, value.read with
      | none, _ => rfl
      | some _, none => rfl
      | some key, some value => exact outcome_memberEnd_last spacesAfter _ rest
  | .more before key afterKey beforeValue value after others, within, fuel + 1, enough, done, rest => by
      obtain ⟨⟨head, inner, spacesAfter⟩, withinOthers⟩ := within
      have bound : max value.cost others.cost ≤ fuel := Nat.le_of_succ_le_succ enough
      have ends := (follows_mark spacesAfter (.inl rfl) (others.text ++ byte '\x7d' :: rest)).endsTree value
      have ran := Tree.outcome_eq value inner head.2.2.2 ends ((le_max_left _ _).trans bound)
        "object member value expected"
      rw [Members.text, List.append_assoc, List.append_assoc, List.append_assoc, List.cons_append,
        outcome_readMembers head ran, Members.read]
      match Lexeme.key key, value.read with
      | none, _ => rfl
      | some _, none => rfl
      | some key, some value =>
          have later := Members.outcome_eq others withinOthers ((le_max_right _ _).trans bound)
            (Value.insert done key value) rest
          change outcome (memberEnd fuel (Value.insert done key value)) _ = _
          rw [outcome_memberEnd_more spacesAfter, later]
          match others.read with
          | none => rfl
          | some values => rfl

end

end SimpleNFast.Json
