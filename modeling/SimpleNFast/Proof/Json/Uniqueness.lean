import SimpleNFast.Proof.Json.Alignment

set_option maxRecDepth 100000

namespace SimpleNFast.Json

/-- The kind of value that a character begins, and seven for a character that begins none. -/
def kindOf (char : UInt8) : Nat :=
  if char = byte 'n' then 0
  else if char = byte 't' then 1
  else if char = byte 'f' then 2
  else if char = byte '"' then 3
  else if char = byte '-' ∨ digit char = true then 4
  else if char = byte '[' then 5
  else if char = byte '\x7b' then 6
  else 7

theorem space_of_kind {char : UInt8} (begins : kindOf char ≠ 7) : space char = false := by
  revert char
  apply octet_forall
  simp only [kindOf]
  decide

theorem kindOf_number {char : UInt8} (isNumber : char = byte '-' ∨ digit char = true) : kindOf char = 4 := by
  revert char
  apply octet_forall
  simp only [kindOf]
  decide

def Lexeme.kind : Lexeme → Nat
  | .null => 0
  | .true => 1
  | .false => 2
  | .string _ => 3
  | .number _ => 4

def Tree.kind : Tree → Nat
  | .scalar lexeme => lexeme.kind
  | .emptyArray _ | .array _ => 5
  | .emptyObject _ | .object _ => 6

theorem Lexeme.text_head (lexeme : Lexeme) :
    ∃ char tail, lexeme.text = char :: tail ∧ kindOf char = lexeme.kind := by
  cases lexeme with
  | null => exact ⟨byte 'n', _, rfl, rfl⟩
  | true => exact ⟨byte 't', _, rfl, rfl⟩
  | false => exact ⟨byte 'f', _, rfl, rfl⟩
  | number numeral =>
      obtain ⟨char, tail, same, isNumber⟩ := numeral.text_head
      exact ⟨char, tail, same, kindOf_number isNumber⟩
  | string body => exact ⟨byte '"', body ++ [byte '"'], rfl, rfl⟩

theorem Tree.text_head (tree : Tree) : ∃ char tail, tree.text = char :: tail ∧ kindOf char = tree.kind := by
  cases tree with
  | scalar lexeme => exact lexeme.text_head
  | emptyArray space => exact ⟨byte '[', space ++ [byte ']'], rfl, rfl⟩
  | array elements => exact ⟨byte '[', elements.text ++ [byte ']'], rfl, rfl⟩
  | emptyObject space => exact ⟨byte '\x7b', space ++ [byte '\x7d'], rfl, rfl⟩
  | object members => exact ⟨byte '\x7b', members.text ++ [byte '\x7d'], rfl, rfl⟩

theorem Tree.kind_ne (tree : Tree) : tree.kind ≠ 7 := by
  cases tree with
  | scalar lexeme => cases lexeme <;> simp [Tree.kind, Lexeme.kind]
  | _ => simp [Tree.kind]

/-- Values whose texts begin in the same way are of one kind. -/
theorem Tree.kind_eq {tree tree' : Tree} {rest rest' : Text} (same : tree.text ++ rest = tree'.text ++ rest') :
    tree.kind = tree'.kind := by
  obtain ⟨char, tail, isText, isKind⟩ := tree.text_head
  obtain ⟨char', tail', isText', isKind'⟩ := tree'.text_head
  rw [isText, isText'] at same
  injection same with first
  rw [← isKind, ← isKind', first]

theorem Tree.text_free (tree : Tree) (rest : Text) : Free space (tree.text ++ rest) := by
  obtain ⟨char, tail, isText, isKind⟩ := tree.text_head
  rw [isText]
  exact Free.cons (space_of_kind (by rw [isKind]; exact tree.kind_ne)) _

/-- The text of a lexeme is read in one way. -/
theorem Lexeme.unique {lexeme lexeme' : Lexeme} {rest rest' : Text} (within : lexeme.Within .rfc)
    (within' : lexeme'.Within .read) (follows : Follows rest) (follows' : Follows rest')
    (same : lexeme.text ++ rest = lexeme'.text ++ rest') : lexeme = lexeme' ∧ rest = rest' := by
  have kinds : lexeme.kind = lexeme'.kind := @Tree.kind_eq (.scalar lexeme) (.scalar lexeme') _ _ same
  match lexeme, lexeme' with
  | .null, .null => exact ⟨rfl, List.append_cancel_left same⟩
  | .true, .true => exact ⟨rfl, List.append_cancel_left same⟩
  | .false, .false => exact ⟨rfl, List.append_cancel_left same⟩
  | .number numeral, .number numeral' =>
      obtain ⟨rfl, rfl⟩ := Number.unique follows.apart follows'.apart same
      exact ⟨rfl, rfl⟩
  | .string body, .string body' =>
      have apart : rest.head? ≠ some (byte 'u') := by
        obtain ⟨char, tail, rfl, follow⟩ := follows
        rintro same
        cases same
        revert follow
        decide
      obtain ⟨rfl, rfl⟩ := quoted_unique within within' apart same
      exact ⟨rfl, rfl⟩

/-- A mark is a character after a value. -/
def IsMark (char : UInt8) : Prop := char = byte ',' ∨ char = byte ']' ∨ char = byte '\x7d'

theorem IsMark.not_space {char : UInt8} (isMark : IsMark char) : space char = false := by
  obtain rfl | rfl | rfl := isMark
  · decide
  · decide
  · decide

theorem IsMark.kind {char : UInt8} (isMark : IsMark char) : kindOf char = 7 := by
  obtain rfl | rfl | rfl := isMark
  · decide
  · decide
  · decide

/-- A text of the grammar is read as one tree only. -/
def UniqueTree (tree : Tree) : Prop := ∀ {tree' : Tree} {rest rest' : Text}, tree'.Within .read →
  Follows rest → Follows rest' → tree.text ++ rest = tree'.text ++ rest' → tree = tree' ∧ rest = rest'

/-- White space in front of other characters is determined by the text. -/
theorem spaces_unique {before before' rest rest' : Text} (spaces : Grammar.read.space before)
    (spaces' : Grammar.read.space before') (free : Free space rest) (free' : Free space rest')
    (same : before ++ rest = before' ++ rest') : before = before' ∧ rest = rest' :=
  span_unique spaces spaces' free free' same

/-- A value with white space around it and a mark after it is determined by the text. -/
theorem value_unique {tree tree' : Tree} (unique : UniqueTree tree) (within' : tree'.Within .read)
    {before after before' after' rest rest' : Text} {mark mark' : UInt8} (isMark : IsMark mark)
    (isMark' : IsMark mark') (spaces : Grammar.read.space before) (spaces' : Grammar.read.space before')
    (spacesAfter : Grammar.read.space after) (spacesAfter' : Grammar.read.space after')
    (same : before ++ (tree.text ++ (after ++ mark :: rest)) =
      before' ++ (tree'.text ++ (after' ++ mark' :: rest'))) :
    before = before' ∧ tree = tree' ∧ after = after' ∧ mark = mark' ∧ rest = rest' := by
  obtain ⟨sameBefore, same⟩ := spaces_unique spaces spaces' (tree.text_free _) (tree'.text_free _) same
  obtain ⟨sameTree, same⟩ := unique within' (follows_mark spacesAfter isMark rest)
    (follows_mark spacesAfter' isMark' rest') same
  obtain ⟨sameAfter, same⟩ := spaces_unique spacesAfter spacesAfter' (Free.cons isMark.not_space _)
    (Free.cons isMark'.not_space _) same
  injection same with sameMark same
  exact ⟨sameBefore, sameTree, sameAfter, sameMark, same⟩

theorem memberHead_append (before key afterKey beforeValue rest : Text) :
    memberHead before key afterKey beforeValue ++ rest =
      before ++ (Lexeme.quoted key ++ (afterKey ++ byte ':' :: (beforeValue ++ rest))) := by
  simp [memberHead]

/-- What comes after a key does not begin with the letter of a word. -/
theorem key_apart {afterKey : Text} (spaces : Grammar.read.space afterKey) (rest : Text) :
    (afterKey ++ byte ':' :: rest).head? ≠ some (byte 'u') := by
  match afterKey with
  | [] => simp; decide
  | first :: afterKey =>
      have isSpace := spaces first List.mem_cons_self
      intro same
      cases same
      revert isSpace
      decide

/-- The parts of a member up to its value are determined by the text. -/
theorem memberHead_unique {before key afterKey beforeValue before' key' afterKey' beforeValue' rest rest' : Text}
    (within : HeadWithin .rfc before key afterKey beforeValue)
    (within' : HeadWithin .read before' key' afterKey' beforeValue') (free : Free space rest)
    (free' : Free space rest')
    (same : memberHead before key afterKey beforeValue ++ rest =
      memberHead before' key' afterKey' beforeValue' ++ rest') :
    before = before' ∧ key = key' ∧ afterKey = afterKey' ∧ beforeValue = beforeValue' ∧ rest = rest' := by
  obtain ⟨spaces, isRfc, spacesKey, spacesValue⟩ := within
  obtain ⟨spaces', isRead, spacesKey', spacesValue'⟩ := within'
  rw [memberHead_append, memberHead_append] at same
  obtain ⟨sameBefore, same⟩ := spaces_unique (space_of_rfc spaces) spaces' (Free.cons (by decide) _)
    (Free.cons (by decide) _) same
  obtain ⟨sameKey, same⟩ := quoted_unique isRfc isRead (key_apart (space_of_rfc spacesKey) _) same
  obtain ⟨sameAfter, same⟩ := spaces_unique (space_of_rfc spacesKey) spacesKey' (Free.cons (by decide) _)
    (Free.cons (by decide) _) same
  injection same with _ same
  obtain ⟨sameValue, same⟩ := spaces_unique (space_of_rfc spacesValue) spacesValue' free free' same
  exact ⟨sameBefore, sameKey, sameAfter, sameValue, same⟩

section Texts

variable (before key afterKey beforeValue : Text) (value : Tree) (after string : Text)

theorem Elements.text_last :
    (Elements.last before value after).text ++ string = before ++ (value.text ++ (after ++ string)) := by
  simp [Elements.text]

theorem Elements.text_more (rest : Elements) : (Elements.more before value after rest).text ++ string =
    before ++ (value.text ++ (after ++ byte ',' :: (rest.text ++ string))) := by
  simp [Elements.text]

theorem Members.text_last : (Members.last before key afterKey beforeValue value after).text ++ string =
    memberHead before key afterKey beforeValue ++ ([] ++ (value.text ++ (after ++ string))) := by
  simp [Members.text]

theorem Members.text_more (rest : Members) :
    (Members.more before key afterKey beforeValue value after rest).text ++ string =
      memberHead before key afterKey beforeValue ++
        ([] ++ (value.text ++ (after ++ byte ',' :: (rest.text ++ string)))) := by
  simp [Members.text]

end Texts

section Containers

variable {grammar : Grammar} (sub : ∀ {space}, grammar.space space → Grammar.read.space space) {space : Text}
  (spaces : Grammar.read.space space) (last : Text)
include sub spaces

/-- A value in front of anything is not the end of an array. -/
theorem value_ne_bracket {before : Text} (isSpace : grammar.space before) (value : Tree) (tail : Text) :
    before ++ (value.text ++ tail) ≠ space ++ byte ']' :: last := by
  intro same
  obtain ⟨-, same⟩ := spaces_unique (sub isSpace) spaces (value.text_free _) (Free.cons (by decide) _) same
  obtain ⟨char, others, isText, isKind⟩ := value.text_head
  rw [isText] at same
  injection same with isMark
  rw [isMark] at isKind
  exact value.kind_ne isKind.symm

/-- A member in front of anything is not the end of an object. -/
theorem memberHead_ne_bracket {before key afterKey beforeValue : Text} (isSpace : grammar.space before) (tail : Text) :
    memberHead before key afterKey beforeValue ++ tail ≠ space ++ byte '\x7d' :: last := by
  intro same
  rw [memberHead_append] at same
  obtain ⟨-, same⟩ := spaces_unique (sub isSpace) spaces (Free.cons (by decide) _) (Free.cons (by decide) _) same
  injection same with isMark
  revert isMark
  decide

theorem Elements.text_ne {elements : Elements} (within : elements.Within grammar) (rest : Text) :
    elements.text ++ rest ≠ space ++ byte ']' :: last := by
  cases elements with
  | last before value after =>
      rw [Elements.text_last]
      exact value_ne_bracket sub spaces _ within.1 value _
  | more before value after others =>
      rw [Elements.text_more]
      exact value_ne_bracket sub spaces _ within.1.1 value _

theorem Members.text_ne {members : Members} (within : members.Within grammar) (rest : Text) :
    members.text ++ rest ≠ space ++ byte '\x7d' :: last := by
  cases members with
  | last before key afterKey beforeValue value after =>
      rw [Members.text_last]
      exact memberHead_ne_bracket sub spaces _ within.1.1 _
  | more before key afterKey beforeValue value after others =>
      rw [Members.text_more]
      exact memberHead_ne_bracket sub spaces _ within.1.1.1 _

end Containers

section Kinds

variable {tree : Tree}

theorem Tree.scalar_of_kind {lexeme : Lexeme} (same : lexeme.kind = tree.kind) :
    ∃ other : Lexeme, tree = .scalar other := by
  cases tree with
  | scalar other => exact ⟨other, rfl⟩
  | _ => cases lexeme <;> cases same

theorem Tree.array_of_kind (same : 5 = tree.kind) :
    (∃ space, tree = .emptyArray space) ∨ ∃ elements, tree = .array elements := by
  cases tree with
  | scalar lexeme => cases lexeme <;> cases same
  | emptyArray space => exact .inl ⟨space, rfl⟩
  | array elements => exact .inr ⟨elements, rfl⟩
  | _ => cases same

theorem Tree.object_of_kind (same : 6 = tree.kind) :
    (∃ space, tree = .emptyObject space) ∨ ∃ members, tree = .object members := by
  cases tree with
  | scalar lexeme => cases lexeme <;> cases same
  | emptyObject space => exact .inl ⟨space, rfl⟩
  | object members => exact .inr ⟨members, rfl⟩
  | _ => cases same

end Kinds

/-- A text between two brackets and what comes after them. -/
theorem bracketed_inj {opening closing : UInt8} {inner inner' rest rest' : Text}
    (same : (opening :: inner ++ [closing]) ++ rest = (opening :: inner' ++ [closing]) ++ rest') :
    inner ++ closing :: rest = inner' ++ closing :: rest' := by
  simpa using same

theorem empty_unique {closing : UInt8} (noSpace : space closing = false) {spaces spaces' rest rest' : Text}
    (within : rfcSpace spaces) (within' : Grammar.read.space spaces')
    (same : spaces ++ closing :: rest = spaces' ++ closing :: rest') : spaces = spaces' ∧ rest = rest' := by
  obtain ⟨sameSpaces, same⟩ := spaces_unique (space_of_rfc within) within' (Free.cons noSpace _)
    (Free.cons noSpace _) same
  injection same with _ same
  exact ⟨sameSpaces, same⟩

mutual

/-- The text of a tree is read in one way; a scalar needs a character after it. -/
theorem Tree.unique : (tree : Tree) → tree.Within .rfc → ∀ {tree' : Tree} {rest rest' : Text}, tree'.Within .read →
    (Follows rest ∧ Follows rest' ∨ tree.isContainer = true) → tree.text ++ rest = tree'.text ++ rest' →
    tree = tree' ∧ rest = rest'
  | .scalar lexeme, within, tree', rest, rest', within', follows, same => by
      obtain ⟨lexeme', rfl⟩ := Tree.scalar_of_kind (Tree.kind_eq same)
      obtain ⟨follows, follows'⟩ := follows.resolve_right Bool.false_ne_true
      obtain ⟨rfl, rfl⟩ := Lexeme.unique within within' follows follows' same
      exact ⟨rfl, rfl⟩
  | .emptyArray space, within, tree', rest, rest', within', _, same => by
      obtain ⟨space', rfl⟩ | ⟨elements', rfl⟩ := Tree.array_of_kind (Tree.kind_eq same)
      · obtain ⟨rfl, rfl⟩ := empty_unique (by decide) within within' (bracketed_inj same)
        exact ⟨rfl, rfl⟩
      · exact absurd (bracketed_inj same).symm (Elements.text_ne id (space_of_rfc within) _ within' _)
  | .array elements, within, tree', rest, rest', within', _, same => by
      obtain ⟨space', rfl⟩ | ⟨elements', rfl⟩ := Tree.array_of_kind (Tree.kind_eq same)
      · exact absurd (bracketed_inj same) (Elements.text_ne space_of_rfc within' _ within _)
      · obtain ⟨rfl, rfl⟩ := elements.unique within within' (bracketed_inj same)
        exact ⟨rfl, rfl⟩
  | .emptyObject space, within, tree', rest, rest', within', _, same => by
      obtain ⟨space', rfl⟩ | ⟨members', rfl⟩ := Tree.object_of_kind (Tree.kind_eq same)
      · obtain ⟨rfl, rfl⟩ := empty_unique (by decide) within within' (bracketed_inj same)
        exact ⟨rfl, rfl⟩
      · exact absurd (bracketed_inj same).symm (Members.text_ne id (space_of_rfc within) _ within' _)
  | .object members, within, tree', rest, rest', within', _, same => by
      obtain ⟨space', rfl⟩ | ⟨members', rfl⟩ := Tree.object_of_kind (Tree.kind_eq same)
      · exact absurd (bracketed_inj same) (Members.text_ne space_of_rfc within' _ within _)
      · obtain ⟨rfl, rfl⟩ := members.unique within within' (bracketed_inj same)
        exact ⟨rfl, rfl⟩

theorem Elements.unique : (elements : Elements) → elements.Within .rfc → ∀ {elements' : Elements} {rest rest' : Text},
    elements'.Within .read → elements.text ++ byte ']' :: rest = elements'.text ++ byte ']' :: rest' →
    elements = elements' ∧ rest = rest'
  | .last before value after, ⟨spaces, within, spacesAfter⟩, elements', rest, rest', within', same => by
      have unique : UniqueTree value := fun within' follows follows' same =>
        value.unique within within' (.inl ⟨follows, follows'⟩) same
      rw [Elements.text_last] at same
      cases elements' with
      | last before' value' after' =>
          obtain ⟨spaces', within', spacesAfter'⟩ := within'
          rw [Elements.text_last] at same
          obtain ⟨rfl, rfl, rfl, -, rfl⟩ := value_unique unique within' (.inr (.inl rfl)) (.inr (.inl rfl))
            (space_of_rfc spaces) spaces' (space_of_rfc spacesAfter) spacesAfter' same
          exact ⟨rfl, rfl⟩
      | more before' value' after' others' =>
          obtain ⟨⟨spaces', within', spacesAfter'⟩, -⟩ := within'
          rw [Elements.text_more] at same
          obtain ⟨-, -, -, marks, -⟩ := value_unique unique within' (.inr (.inl rfl)) (.inl rfl)
            (space_of_rfc spaces) spaces' (space_of_rfc spacesAfter) spacesAfter' same
          cases marks
  | .more before value after others, ⟨⟨spaces, within, spacesAfter⟩, withinOthers⟩, elements', rest, rest', within',
      same => by
      have unique : UniqueTree value := fun within' follows follows' same =>
        value.unique within within' (.inl ⟨follows, follows'⟩) same
      rw [Elements.text_more] at same
      cases elements' with
      | last before' value' after' =>
          obtain ⟨spaces', within', spacesAfter'⟩ := within'
          rw [Elements.text_last] at same
          obtain ⟨-, -, -, marks, -⟩ := value_unique unique within' (.inl rfl) (.inr (.inl rfl))
            (space_of_rfc spaces) spaces' (space_of_rfc spacesAfter) spacesAfter' same
          cases marks
      | more before' value' after' others' =>
          obtain ⟨⟨spaces', within', spacesAfter'⟩, withinOthers'⟩ := within'
          rw [Elements.text_more] at same
          obtain ⟨rfl, rfl, rfl, -, same⟩ := value_unique unique within' (.inl rfl) (.inl rfl)
            (space_of_rfc spaces) spaces' (space_of_rfc spacesAfter) spacesAfter' same
          obtain ⟨rfl, rfl⟩ := others.unique withinOthers withinOthers' same
          exact ⟨rfl, rfl⟩

theorem Members.unique : (members : Members) → members.Within .rfc → ∀ {members' : Members} {rest rest' : Text},
    members'.Within .read → members.text ++ byte '\x7d' :: rest = members'.text ++ byte '\x7d' :: rest' →
    members = members' ∧ rest = rest'
  | .last before key afterKey beforeValue value after, ⟨head, within, spacesAfter⟩, members', rest, rest', within',
      same => by
      have unique : UniqueTree value := fun within' follows follows' same =>
        value.unique within within' (.inl ⟨follows, follows'⟩) same
      rw [Members.text_last] at same
      cases members' with
      | last before' key' afterKey' beforeValue' value' after' =>
          obtain ⟨head', within', spacesAfter'⟩ := within'
          rw [Members.text_last] at same
          obtain ⟨rfl, rfl, rfl, rfl, valued⟩ := memberHead_unique head head' (value.text_free _)
            (value'.text_free _) same
          obtain ⟨-, rfl, rfl, -, rfl⟩ := value_unique unique within' (.inr (.inr rfl)) (.inr (.inr rfl))
            space_nil space_nil (space_of_rfc spacesAfter) spacesAfter' valued
          exact ⟨rfl, rfl⟩
      | more before' key' afterKey' beforeValue' value' after' others' =>
          obtain ⟨⟨head', within', spacesAfter'⟩, -⟩ := within'
          rw [Members.text_more] at same
          obtain ⟨-, -, -, -, same⟩ := memberHead_unique head head' (value.text_free _) (value'.text_free _) same
          obtain ⟨-, -, -, marks, -⟩ := value_unique unique within' (.inr (.inr rfl)) (.inl rfl)
            space_nil space_nil (space_of_rfc spacesAfter) spacesAfter' same
          cases marks
  | .more before key afterKey beforeValue value after others, ⟨⟨head, within, spacesAfter⟩, withinOthers⟩, members',
      rest, rest', within', same => by
      have unique : UniqueTree value := fun within' follows follows' same =>
        value.unique within within' (.inl ⟨follows, follows'⟩) same
      rw [Members.text_more] at same
      cases members' with
      | last before' key' afterKey' beforeValue' value' after' =>
          obtain ⟨head', within', spacesAfter'⟩ := within'
          rw [Members.text_last] at same
          obtain ⟨-, -, -, -, same⟩ := memberHead_unique head head' (value.text_free _) (value'.text_free _) same
          obtain ⟨-, -, -, marks, -⟩ := value_unique unique within' (.inl rfl) (.inr (.inr rfl))
            space_nil space_nil (space_of_rfc spacesAfter) spacesAfter' same
          cases marks
      | more before' key' afterKey' beforeValue' value' after' others' =>
          obtain ⟨⟨head', within', spacesAfter'⟩, withinOthers'⟩ := within'
          rw [Members.text_more] at same
          obtain ⟨rfl, rfl, rfl, rfl, valued⟩ := memberHead_unique head head' (value.text_free _)
            (value'.text_free _) same
          obtain ⟨-, rfl, rfl, -, tail⟩ := value_unique unique within' (.inl rfl) (.inl rfl)
            space_nil space_nil (space_of_rfc spacesAfter) spacesAfter' valued
          obtain ⟨rfl, rfl⟩ := others.unique withinOthers withinOthers' tail
          exact ⟨rfl, rfl⟩

end

end SimpleNFast.Json
