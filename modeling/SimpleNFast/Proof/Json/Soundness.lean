import SimpleNFast.Proof.Json.Uniqueness

namespace SimpleNFast.Json

/-- The lexer does not take a value of the grammar for the end of the input. -/
theorem Tree.get_rfc_ne_eof {tree : Tree} (within : tree.Within .rfc) {before : Text}
    (spaces : Grammar.read.space before) {rest : Text} (follows : Follows rest) (last : Text) :
    outcome Lexer.get (before ++ (tree.text ++ rest)) ≠ .read .eof last := by
  have marked : ∀ (token : Token) {char : UInt8} {others : Text}, token.mark = some char → token ≠ .eof →
      outcome Lexer.get (before ++ (char :: others ++ rest)) ≠ .read .eof last := by
    intro token char others isMark other read
    rw [List.cons_append, outcome_get_mark spaces token isMark] at read
    cases read
    exact other rfl
  cases tree with
  | scalar lexeme =>
      cases lexeme with
      | string body =>
          obtain ⟨char, tail, rfl, follow⟩ := follows
          refine get_quoted_ne_eof spaces within (List.cons_ne_nil _ _) ?_ last
          intro same
          cases same
          revert follow
          decide
      | null => exact Tree.get_ne_eof (show (Tree.scalar .null).Within .read from trivial) spaces (follows.endsTree _) last
      | true => exact Tree.get_ne_eof (show (Tree.scalar .true).Within .read from trivial) spaces (follows.endsTree _) last
      | false => exact Tree.get_ne_eof (show (Tree.scalar .false).Within .read from trivial) spaces (follows.endsTree _) last
      | number numeral =>
          have within : (Tree.scalar (.number numeral)).Within .read := trivial
          exact Tree.get_ne_eof within spaces (follows.endsTree _) last
  | emptyArray space => exact marked .lb rfl (by decide)
  | array elements => exact marked .lb rfl (by decide)
  | emptyObject space => exact marked .lcb rfl (by decide)
  | object members => exact marked .lcb rfl (by decide)

/-- A mark is not the end of the input. -/
theorem not_ends_mark {before : Text} (spaces : Grammar.read.space before) (token : Token) {char : UInt8}
    (isMark : token.mark = some char) (rest : Text) : ¬ Ends (before ++ char :: rest) := by
  rw [ends_iff, outcome_get_mark spaces token isMark]
  intro same
  cases same
  cases isMark

theorem Tree.uniqueTree {tree : Tree} (within : tree.Within .rfc) : UniqueTree tree :=
  fun within' follows follows' same => tree.unique within within' (.inl ⟨follows, follows'⟩) same

theorem CutElements.ne_empty {cut : CutElements} (isRead : cut.IsRead) {space : Text}
    (spaces : Grammar.read.space space) (rest : Text) : cut.text ≠ space ++ byte ']' :: rest := by
  cases cut with
  | stop tail =>
      rintro rfl
      exact not_ends_mark spaces .rb rfl rest isRead
  | more before value after others =>
      rw [CutElements.text, List.append_assoc, List.append_assoc]
      exact value_ne_bracket id spaces rest isRead.1.1 value _

theorem CutMembers.ne_empty {cut : CutMembers} (isRead : cut.IsRead) {space : Text}
    (spaces : Grammar.read.space space) (rest : Text) : cut.text ≠ space ++ byte '\x7d' :: rest := by
  cases cut with
  | stop tail =>
      rintro rfl
      exact not_ends_mark spaces .rcb rfl rest isRead
  | more before key afterKey beforeValue value after others =>
      rw [CutMembers.text, List.append_assoc, List.append_assoc]
      exact memberHead_ne_bracket id spaces rest isRead.1.1.1 _

/-- The elements of an array that is closed do not come to the end of the input. -/
theorem CutElements.ne_elements {cut : CutElements} (isRead : cut.IsRead) {elements : Elements}
    (within : elements.Within .rfc) (rest : Text) : cut.text ≠ elements.text ++ byte ']' :: rest := by
  induction cut generalizing elements with
  | stop tail =>
      rintro rfl
      have ended := (ends_iff _).mp isRead
      cases elements with
      | last before value after =>
          obtain ⟨spaces, within, spacesAfter⟩ := within
          rw [Elements.text_last] at ended
          exact Tree.get_rfc_ne_eof within (space_of_rfc spaces)
            (follows_mark (space_of_rfc spacesAfter) (.inr (.inl rfl)) _) _ ended
      | more before value after others =>
          obtain ⟨⟨spaces, within, spacesAfter⟩, -⟩ := within
          rw [Elements.text_more] at ended
          exact Tree.get_rfc_ne_eof within (space_of_rfc spaces)
            (follows_mark (space_of_rfc spacesAfter) (.inl rfl) _) _ ended
  | more before' value' after' others' inductionHypothesis =>
      obtain ⟨⟨spaces', within', spacesAfter'⟩, -, areRead⟩ := isRead
      intro same
      rw [CutElements.text, List.append_assoc, List.append_assoc] at same
      cases elements with
      | last before value after =>
          obtain ⟨spaces, within, spacesAfter⟩ := within
          rw [Elements.text_last] at same
          obtain ⟨-, -, -, marks, -⟩ := value_unique (Tree.uniqueTree within) within' (.inr (.inl rfl)) (.inl rfl)
            (space_of_rfc spaces) spaces' (space_of_rfc spacesAfter) spacesAfter' same.symm
          cases marks
      | more before value after others =>
          obtain ⟨⟨spaces, within, spacesAfter⟩, withinOthers⟩ := within
          rw [Elements.text_more] at same
          obtain ⟨-, -, -, -, tail⟩ := value_unique (Tree.uniqueTree within) within' (.inl rfl) (.inl rfl)
            (space_of_rfc spaces) spaces' (space_of_rfc spacesAfter) spacesAfter' same.symm
          exact inductionHypothesis areRead withinOthers tail.symm

/-- The members of an object that is closed do not come to the end of the input. -/
theorem CutMembers.ne_members {cut : CutMembers} (isRead : cut.IsRead) {members : Members}
    (within : members.Within .rfc) (rest : Text) : cut.text ≠ members.text ++ byte '\x7d' :: rest := by
  induction cut generalizing members with
  | stop tail =>
      rintro rfl
      have ended := (ends_iff _).mp isRead
      have first : ∀ {before key afterKey beforeValue : Text}, HeadWithin .rfc before key afterKey beforeValue →
          ∀ later, outcome Lexer.get (memberHead before key afterKey beforeValue ++ later) ≠ .read .eof [] := by
        intro before key afterKey beforeValue ⟨spaces, isRfc, spacesKey, _⟩ later
        rw [memberHead_append]
        refine get_quoted_ne_eof (space_of_rfc spaces) isRfc ?_ (key_apart (space_of_rfc spacesKey) _) []
        simp
      cases members with
      | last before key afterKey beforeValue value after =>
          rw [Members.text_last] at ended
          exact first within.1 _ ended
      | more before key afterKey beforeValue value after others =>
          rw [Members.text_more] at ended
          exact first within.1.1 _ ended
  | more before' key' afterKey' beforeValue' value' after' others' inductionHypothesis =>
      obtain ⟨⟨head', within', spacesAfter'⟩, -, areRead⟩ := isRead
      intro same
      rw [CutMembers.text, List.append_assoc, List.append_assoc] at same
      cases members with
      | last before key afterKey beforeValue value after =>
          obtain ⟨head, within, spacesAfter⟩ := within
          rw [Members.text_last] at same
          obtain ⟨-, -, -, -, valued⟩ := memberHead_unique head head' (value.text_free _) (value'.text_free _) same.symm
          obtain ⟨-, -, -, marks, -⟩ := value_unique (Tree.uniqueTree within) within' (.inr (.inr rfl)) (.inl rfl)
            space_nil space_nil (space_of_rfc spacesAfter) spacesAfter' valued
          cases marks
      | more before key afterKey beforeValue value after others =>
          obtain ⟨⟨head, within, spacesAfter⟩, withinOthers⟩ := within
          rw [Members.text_more] at same
          obtain ⟨-, -, -, -, valued⟩ := memberHead_unique head head' (value.text_free _) (value'.text_free _) same.symm
          obtain ⟨-, -, -, -, tail⟩ := value_unique (Tree.uniqueTree within) within' (.inl rfl) (.inl rfl)
            space_nil space_nil (space_of_rfc spacesAfter) spacesAfter' valued
          exact inductionHypothesis areRead withinOthers tail.symm

/-- A JSON text is read as what it is. -/
theorem Document.reading_unique (document : Document .rfc) {reading : Reading} (isRead : reading.IsRead)
    (same : reading.text = document.text) : reading = .closed document.before document.root document.after := by
  have spaces := space_of_rfc document.spaceBefore
  rw [Document.text] at same
  have bracket : ∀ {char : UInt8} {rest : Text}, space char = false → ∀ {before : Text}, Grammar.read.space before →
      before ++ char :: rest = document.before ++ (document.root.text ++ document.after) →
      char :: rest = document.root.text ++ document.after := by
    intro char rest noSpace before spaces' same
    exact (spaces_unique spaces' spaces (Free.cons noSpace _) (document.root.text_free _) same).2
  cases reading with
  | closed before root after =>
      obtain ⟨spaces', container, within, -⟩ := isRead
      obtain ⟨rfl, tail⟩ := spaces_unique spaces' spaces (root.text_free _) (document.root.text_free _) same
      obtain ⟨rfl, rfl⟩ := document.root.unique document.within within (.inr document.container) tail.symm
      rfl
  | cutArray before cut =>
      obtain ⟨spaces', areRead⟩ := isRead
      have same := bracket (by decide) spaces' same
      obtain ⟨char, tail, isText, isKind⟩ := document.root.text_head
      have within := document.within
      have first : char = byte '[' := by
        rw [isText] at same
        injection same with first
        exact first.symm
      rw [first] at isKind
      obtain ⟨space, isRoot⟩ | ⟨elements, isRoot⟩ := Tree.array_of_kind isKind
      · rw [isRoot] at same within
        exact absurd (by simpa [Tree.text] using same) (cut.ne_empty areRead (space_of_rfc within) document.after)
      · rw [isRoot] at same within
        exact absurd (by simpa [Tree.text] using same) (cut.ne_elements areRead within document.after)
  | cutObject before cut =>
      obtain ⟨spaces', areRead⟩ := isRead
      have same := bracket (by decide) spaces' same
      obtain ⟨char, tail, isText, isKind⟩ := document.root.text_head
      have within := document.within
      have first : char = byte '\x7b' := by
        rw [isText] at same
        injection same with first
        exact first.symm
      rw [first] at isKind
      obtain ⟨space, isRoot⟩ | ⟨members, isRoot⟩ := Tree.object_of_kind isKind
      · rw [isRoot] at same within
        exact absurd (by simpa [Tree.text] using same) (cut.ne_empty areRead (space_of_rfc within) document.after)
      · rw [isRoot] at same within
        exact absurd (by simpa [Tree.text] using same) (cut.ne_members areRead within document.after)

/-- The parser is sound for a text unless it is read with a missing bracket, with something after the root, or with
strings and spaces that are not of the grammar. -/
theorem sound_iff_flawless (string : Text) :
    Sound string ↔ ∀ reading : Reading, reading.IsRead → reading.text = string → reading.Flawless := by
  constructor
  · rintro ⟨sound, -⟩ reading isRead rfl
    obtain ⟨document, same⟩ := sound ((accepted_iff _).mpr ⟨reading, isRead, rfl⟩)
    rw [document.reading_unique isRead same.symm]
    exact ⟨document.spaceBefore, document.within, document.spaceAfter⟩
  · intro flawless
    have documents : Accepted string → ∃ document : Document .rfc, document.text = string ∧
        document.root.Within .read := by
      intro accepted
      obtain ⟨reading, isRead, same⟩ := (accepted_iff string).mp accepted
      have isFlawless := flawless reading isRead same
      cases reading with
      | closed before root after =>
          exact ⟨⟨before, root, after, isRead.2.1, isFlawless.1, isFlawless.2.1, isFlawless.2.2⟩, same, isRead.2.2.1⟩
      | cutArray before elements => exact absurd isFlawless id
      | cutObject before members => exact absurd isFlawless id
    constructor
    · intro accepted
      obtain ⟨document, same, -⟩ := documents accepted
      exact ⟨document, same⟩
    · intro whole rest nonempty cut
      match ran : fromString string with
      | .error fault =>
          refine ⟨fault, ?_, rfl⟩
          rintro rfl
          exact fromString_ne_running string ran
      | .ok value =>
          obtain ⟨document, rfl, within⟩ := documents ⟨value, ran⟩
          rw [Document.untilClosed, Document.text, List.append_assoc, List.append_assoc] at cut
          have free : Free space whole.root.text := by
            have free := whole.root.text_free []
            rwa [List.append_nil] at free
          obtain ⟨-, cut⟩ := spaces_unique (space_of_rfc whole.spaceBefore) (space_of_rfc document.spaceBefore) free
            (document.root.text_free _) cut
          obtain ⟨-, last⟩ := whole.root.unique whole.within within (.inr whole.container)
            ((List.append_nil _).trans cut)
          exact absurd (List.append_eq_nil_iff.mp last.symm).2 nonempty

/-- The text of an array of one element. -/
def oneTrueText : Document .rfc :=
  ⟨[], .array (.last [] (.scalar .true) []), [], rfl, rfcSpace_nil, ⟨rfcSpace_nil, trivial, rfcSpace_nil⟩, rfcSpace_nil⟩

/-- The opening bracket of a JSON text is accepted without the rest of the text. -/
theorem openBracket_not_sound : oneTrueText.text = text "[true]" ∧ oneTrueText.untilClosed = text "[" ++ text "true]" ∧
    fromString (text "[") = .ok (.array []) ∧ ¬ Sound (text "[") := by
  have accepted : fromString (text "[") = .ok (.array []) := by
    rfl
  refine ⟨rfl, rfl, accepted, ?_⟩
  rintro ⟨-, cut⟩
  obtain ⟨fault, -, rejected⟩ := cut oneTrueText (text "true]") (by decide) rfl
  rw [accepted] at rejected
  cases rejected

end SimpleNFast.Json
