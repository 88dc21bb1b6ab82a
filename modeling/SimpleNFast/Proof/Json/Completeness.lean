import SimpleNFast.Proof.Json.Acceptance
import SimpleNFast.Proof.Json.Ranges

set_option maxRecDepth 100000

namespace SimpleNFast.Json

/-- Texts with valid UTF-16 are read by the lexer. -/
theorem Item.isRead_of_utf16 {item : Item} (valid : item.IsUtf16) : item.IsRead := by
  cases item with
  | char octet => exact valid.2
  | escape letter => exact valid
  | unicode word => exact valid.1
  | pair first before letter second =>
      obtain ⟨high, rfl, rfl, low⟩ := valid
      refine ⟨high, .inl rfl, low.1, ?_⟩
      obtain ⟨_, upper⟩ := high
      obtain ⟨_, lower⟩ := low
      rw [pairValue]
      omega

theorem space_of_rfc {space : Text} (valid : rfcSpace space) : Grammar.read.space space := by
  intro octet member
  have known : ∀ octet : UInt8, octet ∈ [0x20, 0x09, 0x0A, 0x0D] → Json.space octet = true := by
    apply octet_forall
    decide
  exact known octet (valid octet member)

/-- A grammar whose texts are all in another one. -/
structure Grammar.Sub (smaller larger : Grammar) : Prop where
  space : ∀ {space}, smaller.space space → larger.space space
  body : ∀ {body}, smaller.body body → larger.body body

theorem HeadWithin.mono {smaller larger : Grammar} (sub : smaller.Sub larger) {before key afterKey beforeValue : Text}
    (within : HeadWithin smaller before key afterKey beforeValue) :
    HeadWithin larger before key afterKey beforeValue :=
  ⟨sub.space within.1, sub.body within.2.1, sub.space within.2.2.1, sub.space within.2.2.2⟩

mutual

theorem Tree.within_mono {smaller larger : Grammar} (sub : smaller.Sub larger) :
    (tree : Tree) → tree.Within smaller → tree.Within larger
  | .scalar .null, _ => trivial
  | .scalar .true, _ => trivial
  | .scalar .false, _ => trivial
  | .scalar (.number _), _ => trivial
  | .scalar (.string _), within => sub.body within
  | .emptyArray _, within => sub.space within
  | .array elements, within => elements.within_mono sub within
  | .emptyObject _, within => sub.space within
  | .object members, within => members.within_mono sub within

theorem Elements.within_mono {smaller larger : Grammar} (sub : smaller.Sub larger) :
    (elements : Elements) → elements.Within smaller → elements.Within larger
  | .last _ value _, within => ⟨sub.space within.1, value.within_mono sub within.2.1, sub.space within.2.2⟩
  | .more _ value _ rest, within =>
      ⟨⟨sub.space within.1.1, value.within_mono sub within.1.2.1, sub.space within.1.2.2⟩,
        rest.within_mono sub within.2⟩

theorem Members.within_mono {smaller larger : Grammar} (sub : smaller.Sub larger) :
    (members : Members) → members.Within smaller → members.Within larger
  | .last _ _ _ _ value _, within => ⟨within.1.mono sub, value.within_mono sub within.2.1, sub.space within.2.2⟩
  | .more _ _ _ _ value _ rest, within =>
      ⟨⟨within.1.1.mono sub, value.within_mono sub within.1.2.1, sub.space within.1.2.2⟩,
        rest.within_mono sub within.2⟩

end

theorem bodyOf_mono {first second : Item → Prop} (weaker : ∀ {item}, first item → second item) {body : Text}
    (made : bodyOf first body) : bodyOf second body := by
  obtain ⟨items, all, same⟩ := made
  exact ⟨items, fun item member => weaker (all item member), same⟩

theorem utf16_sub_read : Grammar.utf16.Sub .read := ⟨space_of_rfc, bodyOf_mono Item.isRead_of_utf16⟩

/-- A lexeme that fits is a value of its own if the lexer reads it. -/
theorem Lexeme.read_iff {lexeme : Lexeme} (fits : lexeme.InRange) :
    lexeme.token.bind Token.value ≠ none ↔ lexeme.Readable := by
  cases lexeme with
  | null => exact iff_of_true (Option.some_ne_none _) trivial
  | true => exact iff_of_true (Option.some_ne_none _) trivial
  | false => exact iff_of_true (Option.some_ne_none _) trivial
  | number numeral =>
      rw [Lexeme.Readable, ← Number.token_isSome fits]
      change numeral.token.bind Token.value ≠ none ↔ numeral.token ≠ none
      rw [Number.token]
      split
      · split
        · cases stoll (numeral.sign ++ numeral.whole) <;> simp [Except.toOption, Token.value]
        · cases stold numeral.kept <;> simp [Except.toOption, Token.value]
      · simp
  | string body =>
      rw [Lexeme.Readable, Lexeme.token]
      cases Lexeme.string? body <;> simp [Token.value]

mutual

theorem Tree.read_iff : (tree : Tree) → tree.All Lexeme.InRange (fun _ => True) True →
    (tree.read ≠ none ↔ tree.Readable)
  | .scalar lexeme, fits => Lexeme.read_iff fits
  | .emptyArray _, _ => iff_of_false (fun unread => unread rfl) id
  | .array elements, fits => by
      change elements.read.map Value.array ≠ none ↔ elements.All _ _ _
      rw [← elements.read_iff fits]
      cases elements.read <;> simp
  | .emptyObject _, _ => iff_of_false (fun unread => unread rfl) id
  | .object members, fits => by
      change members.read.map _ ≠ none ↔ members.All _ _ _
      rw [← members.read_iff fits]
      cases members.read <;> simp

theorem Elements.read_iff : (elements : Elements) → elements.All Lexeme.InRange (fun _ => True) True →
    (elements.read ≠ none ↔ elements.All Lexeme.Readable (fun key => Lexeme.key key ≠ none) False)
  | .last _ value _, fits => by
      rw [Elements.read, Elements.All, ← Tree.Readable, ← value.read_iff fits]
      cases value.read <;> simp
  | .more _ value _ rest, ⟨fits, others⟩ => by
      rw [Elements.read, Elements.All, ← Tree.Readable, ← value.read_iff fits, ← rest.read_iff others]
      cases value.read <;> cases rest.read <;> simp

theorem Members.read_iff : (members : Members) → members.All Lexeme.InRange (fun _ => True) True →
    (members.read ≠ none ↔ members.All Lexeme.Readable (fun key => Lexeme.key key ≠ none) False)
  | .last _ key _ _ value _, ⟨_, fits⟩ => by
      rw [Members.read, Members.All, ← Tree.Readable, ← value.read_iff fits]
      cases Lexeme.key key <;> cases value.read <;> simp
  | .more _ key _ _ value _ rest, ⟨⟨_, fits⟩, others⟩ => by
      rw [Members.read, Members.All, ← Tree.Readable, ← value.read_iff fits, ← rest.read_iff others]
      cases Lexeme.key key <;> cases value.read <;> cases rest.read <;> simp

end

/-- The parser accepts a text of the grammar if it has no empty container, no zero without a point, no exponent of
zeros, and no string that fails when it is unescaped again. -/
theorem accepted_iff_readable (fitting : FittingText) :
    Accepted fitting.document.text ↔ fitting.document.root.Readable := by
  have spaces := space_of_rfc fitting.document.spaceBefore
  have within := fitting.document.root.within_mono utf16_sub_read fitting.document.within
  rw [← fitting.document.root.read_iff fitting.inRange, Option.ne_none_iff_exists']
  exact exists_congr fun value => fromString_closed spaces fitting.document.container within fitting.document.after value

theorem rfcSpace_nil : rfcSpace [] := by
  intro char member
  cases member

/-- The text of an empty array. -/
def emptyArrayText : FittingText where
  document := ⟨[], .emptyArray [], [], rfl, rfcSpace_nil, rfcSpace_nil, rfcSpace_nil⟩
  inRange := trivial

/-- An empty array is refused where its bracket closes. -/
theorem emptyArrayText_rejected : emptyArrayText.document.text = text "[]" ∧ ¬ Accepted emptyArrayText.document.text ∧
    fromString emptyArrayText.document.text = .error (.parsingError (text "array element expected") 1 2) := by
  have rejected : fromString emptyArrayText.document.text =
      .error (.parsingError (text "array element expected") 1 2) := by
    rfl
  refine ⟨rfl, ?_, rejected⟩
  rintro ⟨value, accepted⟩
  rw [rejected] at accepted
  cases accepted

end SimpleNFast.Json
