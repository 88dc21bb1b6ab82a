import SimpleNFast.Proof.Json.Completeness
import SimpleNFast.Proof.Json.Termination

set_option maxRecDepth 100000

namespace SimpleNFast.Json

/-- A text that does not begin with an accepted character. -/
def Free (accepts : UInt8 → Bool) (string : Text) : Prop := ∀ char, string.head? = some char → accepts char = false

theorem Free.cons {accepts : UInt8 → Bool} {char : UInt8} (other : accepts char = false) (rest : Text) :
    Free accepts (char :: rest) := by
  intro first isFirst
  cases isFirst
  exact other

/-- What is free behind some characters or none, of which the first one is not accepted. -/
theorem Free.append {accepts : UInt8 → Bool} {before rest : Text} (others : ∀ char ∈ before, accepts char = false)
    (free : Free accepts rest) : Free accepts (before ++ rest) := by
  cases before with
  | nil => exact free
  | cons char before => exact Free.cons (others char List.mem_cons_self) _

/-- Accepted characters in front of other ones are determined by the text. -/
theorem span_unique {accepts : UInt8 → Bool} {taken taken' rest rest' : Text}
    (all : ∀ char ∈ taken, accepts char = true) (all' : ∀ char ∈ taken', accepts char = true)
    (free : Free accepts rest) (free' : Free accepts rest') (same : taken ++ rest = taken' ++ rest') :
    taken = taken' ∧ rest = rest' := by
  have first : taken = taken' := by
    rw [← takeWhile_stop all free, same, takeWhile_stop all' free']
  refine ⟨first, ?_⟩
  rw [first] at same
  exact List.append_cancel_left same

/-- What comes after a number does not belong to it. -/
def Apart (rest : Text) : Prop := ∀ char, rest.head? = some char → Stops char

theorem Apart.free {accepts : UInt8 → Bool} {rest : Text} (apart : Apart rest)
    (others : ∀ char, Stops char → accepts char = false) : Free accepts rest :=
  fun char isHead => others char (apart char isHead)

theorem Follows.apart {rest : Text} (follows : Follows rest) : Apart rest := by
  obtain ⟨char, tail, rfl, follow⟩ := follows
  intro first isFirst
  cases isFirst
  exact Follows.stops follow

namespace Exponent

def isLetter (char : UInt8) : Bool := char == byte 'e' || char == byte 'E'

def isSign (char : UInt8) : Bool := char == byte '+' || char == byte '-'

theorem isLetter_letter (exponent : Exponent) : isLetter exponent.letter = true := by
  obtain same | same := exponent.letterForm
  · rw [same]
    rfl
  · rw [same]
    rfl

theorem isSign_sign (exponent : Exponent) : ∀ char ∈ exponent.sign, isSign char = true := by
  obtain none | plus | minus := exponent.signForm
  · rw [none]
    simp
  · rw [plus]
    exact List.forall_mem_singleton.2 (by decide)
  · rw [minus]
    exact List.forall_mem_singleton.2 (by decide)

theorem isSign_digit {char : UInt8} (isDigit : digit char = true) : isSign char = false := by
  revert char
  apply octet_forall
  decide

theorem free_digits (exponent : Exponent) (rest : Text) : Free isSign (exponent.digits ++ rest) := by
  obtain ⟨first, digits, split⟩ := List.exists_cons_of_ne_nil exponent.digitsForm.1
  rw [split]
  exact Free.cons (isSign_digit (exponent.digitsForm.2 first (by rw [split]; simp))) _

end Exponent

theorem exponentText_some (exponent : Exponent) (rest : Text) :
    exponentText (some exponent) ++ rest = exponent.letter :: (exponent.sign ++ (exponent.digits ++ rest)) := by
  simp [exponentText]

/-- The exponent and what comes after it are determined by the text. -/
theorem exponentText_unique {exponent exponent' : Option Exponent} {rest rest' : Text} (apart : Apart rest)
    (apart' : Apart rest') (same : exponentText exponent ++ rest = exponentText exponent' ++ rest') :
    exponent = exponent' ∧ rest = rest' := by
  have letter : ∀ char, Stops char → Exponent.isLetter char = false := by
    intro char ⟨_, _, lower, upper⟩
    simp [Exponent.isLetter, lower, upper]
  match exponent, exponent' with
  | none, none => exact ⟨rfl, same⟩
  | none, some exponent' =>
      rw [exponentText_some] at same
      have free := (apart.free letter) exponent'.letter (by change rest = _ at same; rw [same]; rfl)
      rw [exponent'.isLetter_letter] at free
      cases free
  | some exponent, none =>
      rw [exponentText_some] at same
      have free := (apart'.free letter) exponent.letter (by change _ = rest' at same; rw [← same]; rfl)
      rw [exponent.isLetter_letter] at free
      cases free
  | some exponent, some exponent' =>
      rw [exponentText_some, exponentText_some] at same
      injection same with sameLetter same
      obtain ⟨sameSign, same⟩ := span_unique exponent.isSign_sign exponent'.isSign_sign (exponent.free_digits _)
        (exponent'.free_digits _) same
      obtain ⟨sameDigits, same⟩ := span_unique exponent.digitsForm.2 exponent'.digitsForm.2
        (apart.free fun _ stops => stops.1) (apart'.free fun _ stops => stops.1) same
      refine ⟨?_, same⟩
      cases exponent
      cases exponent'
      simp_all

/-- A letter of an exponent or what comes after a number is at the beginning. -/
theorem exponentText_free {accepts : UInt8 → Bool} {exponent : Option Exponent} {rest : Text} (apart : Apart rest)
    (letters : accepts (byte 'e') = false ∧ accepts (byte 'E') = false)
    (others : ∀ char, Stops char → accepts char = false) : Free accepts (exponentText exponent ++ rest) := by
  match exponent with
  | none => exact apart.free others
  | some exponent =>
      rw [exponentText_some]
      apply Free.cons
      obtain same | same := exponent.letterForm
      · rw [same]
        exact letters.1
      · rw [same]
        exact letters.2

namespace Number

/-- The point of a number with a fraction. -/
def dot (numeral : Number) : Text := if numeral.fraction = [] then [] else [byte '.']

theorem text_append (numeral : Number) (rest : Text) : numeral.text ++ rest =
    numeral.sign ++ (numeral.whole ++ (numeral.dot ++ (numeral.fraction ++ (exponentText numeral.exponent ++ rest)))) := by
  rw [text_eq, point, dot]
  split
  · rename_i empty
    simp [empty]
  · simp

section Parts

variable (numeral : Number)

theorem sign_minus : ∀ char ∈ numeral.sign, (char == byte '-') = true := by
  rw [sign]
  split
  · exact List.forall_mem_singleton.2 (by decide)
  · simp

theorem free_whole (rest : Text) : Free (· == byte '-') (numeral.whole ++ rest) := by
  have all := numeral.whole_digits
  obtain zero | ⟨first, digits, split, -⟩ := numeral.wholeForm
  · rw [zero]
    exact Free.cons rfl _
  · rw [split] at all ⊢
    exact Free.cons (by simpa using digit_ne_minus (all first (by simp))) _

theorem dot_point : ∀ char ∈ numeral.dot, (char == byte '.') = true := by
  rw [dot]
  split
  · simp
  · exact List.forall_mem_singleton.2 (by decide)

variable {rest : Text} (apart : Apart rest)
include apart

theorem free_exponent : Free digit (exponentText numeral.exponent ++ rest) :=
  exponentText_free apart (by decide) fun _ stops => stops.1

theorem free_dot : Free digit (numeral.dot ++ (numeral.fraction ++ (exponentText numeral.exponent ++ rest))) := by
  rw [dot]
  split
  · rename_i empty
    rw [empty]
    exact numeral.free_exponent apart
  · exact Free.cons rfl _

theorem free_fraction : Free (· == byte '.') (numeral.fraction ++ (exponentText numeral.exponent ++ rest)) := by
  have noPoint : ∀ {char}, digit char = true → (char == byte '.') = false := by
    apply octet_forall
    decide
  refine Free.append (fun char member => noPoint (numeral.fractionForm char member)) ?_
  exact exponentText_free apart (by decide) fun _ stops => by simpa using stops.2.1

end Parts

/-- A number and what comes after it are determined by the text. -/
theorem unique {numeral numeral' : Number} {rest rest' : Text} (apart : Apart rest) (apart' : Apart rest')
    (same : numeral.text ++ rest = numeral'.text ++ rest') : numeral = numeral' ∧ rest = rest' := by
  rw [text_append, text_append] at same
  obtain ⟨sameSign, same⟩ := span_unique numeral.sign_minus numeral'.sign_minus (numeral.free_whole _)
    (numeral'.free_whole _) same
  obtain ⟨sameWhole, same⟩ := span_unique numeral.whole_digits numeral'.whole_digits (numeral.free_dot apart)
    (numeral'.free_dot apart') same
  obtain ⟨-, same⟩ := span_unique numeral.dot_point numeral'.dot_point (numeral.free_fraction apart)
    (numeral'.free_fraction apart') same
  obtain ⟨sameFraction, same⟩ := span_unique numeral.fractionForm numeral'.fractionForm
    (numeral.free_exponent apart) (numeral'.free_exponent apart') same
  obtain ⟨sameExponent, same⟩ := exponentText_unique apart apart' same
  have sameNegative : numeral.negative = numeral'.negative := by
    rw [sign, sign] at sameSign
    cases first : numeral.negative <;> cases second : numeral'.negative <;> simp_all
  refine ⟨?_, same⟩
  cases numeral
  cases numeral'
  simp_all

end Number

/-- What is left of a literal of the grammar and what comes after it. -/
def LiteralTail (rest string : Text) : Prop :=
  ∃ items : List Item, (∀ item ∈ items, item.IsRfc) ∧ string = items.flatMap Item.text ++ byte '"' :: rest

namespace LiteralTail

variable {rest string : Text}

theorem quote (tail : LiteralTail rest (byte '"' :: string)) : string = rest := by
  obtain ⟨items, areRfc, same⟩ := tail
  match items with
  | [] =>
      injection same
  | .char octet :: items =>
      injection same with first
      exact absurd first.symm (areRfc (.char octet) (by simp)).2.1
  | .escape letter :: items =>
      injection same with first
      cases first
  | .unicode word :: items =>
      injection same with first
      cases first
  | .pair _ _ _ _ :: items => exact absurd (areRfc _ List.mem_cons_self) id

/-- A character that begins no escape is an item. -/
theorem plain {char : UInt8} (backslash : char ≠ byte '\\') (noQuote : char ≠ byte '"')
    (tail : LiteralTail rest (char :: string)) : LiteralTail rest string := by
  obtain ⟨items, areRfc, same⟩ := tail
  match items with
  | [] =>
      injection same with first
      exact absurd first noQuote
  | .char octet :: items =>
      injection same with first same
      exact ⟨items, fun item member => areRfc item (List.mem_cons_of_mem _ member), same⟩
  | .escape letter :: items =>
      injection same with first
      exact absurd first backslash
  | .unicode word :: items =>
      injection same with first
      exact absurd first backslash
  | .pair _ _ _ _ :: items => exact absurd (areRfc _ List.mem_cons_self) id

/-- An escape with a letter is an item. -/
theorem escape {letter : UInt8} (other : letter ≠ byte 'u')
    (tail : LiteralTail rest (byte '\\' :: letter :: string)) : LiteralTail rest string := by
  obtain ⟨items, areRfc, same⟩ := tail
  match items with
  | [] =>
      injection same with first
      cases first
  | .char octet :: items =>
      injection same with first
      exact absurd first.symm (areRfc (.char octet) (by simp)).2.2
  | .escape letter :: items =>
      injection same with first same
      injection same with second same
      exact ⟨items, fun item member => areRfc item (List.mem_cons_of_mem _ member), same⟩
  | .unicode word :: items =>
      injection same with first same
      injection same with second same
      exact absurd second other
  | .pair _ _ _ _ :: items => exact absurd (areRfc _ List.mem_cons_self) id

/-- An escape with a word is an item. -/
theorem unicode (tail : LiteralTail rest (byte '\\' :: byte 'u' :: string)) :
    ∃ word : HexWord, ∃ later, string = word.digits ++ later ∧ LiteralTail rest later := by
  obtain ⟨items, areRfc, same⟩ := tail
  match items with
  | [] =>
      injection same with first
      cases first
  | .char octet :: items =>
      injection same with first
      exact absurd first.symm (areRfc (.char octet) (by simp)).2.2
  | .escape letter :: items =>
      injection same with first same
      injection same with second same
      have isLetter : (simpleEscape letter).isSome = true := areRfc (.escape letter) List.mem_cons_self
      exact absurd second.symm (simpleEscape_ne_u isLetter)
  | .unicode word :: items =>
      injection same with first same
      injection same with second same
      refine ⟨word, items.flatMap Item.text ++ byte '"' :: rest, same.trans (List.append_assoc _ _ _), items, ?_, rfl⟩
      exact fun item member => areRfc item (List.mem_cons_of_mem _ member)
  | .pair _ _ _ _ :: items => exact absurd (areRfc _ List.mem_cons_self) id

theorem word {word : HexWord} (tail : LiteralTail rest (byte '\\' :: byte 'u' :: (word.digits ++ string))) :
    LiteralTail rest string := by
  obtain ⟨other, later, same, tail⟩ := tail.unicode
  have last := (List.append_inj same (by rw [word.four, other.four])).2
  rwa [last]

theorem hex {digits : Text} (valid : ∀ digit ∈ digits, (hexValue digit).isSome = true)
    (tail : LiteralTail rest (digits ++ string)) : LiteralTail rest string := by
  have other : ∀ {digit}, (hexValue digit).isSome = true → digit ≠ byte '\\' ∧ digit ≠ byte '"' := by
    apply octet_forall
    decide
  induction digits with
  | nil => exact tail
  | cons digit digits inductionHypothesis =>
      obtain ⟨isHex, areHex⟩ := List.forall_mem_cons.mp valid
      exact inductionHypothesis areHex (plain (other isHex).1 (other isHex).2 tail)

theorem mem_quote (tail : LiteralTail rest string) : byte '"' ∈ string := by
  obtain ⟨items, -, rfl⟩ := tail
  simp

/-- An item that the lexer reads does not cross the closing quote. -/
theorem item {item : Item} (isRead : item.IsRead) (apart : rest.head? ≠ some (byte 'u'))
    (tail : LiteralTail rest (item.text ++ string)) : LiteralTail rest string := by
  cases item with
  | char octet => exact plain isRead.2 isRead.1 tail
  | escape letter => exact escape (simpleEscape_ne_u isRead) tail
  | unicode first => exact word tail
  | pair first before letter second =>
      obtain ⟨-, began, -⟩ := isRead
      have split : (Item.pair first before letter second).text ++ string =
          byte '\\' :: byte 'u' :: (first.digits ++ (before :: letter :: (second.digits ++ string))) := by
        simp [Item.text]
      rw [split] at tail
      have tail := word tail
      by_cases backslash : before = byte '\\'
      · rw [backslash] at tail
        by_cases isWord : letter = byte 'u'
        · rw [isWord] at tail
          exact word tail
        · exact hex second.valid (escape isWord tail)
      · have isWord : letter = byte 'u' := began.resolve_left backslash
        rw [isWord] at tail
        by_cases isQuote : before = byte '"'
        · rw [isQuote] at tail
          rw [← tail.quote] at apart
          exact absurd rfl apart
        · exact hex second.valid (plain (by decide) (by decide) (plain backslash isQuote tail))

theorem items {items : List Item} (areRead : ∀ item ∈ items, item.IsRead) (apart : rest.head? ≠ some (byte 'u'))
    (tail : LiteralTail rest (items.flatMap Item.text ++ string)) : LiteralTail rest string := by
  induction items with
  | nil => exact tail
  | cons first others inductionHypothesis =>
      obtain ⟨isRead, areRead⟩ := List.forall_mem_cons.mp areRead
      rw [List.flatMap_cons, List.append_assoc] at tail
      exact inductionHypothesis areRead (tail.item isRead apart)

end LiteralTail

/-- The lexer ends a literal where the grammar does. -/
theorem quoted_unique {body body' rest rest' : Text} (isRfc : bodyOf Item.IsRfc body)
    (isRead : bodyOf Item.IsRead body') (apart : rest.head? ≠ some (byte 'u'))
    (same : Lexeme.quoted body ++ rest = Lexeme.quoted body' ++ rest') : body = body' ∧ rest = rest' := by
  obtain ⟨items, areRfc, rfl⟩ := isRfc
  obtain ⟨items', areRead, rfl⟩ := isRead
  simp only [Lexeme.quoted, List.cons_append, List.append_assoc, List.nil_append] at same
  injection same with _ same
  have tail : LiteralTail rest (items'.flatMap Item.text ++ byte '"' :: rest') := ⟨items, areRfc, same.symm⟩
  have last := (tail.items areRead apart).quote
  rw [last] at same
  exact ⟨List.append_cancel_right same, last.symm⟩

namespace LiteralTail

variable {rest string : Text}

/-- The decoder of a word inside a literal does not come to the end of the input. -/
theorem word_ne_failure (nonempty : rest ≠ []) (apart : rest.head? ≠ some (byte 'u')) (tail : LiteralTail rest string) :
    utf16DecodeSeq string ≠ (.error .failure, []) := by
  match string with
  | [] => cases tail.mem_quote
  | [char] =>
      obtain ⟨items, -, same⟩ := tail
      have length := congrArg List.length same
      have positive := List.length_pos_iff.mpr nonempty
      simp only [List.length_append, List.length_cons, List.length_nil] at length
      omega
  | before :: letter :: string =>
      rw [utf16DecodeSeq_eq]
      split
      · intro same
        cases same
      · rename_i began
        have quoted : byte '"' ∈ string := by
          by_cases backslash : before = byte '\\'
          · rw [backslash] at tail
            by_cases isWord : letter = byte 'u'
            · rw [isWord] at tail
              obtain ⟨word, later, rfl, inner⟩ := tail.unicode
              exact List.mem_append_right _ inner.mem_quote
            · exact (escape isWord tail).mem_quote
          · have isWord : letter = byte 'u' := by
              by_contra other
              exact began ⟨backslash, other⟩
            rw [isWord] at tail
            by_cases isQuote : before = byte '"'
            · rw [isQuote] at tail
              rw [← tail.quote] at apart
              exact absurd rfl apart
            · exact (plain (by decide) (by decide) (plain backslash isQuote tail)).mem_quote
        obtain ⟨digits, later, rfl, four, valid⟩ | ⟨_, _, later, _, _, _, ended⟩ | ⟨_, valid, _⟩ :=
          utf16Digits_cases 4 0 string
        · rw [HexWord.read ⟨digits, four, valid⟩]
          intro same
          cases same
        · rw [ended]
          intro same
          cases same
        · have isHex := valid _ quoted
          cases isHex

/-- The decoder of an escape inside a literal does not come to the end of the input. -/
theorem decode_ne_failure (nonempty : rest ≠ []) (apart : rest.head? ≠ some (byte 'u'))
    (tail : LiteralTail rest (byte '\\' :: byte 'u' :: string)) :
    (utf16Decode (byte '\\' :: byte 'u' :: string)).1 ≠ .error .failure := by
  obtain ⟨word, later, rfl, inner⟩ := tail.unicode
  have first := @utf16DecodeSeq_word (byte '\\') (byte 'u') (.inl rfl) word later
  by_cases high : word.isHigh
  · rw [utf16Decode_high first high]
    obtain ⟨mark, sign, second, last, rfl, marked⟩ | ⟨last, none⟩ | ended := utf16DecodeSeq_cases later
    · rw [utf16DecodeSeq_word marked]
      dsimp only
      split
      · exact emit_ne_failure _ _
      · simp
    · rw [none]
      simp
    · exact absurd ended (word_ne_failure nonempty apart inner)
  · rw [utf16Decode_alone first high]
    exact emit_ne_failure _ _

/-- A first pass over a literal does not come to the end of the input. -/
theorem pass_ne_ended (nonempty : rest ≠ []) (apart : rest.head? ≠ some (byte 'u')) (tail : LiteralTail rest string) :
    outcome (Lexer.getStringLoop 1) string ≠ .ended := by
  match string with
  | [] => cases tail.mem_quote
  | char :: string =>
      by_cases backslash : char = byte '\\'
      · subst backslash
        match string with
        | [] =>
            have quoted := tail.mem_quote
            revert quoted
            decide
        | letter :: string =>
            by_cases isWord : letter = byte 'u'
            · subst isWord
              have decoded := decode_ne_failure nonempty apart tail
              match ran : utf16Decode (byte '\\' :: byte 'u' :: string) with
              | (.ok bytes, later) =>
                  rw [outcome_getStringLoop_word, outcome_ofRead ran]
                  intro same
                  cases same
              | (.error fault, later) =>
                  rw [outcome_getStringLoop_word, outcome_ofRead ran]
                  rw [ran] at decoded
                  intro same
                  cases fault with
                  | failure => exact decoded rfl
                  | _ => cases same
            · rw [outcome_getStringLoop_letter 0 string isWord]
              match simpleEscape letter with
              | some escaped =>
                  intro same
                  cases same
              | none =>
                  intro same
                  cases same
      · by_cases isQuote : char = byte '"'
        · rw [isQuote, outcome_getStringLoop_quote]
          intro same
          cases same
        · rw [outcome_getStringLoop_plain 0 string backslash isQuote]
          intro same
          cases same

/-- The loop over a literal of the grammar does not come to the end of the input. -/
theorem loop_ne_ended (nonempty : rest ≠ []) (apart : rest.head? ≠ some (byte 'u')) (tail : LiteralTail rest string)
    (fuel : Nat) : outcome (Lexer.getStringLoop fuel) string ≠ .ended := by
  induction fuel generalizing string with
  | zero =>
      intro same
      cases same
  | succ fuel inductionHypothesis =>
      obtain ⟨item, last, isRead, rfl⟩ | ⟨last, rfl⟩ | refused | ended := getStringLoop_cases string
      · have others := inductionHypothesis (tail.item isRead apart)
        rw [outcome_getStringLoop_item isRead]
        intro same
        match ran : outcome (Lexer.getStringLoop fuel) last with
        | .ended => exact others ran
        | .read _ _ =>
            rw [ran] at same
            cases same
        | .refused =>
            rw [ran] at same
            cases same
        | .running =>
            rw [ran] at same
            cases same
      · rw [outcome_getStringLoop_quote]
        intro same
        cases same
      · rw [refused]
        intro same
        cases same
      · exact absurd (ended 0) (pass_ne_ended nonempty apart tail)

end LiteralTail

/-- The lexer does not take a literal of the grammar for the end of the input. -/
theorem get_quoted_ne_eof {before body rest : Text} (spaces : Grammar.read.space before)
    (isRfc : bodyOf Item.IsRfc body) (nonempty : rest ≠ []) (apart : rest.head? ≠ some (byte 'u')) (last : Text) :
    outcome Lexer.get (before ++ (Lexeme.quoted body ++ rest)) ≠ .read .eof last := by
  obtain ⟨items, areRfc, rfl⟩ := isRfc
  have tail : LiteralTail rest (items.flatMap Item.text ++ byte '"' :: rest) := ⟨items, areRfc, rfl⟩
  have loop := tail.loop_ne_ended nonempty apart ((items.flatMap Item.text ++ byte '"' :: rest).length + 1)
  rw [Lexeme.quoted, List.cons_append, List.cons_append, outcome_get_skip spaces (by decide), outcome_getToken_string,
    List.append_assoc, List.singleton_append, getString_eq, outcome_bind_read (outcome_fuel _) (Blind.stringTail _),
    stringTail, outcome_bind Blind.stringToken]
  cases ran : outcome (Lexer.getStringLoop ((items.flatMap Item.text ++ byte '"' :: rest).length + 1))
      (items.flatMap Item.text ++ byte '"' :: rest) with
  | read content later =>
      rw [Outcome.bind, outcome_stringToken]
      intro same
      cases converted : (stringUnescape content).toOption with
      | none =>
          rw [converted] at same
          cases same
      | some string =>
          rw [converted] at same
          cases same
  | ended => exact absurd ran loop
  | refused =>
      intro same
      cases same
  | running =>
      intro same
      cases same

end SimpleNFast.Json
