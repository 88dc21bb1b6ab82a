import SimpleNFast.Proof.Json.Escaping
import SimpleNFast.Proof.Json.Tokens

set_option maxRecDepth 100000

namespace SimpleNFast.Json

/-- A separator or a closing bracket comes next, and it is not the last character. -/
def Ahead (rest : Text) : Prop := Follows rest ∧ 2 ≤ rest.length

/-- A printed value is one token, or it is refused, whatever comes after it. -/
def Prints (string : Text) (token : Option Token) : Prop :=
  ∀ rest, Ahead rest → outcome Lexer.get (string ++ rest) = Outcome.ofOption token rest

theorem prints_number (numeral : Number) : Prints numeral.text numeral.token := by
  intro rest ahead
  have within : (Lexeme.number numeral).Within .read := trivial
  exact outcome_get_lexeme space_nil within (ahead.1.endsBefore _)

theorem digit_of_isDigit {char : UInt8} (isDigit : isDigit (toInt char) = true) : digit char = true := by
  revert char
  apply octet_forall
  decide

theorem digit_digits (value : Nat) : ∀ char ∈ digits 10 value, digit char = true :=
  fun char member => digit_of_isDigit (isDigit_digits value char member)

/-- A number is printed without leading zeros. -/
theorem digits_form (value : Nat) :
    digits 10 value = [byte '0'] ∨
      ∃ first rest, digits 10 value = first :: rest ∧ digit1_9 first = true ∧ ∀ char ∈ rest, digit char = true := by
  have all := digit_digits value
  have positive {value : Nat} (small : value < 10) (nonzero : value ≠ 0) :
      digit1_9 (byte (Nat.digitChar value)) = true := by
    revert value
    apply digit_forall
    decide
  induction value using Nat.strong_induction_on with
  | _ value inductionHypothesis =>
      by_cases small : value < 10
      · by_cases zero : value = 0
        · exact .inl (by rw [zero]; rfl)
        · exact .inr ⟨byte (Nat.digitChar value), [], digits_small small, positive small zero, by simp⟩
      · right
        obtain zero | ⟨first, rest, split, nonzero, -⟩ :=
          inductionHypothesis (value / 10) (by omega) (digit_digits _)
        · have same := number_digits (value / 10)
          rw [zero] at same
          have none : number 10 [byte '0'] = 0 := rfl
          omega
        · rw [digits_step (by omega), split] at all ⊢
          exact ⟨first, _, rfl, nonzero, fun char member => all char (List.mem_cons_of_mem _ member)⟩

/-- The digits of a fraction that are kept. -/
theorem fraction_eq {string : Text} (all : ∀ char ∈ string, digit char = true) :
    ∃ kept : Text, (∀ char ∈ kept, digit char = true) ∧
      Double.fraction string = if kept = [] then [] else byte '.' :: kept := by
  refine ⟨(string.reverse.dropWhile (· == byte '0')).reverse, ?_, ?_⟩
  · intro char member
    exact all char (List.mem_reverse.mp ((List.dropWhile_sublist _).subset (List.mem_reverse.mp member)))
  · rw [Double.fraction]
    simp only [List.isEmpty_iff]

/-- A whole number, a fraction without the zeros at its end and an exponent are a number of the grammar. -/
theorem number_parts (negative : Bool) {whole fraction : Text}
    (wholeForm : whole = [byte '0'] ∨
      ∃ first rest, whole = first :: rest ∧ digit1_9 first = true ∧ ∀ char ∈ rest, digit char = true)
    (all : ∀ char ∈ fraction, digit char = true) (exponent : Option Exponent) :
    ∃ numeral : Number, numeral.text =
      (if negative then [byte '-'] else []) ++ (whole ++ Double.fraction fraction ++ exponentText exponent) := by
  obtain ⟨kept, digits, isFraction⟩ := fraction_eq all
  refine ⟨⟨negative, whole, kept, exponent, wholeForm, digits⟩, ?_⟩
  rw [Number.text_eq, isFraction, Number.sign, Number.point]
  simp only [List.append_assoc]

theorem digit_zeros (count : Nat) : ∀ char ∈ List.replicate count (byte '0'), digit char = true := by
  intro char member
  rw [List.eq_of_mem_replicate member]
  decide

/-- The digits before a place are a whole number, because a number has no leading zero. -/
theorem digits_take (scaled count : Nat) :
    (digits 10 scaled).take (count + 1) = [byte '0'] ∨
      ∃ first rest, (digits 10 scaled).take (count + 1) = first :: rest ∧ digit1_9 first = true ∧
        ∀ char ∈ rest, digit char = true := by
  obtain zero | ⟨first, rest, split, positive, all⟩ := digits_form scaled
  · exact .inl (by rw [zero, List.take_succ_cons, List.take_nil])
  · refine .inr ⟨first, rest.take count, by rw [split, List.take_succ_cons], positive, ?_⟩
    exact fun char member => all char (List.mem_of_mem_take member)

/-- Every finite magnitude is printed as a number of the grammar. -/
theorem number_magnitudeStr (negative : Bool) (value : ℚ) :
    ∃ numeral : Number, numeral.text = (if negative then [byte '-'] else []) ++ Double.magnitudeStr value := by
  rw [Double.magnitudeStr]
  by_cases zero : value = 0
  · obtain ⟨numeral, isText⟩ := number_parts negative (.inl rfl) (fun _ member => absurd member List.not_mem_nil) none
    exact ⟨numeral, by rw [isText, if_pos zero]; rfl⟩
  rw [if_neg zero]
  obtain ⟨scaled, exponent⟩ := Double.significant value
  have tail (count : Nat) : ∀ char ∈ (digits 10 scaled).drop count, digit char = true :=
    fun char member => digit_digits scaled char (List.mem_of_mem_drop member)
  dsimp only
  by_cases scientific : exponent < -4 ∨ 6 ≤ exponent
  · have digitsForm : List.replicate (2 - (digits 10 exponent.natAbs).length) (byte '0') ++ digits 10 exponent.natAbs ≠ [] ∧
        ∀ char ∈ List.replicate (2 - (digits 10 exponent.natAbs).length) (byte '0') ++ digits 10 exponent.natAbs,
          digit char = true := by
      refine ⟨fun empty => digits_ne_nil _ (List.append_eq_nil_iff.mp empty).2, fun char member => ?_⟩
      exact (List.mem_append.mp member).elim (digit_zeros _ char) (digit_digits _ char)
    have signForm : [if exponent < 0 then byte '-' else byte '+'] = [] ∨
        [if exponent < 0 then byte '-' else byte '+'] = [byte '+'] ∨
        [if exponent < 0 then byte '-' else byte '+'] = [byte '-'] := by
      split
      · exact .inr (.inr rfl)
      · exact .inr (.inl rfl)
    obtain ⟨numeral, isText⟩ := number_parts negative (digits_take scaled 0) (tail 1)
      (some ⟨byte 'e', _, _, .inl rfl, signForm, digitsForm⟩)
    refine ⟨numeral, ?_⟩
    rw [isText, if_pos scientific, exponentText]
    simp only [List.append_assoc, List.cons_append, List.nil_append]
  by_cases small : exponent < 0
  · have all : ∀ char ∈ List.replicate (exponent.natAbs - 1) (byte '0') ++ digits 10 scaled, digit char = true :=
      fun char member => (List.mem_append.mp member).elim (digit_zeros _ char) (digit_digits _ char)
    obtain ⟨numeral, isText⟩ := number_parts negative (.inl rfl) all none
    refine ⟨numeral, ?_⟩
    rw [isText, if_neg scientific, if_pos small, exponentText, List.append_nil]
    rfl
  · obtain ⟨numeral, isText⟩ := number_parts negative (digits_take scaled exponent.toNat) (tail (exponent.toNat + 1)) none
    refine ⟨numeral, ?_⟩
    rw [isText, if_neg scientific, if_neg small, exponentText, List.append_nil]

/-- The numeral of an integer. -/
def Number.ofInt (value : Int) : Number where
  negative := decide (value < 0)
  whole := digits 10 value.natAbs
  fraction := []
  exponent := none
  wholeForm := digits_form value.natAbs
  fractionForm := fun _ member => absurd member List.not_mem_nil

theorem Number.text_ofInt (value : Int) : (Number.ofInt value).text = decimal value := by
  rw [Number.text_eq, Number.sign, decimal]
  change (if decide (value < 0) = true then [byte '-'] else []) ++ digits 10 value.natAbs ++ [] ++ [] = _
  rw [List.append_nil, List.append_nil]
  by_cases negative : value < 0
  · rw [if_pos negative, if_pos (decide_eq_true negative)]
    rfl
  · rw [if_neg negative, if_neg (by simpa using negative)]
    rfl

/-- A character that begins no token is refused. -/
theorem refused_letter (rest : Text) : outcome Lexer.get (byte 'i' :: rest) = .refused :=
  (outcome_get_skip space_nil (by decide) rest).trans rfl

/-- After a minus there has to be a digit. -/
theorem refused_minus {char : UInt8} (other : digit char = false) (rest : Text) :
    outcome Lexer.get (byte '-' :: char :: rest) = .refused := by
  have refused : outcome (unsignedNumber [byte '-'] char) rest = .refused := by
    have zero : char ≠ byte '0' := by
      rintro rfl
      cases other
    have positive : digit1_9 char = false := by
      rw [digit, Bool.or_eq_false_iff] at other
      exact other.2
    refine outcome_bind_refused ?_ _
    rw [Lexer.getFirst, if_neg zero, positive]
    rfl
  have minus : outcome Lexer.getNumber (byte '-' :: char :: rest) = .refused := by
    rw [getNumber_eq, outcome_bind_read (outcome_getc_cons _ _) (Blind.signedStep _), signedStep, if_pos rfl,
      outcome_bind_read (outcome_getc_cons _ _) (Blind.unsignedNumber _ _), refused]
  refine (outcome_get_skip space_nil (by decide) (char :: rest)).trans ?_
  rw [outcome_getToken_number (.inl rfl), minus]
  rfl

/-- A longer input that does not begin with the word is refused. -/
theorem getWord_refused {word : String} (token : Token) {string : Text} (long : word.length < string.length)
    (other : ¬ text word <+: string) : outcome (Lexer.getWord word token) string = .refused := by
  have buffer : (string.takeWhile (· != byte '\n')).take word.length <+: string :=
    (List.take_prefix _ _).trans (List.takeWhile_prefix _)
  have short := List.length_take_le word.length (string.takeWhile (· != byte '\n'))
  have ran : Lexer.getBuffer word.length string = (.ok ((string.takeWhile (· != byte '\n')).take word.length),
      string.drop ((string.takeWhile (· != byte '\n')).take word.length).length) := by
    rw [Lexer.getBuffer, if_neg (by omega)]
  have read := outcome_ofRead ran
  rw [Lexer.getWord, outcome_bind_read read]
  · rw [if_pos fun same => other (by rwa [same] at buffer)]
    rfl
  · split
    · exact Blind.parsingError _
    · exact Blind.pure _

theorem refused_nan {rest : Text} (long : 2 ≤ rest.length) : outcome Lexer.get (text "nan" ++ rest) = .refused := by
  have other : ¬ text "null" <+: text "nan" ++ rest := by
    rintro ⟨tail, same⟩
    injection same with _ same
    injection same with same _
    exact absurd same (by decide)
  have word : outcome Lexer.getNull (text "nan" ++ rest) = .refused := by
    refine getWord_refused .null ?_ other
    rw [List.length_append]
    exact Nat.add_le_add_left long 3
  refine (outcome_get_skip space_nil (show space (byte 'n') = false by decide) (text "an" ++ rest)).trans ?_
  rw [outcome_getToken_null, ← List.cons_append]
  exact congrArg Outcome.orEof word

/-- A real number is printed as a number of the grammar or as a word that is refused. -/
theorem prints_real (value : Double) : ∃ token, Prints value.str token := by
  obtain ⟨negative, magnitude⟩ := value
  have refused {char : UInt8} {word : Text} (other : digit char = false)
      (positive : ∀ rest, Ahead rest → outcome Lexer.get (char :: word ++ rest) = .refused) :
      Prints ((if negative then [byte '-'] else []) ++ char :: word) none := by
    intro rest ahead
    cases negative with
    | true => exact refused_minus other (word ++ rest)
    | false => exact positive rest ahead
  cases magnitude with
  | finite magnitude =>
      obtain ⟨numeral, isText⟩ := number_magnitudeStr negative magnitude
      refine ⟨numeral.token, ?_⟩
      have printed := prints_number numeral
      rw [isText] at printed
      exact printed
  | infinite => exact ⟨none, refused (show digit (byte 'i') = false by decide) fun rest _ => refused_letter _⟩
  | notANumber => exact ⟨none, refused (show digit (byte 'n') = false by decide) fun rest ahead => refused_nan ahead.2⟩

theorem prints_integer (value : Int64) : ∃ token, Prints (decimal value.toInt) token := by
  rw [← Number.text_ofInt]
  exact ⟨_, prints_number _⟩

theorem prints_null : Prints (text "null") (some .null) := by
  intro rest ahead
  have within : Lexeme.null.Within .read := trivial
  exact outcome_get_lexeme space_nil within (ahead.1.endsBefore _)

theorem prints_boolean (value : Bool) : ∃ token, Prints (if value then text "true" else text "false") token := by
  cases value with
  | true =>
      have within : Lexeme.true.Within .read := trivial
      exact ⟨some .true, fun rest ahead => outcome_get_lexeme space_nil within (ahead.1.endsBefore _)⟩
  | false =>
      have within : Lexeme.false.Within .read := trivial
      exact ⟨some .false, fun rest ahead => outcome_get_lexeme space_nil within (ahead.1.endsBefore _)⟩

namespace Tidy

theorem of_plain {char : UInt8} {rest : Text} (tidy : Tidy (char :: rest)) (other : char ≠ byte '\\') : Tidy rest := by
  cases tidy with
  | plain _ _ _ _ rest => exact rest
  | escape _ _ _ => exact absurd rfl other

theorem of_escape {string : Text} (tidy : Tidy (byte '\\' :: string)) :
    ∃ letter rest, string = letter :: rest ∧ Tidy rest := by
  cases tidy with
  | plain _ _ _ other _ => exact absurd rfl other
  | @escape letter rest _ _ tidy => exact ⟨letter, rest, rfl, tidy⟩

theorem of_digits {front rest : Text} (all : ∀ digit ∈ front, (hexValue digit).isSome = true)
    (tidy : Tidy (front ++ rest)) : Tidy rest := by
  have other (digit : UInt8) : (hexValue digit).isSome = true → digit ≠ byte '\\' := by
    revert digit
    apply octet_forall
    decide
  induction front with
  | nil => exact tidy
  | cons digit front inductionHypothesis =>
      exact inductionHypothesis (fun other member => all other (List.mem_cons_of_mem _ member))
        (tidy.of_plain (other digit (all digit List.mem_cons_self)))

end Tidy

/-- A character that is no digit refuses the word that it stands in. -/
theorem utf16Digits_refused {digits : Text} {char : UInt8} {count : Nat} (short : digits.length < count)
    (all : ∀ digit ∈ digits, (hexValue digit).isSome = true) (noHex : hexValue char = none) (total : Nat)
    (rest : Text) : utf16Digits count total (digits ++ char :: rest) = (.ok none, rest) := by
  induction digits generalizing count total with
  | nil =>
      cases count with
      | zero => cases short
      | succ count =>
          rw [List.nil_append, utf16Digits, run_bind_ok (Read.get_cons _ _), noHex]
          rfl
  | cons digit digits inductionHypothesis =>
      cases count with
      | zero => cases short
      | succ count =>
          obtain ⟨value, isHex⟩ := Option.isSome_iff_exists.mp (all digit List.mem_cons_self)
          rw [List.cons_append, utf16Digits, run_bind_ok (Read.get_cons _ _), isHex]
          exact inductionHypothesis (Nat.lt_of_succ_lt_succ short)
            (fun other member => all other (List.mem_cons_of_mem _ member)) _

/-- A separator or a bracket is no letter of an escape. -/
theorem Ahead.head {rest : Text} (ahead : Ahead rest) : ∃ char tail, rest = char :: tail ∧ char ≠ byte 'u' := by
  obtain ⟨⟨char, tail, rfl, follow⟩, -⟩ := ahead
  have other : char = byte 'u' →
      ¬ (space char = true ∨ char = byte ',' ∨ char = byte ']' ∨ char = byte '\x7d') := by
    rintro rfl
    decide
  exact ⟨char, tail, rfl, fun same => other same follow⟩

/-- A word of an escape lies before the closing quote, or the quote or an earlier character refuses it. -/
theorem utf16DecodeSeq_tidy {body : Text} (tidy : Tidy body) :
    (∃ before letter word later, body = before :: letter :: (HexWord.digits word ++ later) ∧
      (before = byte '\\' ∨ letter = byte 'u') ∧ Tidy later) ∨
    ∀ rest, Ahead rest → ∃ last, utf16DecodeSeq (body ++ byte '"' :: rest) = (.ok none, last) := by
  match body with
  | [] =>
      refine .inr fun rest ahead => ?_
      obtain ⟨char, tail, rfl, other⟩ := ahead.head
      refine ⟨tail, ?_⟩
      rw [List.nil_append, utf16DecodeSeq_eq, if_pos ⟨by decide, other⟩]
  | [before] =>
      refine .inr fun rest _ => ⟨rest, ?_⟩
      have other : before ≠ byte '\\' := by
        rintro rfl
        obtain ⟨letter, tail, split, -⟩ := tidy.of_escape
        cases split
      rw [List.singleton_append, utf16DecodeSeq_eq, if_pos ⟨other, by decide⟩]
  | before :: letter :: tail =>
      by_cases wrong : before ≠ byte '\\' ∧ letter ≠ byte 'u'
      · refine .inr fun rest _ => ⟨tail ++ byte '"' :: rest, ?_⟩
        rw [List.cons_append, List.cons_append, utf16DecodeSeq_eq, if_pos wrong]
      have began : before = byte '\\' ∨ letter = byte 'u' := by tauto
      have tidyTail : Tidy tail := by
        by_cases backslash : before = byte '\\'
        · subst backslash
          obtain ⟨first, rest, split, tidyRest⟩ := tidy.of_escape
          cases split
          exact tidyRest
        · have isLetter := began.resolve_left backslash
          exact (tidy.of_plain backslash).of_plain (by rw [isLetter]; decide)
      have refused {digits : Text} {char : UInt8} {more : Text} (short : digits.length < 4)
          (all : ∀ digit ∈ digits, (hexValue digit).isSome = true) (noHex : hexValue char = none) :
          utf16DecodeSeq (before :: letter :: (digits ++ char :: more)) = (.ok none, more) := by
        rw [utf16DecodeSeq_eq, if_neg wrong, utf16Digits_refused short all noHex]
      obtain ⟨digits, later, rfl, four, all⟩ | ⟨digits, char, later, rfl, ⟨short, all⟩, noHex⟩ | ⟨short, all⟩ :=
        counted_cases (fun digit => (hexValue digit).isSome = true) 4 tail
      · exact .inl ⟨before, letter, ⟨digits, four, all⟩, later, rfl, began, tidyTail.of_digits all⟩
      · refine .inr fun rest _ => ⟨later ++ byte '"' :: rest, ?_⟩
        rw [List.cons_append, List.cons_append, List.append_assoc, List.cons_append,
          refused short all (Option.not_isSome_iff_eq_none.mp noHex)]
      · refine .inr fun rest _ => ⟨rest, ?_⟩
        rw [List.cons_append, List.cons_append, refused short all (by decide)]

/-- An escape of words lies before the closing quote, or it is refused. -/
theorem utf16Decode_tidy {body : Text} (tidy : Tidy (byte '\\' :: byte 'u' :: body)) :
    (∃ item later, Item.IsRead item ∧ byte '\\' :: byte 'u' :: body = item.text ++ later ∧ Tidy later) ∨
    ∀ rest, Ahead rest → ∃ what last,
      utf16Decode (byte '\\' :: byte 'u' :: (body ++ byte '"' :: rest)) = (.error (.invalidArgument what), last) := by
  obtain ⟨before, letter, first, later, split, -, tidyLater⟩ | refused := utf16DecodeSeq_tidy tidy
  · injection split with isBackslash split
    injection split with isLetter split
    subst split
    by_cases high : first.isHigh
    · have start (rest : Text) : utf16DecodeSeq (byte '\\' :: byte 'u' :: (first.digits ++ later ++ byte '"' :: rest)) =
          (.ok (some first.value), later ++ byte '"' :: rest) := by
        rw [List.append_assoc]
        exact utf16DecodeSeq_word (.inl rfl) first _
      obtain ⟨mark, sign, second, last, rfl, marked, tidyLast⟩ | refused := utf16DecodeSeq_tidy tidyLater
      · by_cases isRead : (Item.pair first mark sign second).IsRead
        · exact .inl ⟨_, last, isRead, by simp [Item.text], tidyLast⟩
        · refine .inr fun rest _ => ?_
          rw [utf16Decode_high (start rest) high, List.cons_append, List.cons_append, List.append_assoc,
            utf16DecodeSeq_word marked]
          dsimp only
          by_cases low : 0xDC00 ≤ second.value
          · rw [if_pos low]
            have large : 0x10FFFF < Item.pairValue first second := by
              by_contra small
              exact isRead ⟨high, marked, low, by omega⟩
            obtain ⟨what, thrown⟩ := emit_large large (last ++ byte '"' :: rest)
            exact ⟨what, _, thrown⟩
          · rw [if_neg low]
            exact ⟨_, _, rfl⟩
      · refine .inr fun rest ahead => ?_
        obtain ⟨last, none⟩ := refused rest ahead
        rw [utf16Decode_high (start rest) high, none]
        exact ⟨_, _, rfl⟩
    · exact .inl ⟨.unicode first, later, high, rfl, tidyLater⟩
  · refine .inr fun rest ahead => ?_
    obtain ⟨last, none⟩ := refused rest ahead
    rw [List.cons_append, List.cons_append] at none
    rw [utf16Decode, run_bind_ok none]
    exact ⟨_, _, rfl⟩

/-- A tidy literal is read or refused without looking at what comes after it. -/
theorem getStringLoop_tidy {body : Text} (tidy : Tidy body) :
    ∃ content : Option Text, ∀ (rest : Text) (fuel : Nat), Ahead rest → body.length < fuel →
      outcome (Lexer.getStringLoop fuel) (body ++ byte '"' :: rest) = Outcome.ofOption content rest := by
  induction count : body.length using Nat.strong_induction_on generalizing body with
  | _ bound inductionHypothesis =>
      have item {item : Item} {later : Text} (isRead : item.IsRead) (split : body = item.text ++ later)
          (tidyLater : Tidy later) : ∃ content : Option Text, ∀ (rest : Text) (fuel : Nat), Ahead rest → bound < fuel →
            outcome (Lexer.getStringLoop fuel) (body ++ byte '"' :: rest) = Outcome.ofOption content rest := by
        have positive := item.text_length_pos
        have lengths := congrArg List.length split
        rw [List.length_append] at lengths
        obtain ⟨content, ran⟩ := inductionHypothesis later.length (by omega) tidyLater rfl
        refine ⟨content.map (item.bytes ++ ·), fun rest fuel ahead enough => ?_⟩
        cases fuel with
        | zero => cases enough
        | succ fuel =>
            rw [split, List.append_assoc, outcome_getStringLoop_item isRead, ran rest fuel ahead (by omega)]
            cases content <;> rfl
      have refused (all : ∀ (rest : Text) (fuel : Nat), Ahead rest →
          outcome (Lexer.getStringLoop (fuel + 1)) (body ++ byte '"' :: rest) = .refused) :
          ∃ content : Option Text, ∀ (rest : Text) (fuel : Nat), Ahead rest → bound < fuel →
            outcome (Lexer.getStringLoop fuel) (body ++ byte '"' :: rest) = Outcome.ofOption content rest := by
        refine ⟨none, fun rest fuel ahead enough => ?_⟩
        cases fuel with
        | zero => cases enough
        | succ fuel => exact all rest fuel ahead
      cases tidy with
      | nil =>
          refine ⟨some [], fun rest fuel _ enough => ?_⟩
          cases fuel with
          | zero => cases enough
          | succ fuel => exact outcome_getStringLoop_quote fuel rest
      | @plain char later _ _ quote backslash tidyLater =>
          exact item (show (Item.char char).IsRead from ⟨quote, backslash⟩) rfl tidyLater
      | @escape letter later small line tidyLater =>
          by_cases word : letter = byte 'u'
          · subst word
            obtain ⟨part, last, isRead, split, tidyLast⟩ | thrown := utf16Decode_tidy (.escape small line tidyLater)
            · exact item isRead split tidyLast
            · refine refused fun rest fuel ahead => ?_
              obtain ⟨what, last, error⟩ := thrown rest ahead
              rw [List.cons_append, List.cons_append, outcome_getStringLoop_word, outcome_ofRead error]
              rfl
          · match known : simpleEscape letter with
            | some escaped =>
                have isRead : (Item.escape letter).IsRead := by
                  rw [Item.IsRead, known]
                  rfl
                exact item isRead rfl tidyLater
            | none =>
                refine refused fun rest fuel _ => ?_
                rw [List.cons_append, List.cons_append, outcome_getStringLoop_letter fuel _ word, known]

/-- An escaped string between its quotes is one token, or it is refused. -/
theorem prints_string {string escaped : Text} (ran : stringEscape string = .ok escaped) :
    ∃ token, Prints ([byte '"'] ++ escaped ++ [byte '"']) token := by
  obtain ⟨content, read⟩ := getStringLoop_tidy (stringEscape_tidy ran)
  refine ⟨content.bind fun content => (stringUnescape content).toOption.map .string, fun rest ahead => ?_⟩
  have loop := read rest ((escaped ++ byte '"' :: rest).length + 1) ahead (by rw [List.length_append]; omega)
  have string : outcome Lexer.getString (escaped ++ byte '"' :: rest) =
      Outcome.ofOption (content.bind fun content => (stringUnescape content).toOption.map .string) rest := by
    rw [getString_eq, outcome_bind_read (outcome_fuel _) (Blind.stringTail _), stringTail]
    cases content with
    | none => exact outcome_bind_refused loop _
    | some content => rw [outcome_bind_read loop (Blind.stringToken _), outcome_stringToken, Option.bind_some]
  rw [List.append_assoc, List.append_assoc, List.singleton_append, List.singleton_append]
  refine (outcome_get_skip space_nil (by decide) _).trans ?_
  rw [outcome_getToken_string, string]
  generalize content.bind _ = token
  cases token <;> rfl

end SimpleNFast.Json
