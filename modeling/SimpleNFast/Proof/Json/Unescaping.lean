import SimpleNFast.Proof.Json.Escaping

set_option maxRecDepth 100000

namespace SimpleNFast.Json

/-- Digits that are too few come to the end of the text. -/
theorem utf16Digits_short {count : Nat} {digits : Text} (short : digits.length < count)
    (valid : ∀ digit ∈ digits, (hexValue digit).isSome = true) (total : Nat) :
    utf16Digits count total digits = (.error .failure, []) := by
  obtain ⟨front, rest, rfl, length, -⟩ | ⟨front, char, rest, rfl, -, noHex, -⟩ | ⟨-, -, ended⟩ :=
    utf16Digits_cases count total digits
  · rw [List.length_append] at short
    omega
  · have isHex := valid char (List.mem_append_right front List.mem_cons_self)
    rw [noHex] at isHex
    cases isHex
  · exact ended

theorem utf16DecodeSeq_short {before letter : UInt8} (began : before = byte '\\' ∨ letter = byte 'u') {digits : Text}
    (start : IsHexStart digits) : utf16DecodeSeq (before :: letter :: digits) = (.error .failure, []) := by
  rw [utf16DecodeSeq_eq, if_neg (by tauto), utf16Digits_short start.1 start.2]

/-- The beginnings of a word that are too short. -/
theorem utf16DecodeSeq_ended {string rest : Text} (ended : utf16DecodeSeq string = (.error .failure, rest)) :
    string = [] ∨ (∃ char, string = [char]) ∨
      ∃ before letter digits, string = before :: letter :: digits ∧ (before = byte '\\' ∨ letter = byte 'u') ∧
        IsHexStart digits := by
  match string with
  | [] => exact .inl rfl
  | [char] => exact .inr (.inl ⟨char, rfl⟩)
  | before :: letter :: digits =>
      rw [utf16DecodeSeq_eq] at ended
      by_cases wrong : before ≠ byte '\\' ∧ letter ≠ byte 'u'
      · rw [if_pos wrong] at ended
        cases ended
      rw [if_neg wrong] at ended
      refine .inr (.inr ⟨before, letter, digits, rfl, by tauto, ?_⟩)
      obtain ⟨word, last, rfl, four, valid⟩ | ⟨_, _, _, _, _, _, refused⟩ | ⟨short, valid, -⟩ :=
        utf16Digits_cases 4 0 digits
      · rw [← four, utf16Digits_digits word valid] at ended
        cases ended
      · rw [refused] at ended
        cases ended
      · exact ⟨short, valid⟩

theorem utf16DecodeSeq_escape {string rest : Text} {word : HexWord} (split : string = word.digits ++ rest) :
    utf16DecodeSeq (byte '\\' :: byte 'u' :: string) = (.ok (some word.value), rest) := by
  rw [split]
  exact utf16DecodeSeq_word (.inl rfl) word rest

/-- An escape that is cut off comes to the end of the text. -/
theorem unescapeLoop_cut {tail : Text} (cut : CutEscape tail) (fuel : Nat) : unescapeLoop (fuel + 1) tail = .ok [] := by
  have ends {first : HexWord} {rest : Text} (high : first.isHigh) (ended : utf16DecodeSeq rest = (.error .failure, [])) :
      unescapeLoop (fuel + 1) (byte '\\' :: byte 'u' :: (first.digits ++ rest)) = .ok [] := by
    rw [unescapeLoop_word, utf16Decode_high (utf16DecodeSeq_escape rfl) high, ended]
  cases cut with
  | backslash => rfl
  | word digits start =>
      rw [unescapeLoop_word, utf16Decode, run_bind_error (utf16DecodeSeq_short (.inl rfl) start)]
  | alone first high =>
      have ran := ends high (show utf16DecodeSeq [] = _ from rfl)
      rwa [List.append_nil] at ran
  | before first char high => exact ends high rfl
  | second first before letter digits high began start => exact ends high (utf16DecodeSeq_short began start)

theorem emit_ne_ended {codepoint : Nat} {last rest : Text} : emit codepoint last ≠ (.error .failure, rest) := by
  intro ended
  exact emit_ne_failure codepoint last (by rw [ended])

/-- The end of the text is met in an escape that it cuts off. -/
theorem utf16Decode_cut {string rest : Text}
    (ended : utf16Decode (byte '\\' :: byte 'u' :: string) = (.error .failure, rest)) :
    CutEscape (byte '\\' :: byte 'u' :: string) := by
  obtain ⟨before, letter, first, rest, split, began⟩ | ⟨rest, none⟩ | short :=
    utf16DecodeSeq_cases (byte '\\' :: byte 'u' :: string)
  · by_cases high : first.isHigh
    · rw [split, utf16Decode_high (utf16DecodeSeq_word began first rest) high] at ended
      injection split with _ split
      injection split with _ split
      rw [split]
      obtain ⟨mark, sign, second, last, rfl, marked⟩ | ⟨last, none⟩ | short := utf16DecodeSeq_cases rest
      · rw [utf16DecodeSeq_word marked] at ended
        dsimp only at ended
        split at ended
        · exact absurd ended emit_ne_ended
        · cases ended
      · rw [none] at ended
        cases ended
      · obtain rfl | ⟨char, rfl⟩ | ⟨mark, sign, digits, rfl, marked, start⟩ := utf16DecodeSeq_ended short
        · rw [List.append_nil]
          exact .alone first high
        · exact .before first char high
        · exact .second first mark sign digits high marked start
    · rw [split, utf16Decode_alone (utf16DecodeSeq_word began first rest) high] at ended
      exact absurd ended emit_ne_ended
  · rw [utf16Decode, run_bind_ok none] at ended
    cases ended
  · obtain empty | ⟨char, single⟩ | ⟨before, letter, digits, split, -, start⟩ := utf16DecodeSeq_ended short
    · cases empty
    · cases single
    · cases split
      exact .word string start

theorem Item.IsDecoded.of_isRead {item : Item} (isRead : item.IsRead) : item.IsDecoded := by
  cases item with
  | char octet => exact isRead.2
  | escape letter => exact isRead
  | unicode word => exact isRead
  | pair first before letter second => exact isRead

theorem unescapeLoop_decoded {item : Item} (decoded : item.IsDecoded) (fuel : Nat) (rest : Text) :
    unescapeLoop (fuel + 1) (item.text ++ rest) = (unescapeLoop fuel rest).map (item.bytes ++ ·) := by
  have others (isRead : item.IsRead) := unescapeLoop_item isRead fuel rest
  cases item with
  | char octet => exact unescapeLoop_plain decoded fuel rest
  | escape letter => exact others decoded
  | unicode word => exact others decoded
  | pair first before letter second => exact others decoded

/-- What is read are parts that are decoded and the beginning of an escape at the end. -/
theorem unescapeLoop_ok {fuel : Nat} {string content : Text} (ran : unescapeLoop fuel string = .ok content) :
    IsDecodable string := by
  have whole {item : Item} {rest : Text} (decoded : item.IsDecoded) (later : IsDecodable rest) :
      IsDecodable (item.text ++ rest) := by
    obtain ⟨items, tail, all, ends, rfl⟩ := later
    exact ⟨item :: items, tail, List.forall_mem_cons.mpr ⟨decoded, all⟩, ends, by simp⟩
  have cut {tail : Text} (cut : CutEscape tail) : IsDecodable tail := ⟨[], tail, by simp, .inr cut, rfl⟩
  induction fuel generalizing string content with
  | zero => cases ran
  | succ fuel inductionHypothesis =>
      match string with
      | [] => exact ⟨[], [], by simp, .inl rfl, rfl⟩
      | char :: string =>
          by_cases backslash : char = byte '\\'
          · subst backslash
            match string with
            | [] => exact cut .backslash
            | letter :: string =>
                by_cases word : letter = byte 'u'
                · subst word
                  obtain ⟨item, last, escape, isRead, split⟩ | ⟨what, last, thrown⟩ | ended := utf16Decode_cases string
                  · rw [split, unescapeLoop_item isRead] at ran
                    obtain ⟨inner, before, -⟩ := map_ok ran
                    rw [split]
                    exact whole (.of_isRead isRead) (inductionHypothesis before)
                  · rw [unescapeLoop_word, thrown] at ran
                    cases ran
                  · exact cut (utf16Decode_cut ended)
                · rw [unescapeLoop_letter word] at ran
                  match known : simpleEscape letter with
                  | none =>
                      rw [known] at ran
                      cases ran
                  | some escaped =>
                      rw [known] at ran
                      obtain ⟨inner, before, -⟩ := map_ok ran
                      have decoded : (Item.escape letter).IsDecoded := by
                        change (simpleEscape letter).isSome = true
                        rw [known]
                        rfl
                      exact whole decoded (inductionHypothesis before)
          · rw [unescapeLoop_plain backslash] at ran
            obtain ⟨inner, before, -⟩ := map_ok ran
            exact whole (show (Item.char char).IsDecoded from backslash) (inductionHypothesis before)

theorem unescapeLoop_decodable {items : List Item} (decoded : ∀ item ∈ items, item.IsDecoded) {tail : Text}
    (ends : tail = [] ∨ CutEscape tail) {fuel : Nat} (enough : items.length < fuel) :
    unescapeLoop fuel (items.flatMap Item.text ++ tail) = .ok (items.flatMap Item.bytes) := by
  induction items generalizing fuel with
  | nil =>
      cases fuel with
      | zero => cases enough
      | succ fuel =>
          obtain rfl | cut := ends
          · rfl
          · exact unescapeLoop_cut cut fuel
  | cons item items inductionHypothesis =>
      cases fuel with
      | zero => cases enough
      | succ fuel =>
          rw [List.length_cons] at enough
          rw [List.flatMap_cons, List.append_assoc, unescapeLoop_decoded (decoded item List.mem_cons_self),
            inductionHypothesis (fun item member => decoded item (List.mem_cons_of_mem _ member)) (by omega)]
          rfl

/-- The texts for which unescaping returns. -/
theorem stringUnescape_ok_iff (string : Text) :
    (∃ content, stringUnescape string = .ok content) ↔ IsDecodable string := by
  constructor
  · rintro ⟨content, ran⟩
    exact unescapeLoop_ok ran
  · rintro ⟨items, tail, decoded, ends, rfl⟩
    have bound := items_length_le items
    refine ⟨_, unescapeLoop_decodable decoded ends ?_⟩
    rw [List.length_append]
    omega

namespace Item

theorem IsEscaped.isDecoded {item : Item} (escaped : item.IsEscaped) : item.IsDecoded := by
  cases item with
  | char octet => exact escaped
  | escape letter => exact escaped
  | unicode word => exact escaped.1
  | pair first before letter second =>
      obtain ⟨high, backslash, -, low⟩ := escaped
      refine ⟨high, .inl backslash, low.1, ?_⟩
      have above := high.2
      have below := low.2
      rw [pairValue]
      omega

/-- An item of a text is a byte from 128 on, or it has ASCII characters only. -/
theorem IsEscaped.ascii {item : Item} (escaped : item.IsEscaped) :
    (∃ octet, item = .char octet ∧ 0x80 ≤ octet) ∨ ∀ char ∈ item.text, char < 0x80 := by
  have digit (char : UInt8) : (hexValue char).isSome = true → char < 0x80 := by
    revert char
    apply octet_forall
    decide
  have letters (char : UInt8) : (simpleEscape char).isSome = true → char < 0x80 := by
    revert char
    apply octet_forall
    decide
  have backslash : byte '\\' < 0x80 := by decide
  have letterU : byte 'u' < 0x80 := by decide
  cases item with
  | char octet =>
      by_cases small : octet < 0x80
      · exact .inr (List.forall_mem_cons.mpr ⟨small, by simp⟩)
      · exact .inl ⟨octet, rfl, UInt8.not_lt.mp small⟩
  | escape letter =>
      exact .inr (List.forall_mem_cons.mpr ⟨backslash, List.forall_mem_cons.mpr ⟨letters letter escaped, by simp⟩⟩)
  | unicode word =>
      refine .inr (List.forall_mem_cons.mpr ⟨backslash, List.forall_mem_cons.mpr ⟨letterU, ?_⟩⟩)
      exact fun char member => digit char (word.valid char member)
  | pair first before letter second =>
      obtain ⟨-, rfl, rfl, -⟩ := escaped
      refine .inr fun char member => ?_
      simp only [text, List.mem_append, List.mem_cons, List.not_mem_nil, or_false] at member
      obtain (((rfl | rfl) | early) | rfl | rfl) | late := member
      · exact backslash
      · exact letterU
      · exact digit char (first.valid char early)
      · exact backslash
      · exact letterU
      · exact digit char (second.valid char late)

theorem valid_of_char {codepoint : Nat} (valid : codepoint.isValidChar) :
    Utf8.IsValid ((utf8Encode codepoint).toOption.getD []) := by
  obtain ⟨char, rfl⟩ := Utf8.exists_char valid
  rw [utf8Encode_char]
  exact .char char

/-- What an ASCII item stands for is a character. -/
theorem IsEscaped.valid {item : Item} (escaped : item.IsEscaped) (ascii : ∀ char ∈ item.text, char < 0x80) :
    Utf8.IsValid item.bytes := by
  cases item with
  | char octet => exact .ascii (ascii octet List.mem_cons_self)
  | escape letter =>
      have small (letter : UInt8) : ∀ octet, simpleEscape letter = some octet → octet < 0x80 := by
        have all : ∀ letter, (simpleEscape letter).all (· < 0x80) = true := by
          apply octet_forall
          decide
        intro octet known
        have one := all letter
        rw [known] at one
        exact of_decide_eq_true one
      obtain ⟨octet, known⟩ := Option.isSome_iff_exists.mp escaped
      rw [bytes, known]
      exact .ascii (small letter octet known)
  | unicode word =>
      have bound := word.value_lt
      obtain ⟨high, low⟩ := escaped
      rw [HexWord.isHigh] at high
      rw [HexWord.isLow] at low
      refine valid_of_char ?_
      by_cases small : word.value < 0xD800
      · exact .inl small
      · exact .inr ⟨by omega, by omega⟩
  | pair first before letter second =>
      obtain ⟨high, -, -, low⟩ := escaped
      have above := high.2
      have below := low.2
      have valid : (pairValue first second).isValidChar := by
        rw [pairValue]
        exact .inr ⟨by omega, by omega⟩
      rw [bytes]
      exact valid_of_char valid

end Item

/-- Bytes without a backslash at the beginning of a text are items of their own. -/
theorem items_char {items : List Item} (escaped : ∀ item ∈ items, item.IsEscaped) {bytes tail : Text}
    (split : items.flatMap Item.text = bytes ++ tail) (plain : byte '\\' ∉ bytes) :
    ∃ rest, items = bytes.map .char ++ rest ∧ rest.flatMap Item.text = tail := by
  induction bytes generalizing items with
  | nil => exact ⟨items, rfl, split⟩
  | cons octet bytes inductionHypothesis =>
      rw [List.mem_cons, not_or] at plain
      cases items with
      | nil => cases split
      | cons item items =>
          rw [List.flatMap_cons] at split
          cases item with
          | char first =>
              injection split with same split
              obtain ⟨rest, rfl, text⟩ :=
                inductionHypothesis (fun other member => escaped other (List.mem_cons_of_mem _ member)) split plain.2
              exact ⟨rest, by rw [same]; rfl, text⟩
          | escape letter =>
              injection split with same
              exact absurd same plain.1
          | unicode word =>
              injection split with same
              exact absurd same plain.1
          | pair first before letter second =>
              rw [Item.text, List.append_assoc, List.append_assoc] at split
              injection split with same
              exact absurd same plain.1

/-- The content of a text with well-formed escapes is valid UTF-8 because the text is. -/
theorem valid_bytes {items : List Item} (escaped : ∀ item ∈ items, item.IsEscaped)
    (valid : Utf8.IsValid (items.flatMap Item.text)) : Utf8.IsValid (items.flatMap Item.bytes) := by
  induction count : items.length using Nat.strong_induction_on generalizing items with
  | _ bound inductionHypothesis =>
      cases items with
      | nil => exact .nil
      | cons item items =>
          rw [List.length_cons] at count
          obtain ⟨first, others⟩ := List.forall_mem_cons.mp escaped
          rw [List.flatMap_cons] at valid ⊢
          obtain ⟨octet, rfl, large⟩ | ascii := first.ascii
          · obtain ⟨char, tail, split, later⟩ := valid.cons_cases
            obtain ⟨small, one⟩ | ⟨-, length, above⟩ := Utf8.encodeChar_cases char
            · rw [one, List.singleton_append] at split
              injection split with same _
              rw [same, UInt8.le_iff_toNat_le, UInt8.toNat_ofNat', Nat.mod_eq_of_lt (by omega)] at large
              exact absurd large (Nat.not_le.mpr small)
            · have plain : byte '\\' ∉ String.utf8EncodeChar char := fun member => by
                have high := above _ member
                revert high
                decide
              obtain ⟨rest, same, text⟩ := items_char escaped split plain
              have lengths := congrArg List.length same
              rw [List.length_cons, List.length_append, List.length_map] at lengths
              have tailValid := inductionHypothesis rest.length (by omega)
                (fun other member => escaped other (by rw [same]; exact List.mem_append_right _ member))
                (by rw [text]; exact later) rfl
              have content : (Item.char octet).bytes ++ items.flatMap Item.bytes =
                  String.utf8EncodeChar char ++ rest.flatMap Item.bytes := by
                rw [← List.flatMap_cons, same, List.flatMap_append, List.flatMap_map]
                congr 1
                exact List.flatMap_singleton' _
              rw [content]
              exact (Utf8.IsValid.char char).append tailValid
          · exact (first.valid ascii).append (inductionHypothesis items.length (by omega) others (valid.drop_ascii ascii) rfl)

/-- Unescaping meets its specification where the escapes are well formed or the decoder refuses one. -/
theorem unescapesExactly_iff {string : Text} (valid : Utf8.IsValid string) :
    UnescapesExactly string ↔ bodyOf Item.IsEscaped string ∨ ¬ IsDecodable string := by
  constructor
  · rintro ⟨-, refuses⟩
    by_cases formed : bodyOf Item.IsEscaped string
    · exact .inl formed
    refine .inr fun decodable => ?_
    obtain ⟨content, ran⟩ := (stringUnescape_ok_iff string).mpr decodable
    obtain ⟨what, thrown⟩ := refuses formed
    rw [ran] at thrown
    cases thrown
  · intro condition
    refine ⟨?_, ?_⟩
    · rintro ⟨items, escaped, rfl⟩
      have bound := items_length_le items
      refine ⟨items.flatMap Item.bytes, ?_, valid_bytes escaped valid⟩
      have ran := unescapeLoop_decodable (fun item member => (escaped item member).isDecoded) (.inl rfl)
        (Nat.lt_succ_of_le bound)
      rwa [List.append_nil] at ran
    · intro malformed
      obtain ⟨content, ran, -⟩ | thrown := stringUnescape_total string
      · exact absurd ((stringUnescape_ok_iff string).mp ⟨content, ran⟩) (condition.resolve_left malformed)
      · exact thrown

theorem unescapesExactly_pair :
    UnescapesExactly (text "\\ud83d\\ude00") ↔
      bodyOf Item.IsEscaped (text "\\ud83d\\ude00") ∨ ¬ IsDecodable (text "\\ud83d\\ude00") :=
  unescapesExactly_iff ⟨"\\ud83d\\ude00".toList, by decide⟩

/-- The end of the text after a backslash is taken for the end of the loop. -/
theorem backslash_not_unescapesExactly :
    Utf8.IsValid [byte '\\'] ∧ ¬ UnescapesExactly [byte '\\'] := by
  refine ⟨⟨['\\'], by decide⟩, ?_⟩
  rintro ⟨-, refuses⟩
  have malformed : ¬ bodyOf Item.IsEscaped [byte '\\'] := by
    rintro ⟨items, escaped, split⟩
    cases items with
    | nil => cases split
    | cons item items =>
        have first := escaped item List.mem_cons_self
        have lengths := congrArg List.length split
        cases item with
        | char octet =>
            injection split with same
            exact first same.symm
        | escape letter =>
            simp [Item.text] at lengths
        | unicode word =>
            simp [Item.text] at lengths
        | pair high before letter low =>
            simp [Item.text] at lengths
  have ran : stringUnescape [byte '\\'] = .ok [] := by decide
  obtain ⟨what, thrown⟩ := refuses malformed
  rw [ran] at thrown
  cases thrown

end SimpleNFast.Json
