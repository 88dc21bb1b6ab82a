import SimpleNFast.Proof.Json.Outcome
import SimpleNFast.Proof.Text

set_option maxRecDepth 100000

namespace SimpleNFast.Json

/-- The number of a word that continues with these digits. -/
def hexTotal (total : Nat) (digits : Text) : Nat :=
  digits.foldl (fun total digit => total * 16 + (hexValue digit).getD 0) total

theorem Read.get_cons (char : UInt8) (rest : Text) : Read.get (char :: rest) = (.ok char, rest) := rfl

theorem utf16Digits_digits (digits : Text) (valid : ∀ digit ∈ digits, (hexValue digit).isSome = true) (total : Nat)
    (rest : Text) : utf16Digits digits.length total (digits ++ rest) = (.ok (some (hexTotal total digits)), rest) := by
  induction digits generalizing total with
  | nil => rfl
  | cons first digits inductionHypothesis =>
      obtain ⟨value, isHex⟩ := Option.isSome_iff_exists.mp (valid first List.mem_cons_self)
      rw [List.length_cons, List.cons_append, utf16Digits, run_bind_ok (Read.get_cons _ _), isHex]
      dsimp only
      rw [inductionHypothesis (fun digit member => valid digit (List.mem_cons_of_mem _ member)), hexTotal, hexTotal,
        List.foldl_cons, isHex]
      rfl

/-- The digits are there, or another character stands among them, or the text ends. -/
theorem utf16Digits_cases (count total : Nat) (string : Text) :
    (∃ digits rest, string = digits ++ rest ∧ digits.length = count ∧
      ∀ digit ∈ digits, (hexValue digit).isSome = true) ∨
    (∃ digits char rest, string = digits ++ char :: rest ∧ digits.length < count ∧
      hexValue char = none ∧ utf16Digits count total string = (.ok none, rest)) ∨
    (string.length < count ∧ (∀ char ∈ string, (hexValue char).isSome = true) ∧
      utf16Digits count total string = (.error .failure, [])) := by
  induction count generalizing total string with
  | zero => exact .inl ⟨[], string, rfl, rfl, by simp⟩
  | succ count inductionHypothesis =>
      match string with
      | [] => exact .inr (.inr ⟨by simp, by simp, rfl⟩)
      | char :: string =>
          rw [utf16Digits, run_bind_ok (Read.get_cons _ _)]
          match isHex : hexValue char with
          | none => exact .inr (.inl ⟨[], char, string, rfl, by simp, isHex, rfl⟩)
          | some value =>
              dsimp only
              obtain ⟨digits, rest, rfl, length, valid⟩ | ⟨digits, other, rest, rfl, length, noHex, ended⟩ |
                ⟨length, valid, ended⟩ := inductionHypothesis (total * 16 + value) string
              · refine .inl ⟨char :: digits, rest, rfl, by simp [length], ?_⟩
                intro digit member
                obtain rfl | member := List.mem_cons.mp member
                · rw [isHex]
                  rfl
                · exact valid digit member
              · exact .inr (.inl ⟨char :: digits, other, rest, rfl, by simp [length], noHex, ended⟩)
              · refine .inr (.inr ⟨by simp [length], ?_, ended⟩)
                intro digit member
                obtain rfl | member := List.mem_cons.mp member
                · rw [isHex]
                  rfl
                · exact valid digit member

theorem HexWord.read (word : HexWord) (rest : Text) :
    utf16Digits 4 0 (word.digits ++ rest) = (.ok (some word.value), rest) := by
  rw [← word.four]
  exact utf16Digits_digits word.digits word.valid 0 rest

/-- The two characters before a word are refused when both are wrong. -/
theorem utf16DecodeSeq_eq (before letter : UInt8) (rest : Text) :
    utf16DecodeSeq (before :: letter :: rest) =
      if before ≠ byte '\\' ∧ letter ≠ byte 'u' then (.ok none, rest) else utf16Digits 4 0 rest := by
  rw [utf16DecodeSeq, run_bind_ok (Read.get_cons _ _), run_bind_ok (Read.get_cons _ _)]
  by_cases wrong : before ≠ byte '\\' ∧ letter ≠ byte 'u'
  · rw [if_pos wrong, if_pos (by simpa using wrong)]
    rfl
  · rw [if_neg wrong, if_neg (by simpa using wrong)]

theorem hexValue_getD_lt (digit : UInt8) : (hexValue digit).getD 0 < 16 := by
  revert digit
  apply octet_forall
  decide

theorem hexTotal_lt (digits : Text) (total : Nat) :
    hexTotal total digits < (total + 1) * 16 ^ digits.length := by
  induction digits generalizing total with
  | nil => simp [hexTotal]
  | cons first digits inductionHypothesis =>
      have below := hexValue_getD_lt first
      calc hexTotal total (first :: digits) = hexTotal (total * 16 + (hexValue first).getD 0) digits := rfl
        _ < (total * 16 + (hexValue first).getD 0 + 1) * 16 ^ digits.length := inductionHypothesis _
        _ ≤ ((total + 1) * 16) * 16 ^ digits.length := Nat.mul_le_mul_right _ (by omega)
        _ = (total + 1) * 16 ^ (first :: digits).length := by rw [List.length_cons, pow_succ]; ring

theorem HexWord.value_lt (word : HexWord) : word.value < 65536 := by
  have bound := hexTotal_lt word.digits 0
  rw [word.four] at bound
  exact bound

theorem utf8Encode_ok {codepoint : Nat} (small : codepoint ≤ 0x10FFFF) :
    utf8Encode codepoint = .ok ((utf8Encode codepoint).toOption.getD []) := by
  rw [utf8Encode, if_neg (by omega)]
  split
  · rfl
  · split
    · rfl
    · split
      · rfl
      · rfl

theorem utf8Encode_large {codepoint : Nat} (large : 0x10FFFF < codepoint) :
    utf8Encode codepoint =
      .error (.invalidArgument (text "invalid code point (0x" ++ hexadecimal codepoint ++ text ")")) := by
  rw [utf8Encode, if_pos large]

/-- The bytes of a code point at the end of an escape. -/
def emit (codepoint : Nat) (rest : Text) : Except Fault Text × Text :=
  match utf8Encode codepoint with
  | .ok bytes => (.ok bytes, rest)
  | .error fault => (.error fault, rest)

theorem emit_small {codepoint : Nat} (small : codepoint ≤ 0x10FFFF) (rest : Text) :
    emit codepoint rest = (.ok ((utf8Encode codepoint).toOption.getD []), rest) := by
  rw [emit, utf8Encode_ok small]
  rfl

theorem emit_large {codepoint : Nat} (large : 0x10FFFF < codepoint) (rest : Text) :
    ∃ what, emit codepoint rest = (.error (.invalidArgument what), rest) := by
  rw [emit, utf8Encode_large large]
  exact ⟨_, rfl⟩

theorem utf16Decode_alone {string rest : Text} {first : Nat} (read : utf16DecodeSeq string = (.ok (some first), rest))
    (alone : ¬ (0xD800 ≤ first ∧ first ≤ 0xDBFF)) : utf16Decode string = emit first rest := by
  rw [utf16Decode, run_bind_ok read]
  dsimp only
  rw [if_neg alone, pure_bind, emit]
  match utf8Encode first with
  | .ok bytes => rfl
  | .error fault => rfl

theorem utf16Decode_high {string rest : Text} {first : Nat} (read : utf16DecodeSeq string = (.ok (some first), rest))
    (high : 0xD800 ≤ first ∧ first ≤ 0xDBFF) :
    utf16Decode string =
      match utf16DecodeSeq rest with
      | (.error fault, later) => (.error fault, later)
      | (.ok none, later) => (.error (.invalidArgument (text "invalid UTF-16 surrogate sequence")), later)
      | (.ok (some second), later) =>
          if 0xDC00 ≤ second then emit ((first - 0xD800) * 2 ^ 10 + (second - 0xDC00) + 0x10000) later
          else
            (.error (.invalidArgument (text "invalid UTF-16 surrogate sequence (0x" ++ hexadecimal second ++
              text ")")), later) := by
  rw [utf16Decode, run_bind_ok read]
  dsimp only
  rw [if_pos high]
  match next : utf16DecodeSeq rest with
  | (.error fault, later) => rw [run_bind_error next]
  | (.ok none, later) =>
      rw [run_bind_ok next]
      rfl
  | (.ok (some second), later) =>
      rw [run_bind_ok next]
      dsimp only
      by_cases low : 0xDC00 ≤ second
      · rw [if_pos ⟨low, by omega⟩, if_pos low, pure_bind, emit]
        match utf8Encode ((first - 0xD800) * 2 ^ 10 + (second - 0xDC00) + 0x10000) with
        | .ok bytes => rfl
        | .error fault => rfl
      · rw [if_neg fun both => low both.1, if_neg low]
        rfl

theorem utf16DecodeSeq_word {before letter : UInt8} (began : before = byte '\\' ∨ letter = byte 'u')
    (word : HexWord) (rest : Text) :
    utf16DecodeSeq (before :: letter :: (word.digits ++ rest)) = (.ok (some word.value), rest) := by
  rw [utf16DecodeSeq_eq, if_neg (by tauto), word.read]

/-- An escape of one word. -/
theorem utf16Decode_unicode {word : HexWord} (alone : ¬ word.isHigh) (rest : Text) :
    utf16Decode ((Item.unicode word).text ++ rest) = (.ok (Item.unicode word).bytes, rest) := by
  have bound := word.value_lt
  change utf16Decode (byte '\\' :: byte 'u' :: (word.digits ++ rest)) = _
  rw [utf16Decode_alone (utf16DecodeSeq_word (.inl rfl) word rest) alone, emit_small (by omega)]
  rfl

/-- An escape of two words. -/
theorem utf16Decode_pair {first second : HexWord} {before letter : UInt8}
    (isRead : (Item.pair first before letter second).IsRead) (rest : Text) :
    utf16Decode ((Item.pair first before letter second).text ++ rest) =
      (.ok (Item.pair first before letter second).bytes, rest) := by
  obtain ⟨high, began, low, small⟩ := isRead
  have split : (Item.pair first before letter second).text ++ rest =
      byte '\\' :: byte 'u' :: (first.digits ++ before :: letter :: (second.digits ++ rest)) := by
    simp [Item.text]
  rw [split, utf16Decode_high (utf16DecodeSeq_word (.inl rfl) first _) high, utf16DecodeSeq_word began second]
  dsimp only
  rw [if_pos low]
  exact emit_small small rest

/-- A word begins a text, or its decoding is refused, or the text ends inside of it. -/
theorem utf16DecodeSeq_cases (string : Text) :
    (∃ before letter word rest, string = before :: letter :: (HexWord.digits word ++ rest) ∧
      (before = byte '\\' ∨ letter = byte 'u')) ∨
    (∃ rest, utf16DecodeSeq string = (.ok none, rest)) ∨ utf16DecodeSeq string = (.error .failure, []) := by
  match string with
  | [] => exact .inr (.inr rfl)
  | [before] => exact .inr (.inr rfl)
  | before :: letter :: string =>
      rw [utf16DecodeSeq_eq]
      by_cases wrong : before ≠ byte '\\' ∧ letter ≠ byte 'u'
      · rw [if_pos wrong]
        exact .inr (.inl ⟨string, rfl⟩)
      · rw [if_neg wrong]
        obtain ⟨digits, rest, rfl, four, valid⟩ | ⟨_, _, rest, _, _, _, ended⟩ | ⟨_, _, ended⟩ :=
          utf16Digits_cases 4 0 string
        · exact .inl ⟨before, letter, ⟨digits, four, valid⟩, rest, rfl, by tauto⟩
        · exact .inr (.inl ⟨rest, ended⟩)
        · exact .inr (.inr ended)

/-- The escapes are the two kinds of items that begin with a word. -/
def Item.isEscape : Item → Bool
  | .unicode _ | .pair _ _ _ _ => true
  | _ => false

theorem Item.decode {item : Item} (escape : item.isEscape = true) (isRead : item.IsRead) (rest : Text) :
    utf16Decode (item.text ++ rest) = (.ok item.bytes, rest) := by
  cases item with
  | char octet => cases escape
  | escape letter => cases escape
  | unicode word => exact utf16Decode_unicode isRead rest
  | pair first before letter second => exact utf16Decode_pair isRead rest

/-- The decoder reads an escape, or it throws, or it comes to the end. -/
theorem utf16Decode_cases (string : Text) :
    (∃ item rest, Item.isEscape item = true ∧ item.IsRead ∧ byte '\\' :: byte 'u' :: string = item.text ++ rest) ∨
    (∃ what rest, utf16Decode (byte '\\' :: byte 'u' :: string) = (.error (.invalidArgument what), rest)) ∨
    utf16Decode (byte '\\' :: byte 'u' :: string) = (.error .failure, []) := by
  obtain ⟨before, letter, first, rest, split, began⟩ | ⟨rest, none⟩ | ended :=
    utf16DecodeSeq_cases (byte '\\' :: byte 'u' :: string)
  · by_cases high : first.isHigh
    · rw [split, utf16Decode_high (utf16DecodeSeq_word began first rest) high]
      obtain ⟨mark, sign, second, last, rfl, marked⟩ | ⟨last, none⟩ | ended := utf16DecodeSeq_cases rest
      · rw [utf16DecodeSeq_word marked]
        dsimp only
        by_cases low : 0xDC00 ≤ second.value
        · rw [if_pos low]
          by_cases small : Item.pairValue first second ≤ 0x10FFFF
          · refine .inl ⟨.pair first mark sign second, last, rfl, ⟨high, marked, low, small⟩, ?_⟩
            injection split with backslash split
            injection split with letterU split
            rw [← backslash, ← letterU]
            simp [Item.text]
          · obtain ⟨what, ended⟩ := emit_large (by omega : 0x10FFFF < Item.pairValue first second) last
            exact .inr (.inl ⟨what, last, ended⟩)
        · rw [if_neg low]
          exact .inr (.inl ⟨_, _, rfl⟩)
      · rw [none]
        exact .inr (.inl ⟨_, _, rfl⟩)
      · rw [ended]
        exact .inr (.inr rfl)
    · refine .inl ⟨.unicode first, rest, rfl, high, ?_⟩
      injection split with backslash split
      injection split with letterU split
      rw [split]
      rfl
  · refine .inr (.inl ⟨text "invalid UTF-16 main sequence", rest, ?_⟩)
    rw [utf16Decode, run_bind_ok none]
    rfl
  · refine .inr (.inr ?_)
    rw [utf16Decode, run_bind_error ended]

/-- An escape of one letter is no escape of a word. -/
theorem simpleEscape_ne_u {letter : UInt8} (known : (simpleEscape letter).isSome = true) : letter ≠ byte 'u' := by
  rintro rfl
  revert known
  decide

theorem unescapeLoop_plain {octet : UInt8} (plain : octet ≠ byte '\\') (fuel : Nat) (rest : Text) :
    unescapeLoop (fuel + 1) (octet :: rest) = (unescapeLoop fuel rest).map (octet :: ·) := by
  conv => lhs; unfold unescapeLoop
  simp only [if_neg plain]

theorem unescapeLoop_letter {letter : UInt8} (other : letter ≠ byte 'u') (fuel : Nat) (rest : Text) :
    unescapeLoop (fuel + 1) (byte '\\' :: letter :: rest) =
      match simpleEscape letter with
      | some escaped => (unescapeLoop fuel rest).map (escaped :: ·)
      | none => .error (.invalidArgument (text "invalid escape sequence")) := by
  conv => lhs; unfold unescapeLoop
  exact (if_pos rfl).trans (if_neg other)

theorem unescapeLoop_word (fuel : Nat) (rest : Text) :
    unescapeLoop (fuel + 1) (byte '\\' :: byte 'u' :: rest) =
      match utf16Decode (byte '\\' :: byte 'u' :: rest) with
      | (.ok bytes, after) => (unescapeLoop fuel after).map (bytes ++ ·)
      | (.error .failure, _) => .ok []
      | (.error fault, _) => .error fault := by
  conv => lhs; unfold unescapeLoop
  exact (if_pos rfl).trans (if_pos rfl)

/-- The escapes begin with a backslash and the letter of a word. -/
theorem Item.text_escape {item : Item} (escape : item.isEscape = true) :
    ∃ tail, item.text = byte '\\' :: byte 'u' :: tail := by
  cases item with
  | char octet => cases escape
  | escape letter => cases escape
  | unicode word => exact ⟨_, rfl⟩
  | pair first before letter second => exact ⟨first.digits ++ [before, letter] ++ second.digits, by simp [Item.text]⟩

/-- Unescaping a text goes from item to item. -/
theorem unescapeLoop_item {item : Item} (isRead : item.IsRead) (fuel : Nat) (rest : Text) :
    unescapeLoop (fuel + 1) (item.text ++ rest) = (unescapeLoop fuel rest).map (item.bytes ++ ·) := by
  have words : item.isEscape = true →
      unescapeLoop (fuel + 1) (item.text ++ rest) = (unescapeLoop fuel rest).map (item.bytes ++ ·) := by
    intro escape
    obtain ⟨tail, split⟩ := Item.text_escape escape
    have decoded := Item.decode escape isRead rest
    rw [split, List.cons_append, List.cons_append] at decoded ⊢
    rw [unescapeLoop_word, decoded]
  cases item with
  | char octet => exact unescapeLoop_plain isRead.2 fuel rest
  | escape letter =>
      obtain ⟨escaped, known⟩ := Option.isSome_iff_exists.mp isRead
      have step := unescapeLoop_letter (simpleEscape_ne_u isRead) fuel rest
      rw [known] at step
      rw [Item.bytes, known]
      exact step
  | unicode word => exact words rfl
  | pair first before letter second => exact words rfl

theorem Item.text_length_pos (item : Item) : 0 < item.text.length := by
  cases item with
  | char octet => simp [Item.text]
  | escape letter => simp [Item.text]
  | unicode word => simp [Item.text]
  | pair first before letter second => simp [Item.text]

theorem items_length_le (items : List Item) : items.length ≤ (items.flatMap Item.text).length := by
  induction items with
  | nil => simp
  | cons item items inductionHypothesis =>
      have positive := item.text_length_pos
      rw [List.length_cons, List.flatMap_cons, List.length_append]
      omega

theorem unescapeLoop_items {items : List Item} (isRead : ∀ item ∈ items, item.IsRead) {fuel : Nat}
    (enough : items.length < fuel) :
    unescapeLoop fuel (items.flatMap Item.text) = .ok (items.flatMap Item.bytes) := by
  induction items generalizing fuel with
  | nil =>
      cases fuel with
      | zero => cases enough
      | succ fuel => rfl
  | cons item items inductionHypothesis =>
      cases fuel with
      | zero => cases enough
      | succ fuel =>
          rw [List.length_cons] at enough
          rw [List.flatMap_cons, unescapeLoop_item (isRead item List.mem_cons_self),
            inductionHypothesis (fun item member => isRead item (List.mem_cons_of_mem _ member)) (by omega)]
          rfl

/-- Unescaping the body of a literal that the lexer reads. -/
theorem stringUnescape_items {items : List Item} (isRead : ∀ item ∈ items, item.IsRead) :
    stringUnescape (items.flatMap Item.text) = .ok (items.flatMap Item.bytes) := by
  have bound := items_length_le items
  exact unescapeLoop_items isRead (by omega)

end SimpleNFast.Json
