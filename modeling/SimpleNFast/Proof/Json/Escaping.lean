import SimpleNFast.Construction.Json.Escapes
import SimpleNFast.Proof.Json.Strings

set_option maxRecDepth 100000

namespace SimpleNFast.Json

def hexDigit (value : Nat) : UInt8 := byte (Nat.digitChar value)

theorem hexDigit_forall {property : Nat → Prop} (all : ∀ index : Fin 16, property index) {value : Nat}
    (small : value < 16) : property value := all ⟨value, small⟩

theorem hexValue_hexDigit {value : Nat} (small : value < 16) : hexValue (hexDigit value) = some value := by
  revert value
  apply hexDigit_forall
  decide

theorem hexadecimal_step {value : Nat} (large : 16 ≤ value) :
    hexadecimal value = hexadecimal (value / 16) ++ [hexDigit (value % 16)] := by
  rw [hexadecimal, digits, Nat.toDigits_of_base_le (by decide) large, List.map_append]
  rfl

theorem hexadecimal_small {value : Nat} (small : value < 16) : hexadecimal value = [hexDigit value] := by
  rw [hexadecimal, digits, Nat.toDigits_of_lt_base small]
  rfl

/-- Every digit that is printed is read as one. -/
theorem hexValue_hexadecimal (value : Nat) : ∀ digit ∈ hexadecimal value, (hexValue digit).isSome = true := by
  induction value using Nat.strong_induction_on with
  | _ value inductionHypothesis =>
      by_cases small : value < 16
      · rw [hexadecimal_small small]
        intro digit member
        rw [List.mem_singleton.mp member, hexValue_hexDigit small]
        rfl
      · rw [hexadecimal_step (by omega)]
        intro digit member
        obtain early | last := List.mem_append.mp member
        · exact inductionHypothesis (value / 16) (by omega) digit early
        · rw [List.mem_singleton.mp last, hexValue_hexDigit (Nat.mod_lt _ (by decide))]
          rfl

/-- The word of four digits that has this value. -/
def HexWord.ofNat (value : Nat) : HexWord where
  digits := [hexDigit (value / 4096 % 16), hexDigit (value / 256 % 16), hexDigit (value / 16 % 16), hexDigit (value % 16)]
  four := rfl
  valid := by
    have below (number : Nat) : (hexValue (hexDigit (number % 16))).isSome = true := by
      rw [hexValue_hexDigit (Nat.mod_lt _ (by decide))]
      rfl
    simp only [List.forall_mem_cons]
    exact ⟨below _, below _, below _, below _, by simp⟩

theorem HexWord.digits_ofNat (value : Nat) :
    (HexWord.ofNat value).digits =
      [hexDigit (value / 4096 % 16), hexDigit (value / 256 % 16), hexDigit (value / 16 % 16),
        hexDigit (value % 16)] := rfl

theorem HexWord.value_ofNat {value : Nat} (small : value < 65536) : (HexWord.ofNat value).value = value := by
  have below (number : Nat) : (hexValue (hexDigit (number % 16))).getD 0 = number % 16 := by
    rw [hexValue_hexDigit (Nat.mod_lt _ (by decide))]
    rfl
  simp only [HexWord.value, HexWord.ofNat, List.foldl_cons, List.foldl_nil, below]
  omega

/-- A word of sixteen bits is printed with four digits. -/
theorem hexWord_ofNat {value : Nat} (small : value < 65536) :
    hexWord value = byte '\\' :: byte 'u' :: (HexWord.ofNat value).digits := by
  rw [hexWord, HexWord.digits_ofNat]
  by_cases one : value < 16
  · rw [hexadecimal_small one, Nat.div_eq_of_lt (by omega : value < 4096), Nat.div_eq_of_lt (by omega : value < 256),
      Nat.div_eq_of_lt one, Nat.mod_eq_of_lt one]
    rfl
  have ones : hexadecimal value = hexadecimal (value / 16) ++ [hexDigit (value % 16)] := hexadecimal_step (by omega)
  by_cases two : value < 256
  · rw [ones, hexadecimal_small (by omega), Nat.div_eq_of_lt (by omega : value < 4096), Nat.div_eq_of_lt two,
      Nat.mod_eq_of_lt (by omega : value / 16 < 16)]
    rfl
  have twos : hexadecimal (value / 16) = hexadecimal (value / 256) ++ [hexDigit (value / 16 % 16)] := by
    rw [hexadecimal_step (by omega), Nat.div_div_eq_div_mul]
  by_cases three : value < 4096
  · rw [ones, twos, hexadecimal_small (by omega), Nat.div_eq_of_lt three, Nat.mod_eq_of_lt (by omega : value / 256 < 16)]
    rfl
  have threes : hexadecimal (value / 256) = hexadecimal (value / 4096) ++ [hexDigit (value / 256 % 16)] := by
    rw [hexadecimal_step (by omega), Nat.div_div_eq_div_mul]
  rw [ones, twos, threes, hexadecimal_small (by omega), Nat.mod_eq_of_lt (by omega : value / 4096 < 16)]
  rfl

/-- The bits of a number from one place on, as many as the mask has. -/
theorem and_shiftRight (number place count mask : Nat) (isMask : mask >>> place = 2 ^ count - 1) :
    (number &&& mask) >>> place = number / 2 ^ place % 2 ^ count := by
  rw [Nat.shiftRight_and_distrib, isMask, Nat.and_two_pow_sub_one_eq_mod, Nat.shiftRight_eq_div_pow]

/-- The encoder of the library gives the bytes of a character. -/
theorem utf8Encode_char (char : Char) : utf8Encode char.toNat = .ok (String.utf8EncodeChar char) := by
  have bound := Utf8.toNat_lt char
  have low : char.toNat &&& 0x3F = char.toNat % 64 := Nat.and_two_pow_sub_one_eq_mod char.toNat 6
  rw [utf8Encode, if_neg (by omega)]
  by_cases one : char.toNat < 0x80
  · rw [if_pos one, Utf8.encodeChar_one one]
  by_cases two : char.toNat < 0x800
  · rw [if_neg one, if_pos two, Utf8.encodeChar_two (by omega) two, low, and_shiftRight _ 6 5 _ rfl,
      Nat.mod_eq_of_lt (by omega : char.toNat / 2 ^ 6 < 2 ^ 5)]
    rfl
  by_cases three : char.toNat < 0x10000
  · rw [if_neg one, if_neg two, if_pos three, Utf8.encodeChar_three (by omega) three, low,
      and_shiftRight _ 12 4 _ rfl, and_shiftRight _ 6 6 _ rfl,
      Nat.mod_eq_of_lt (by omega : char.toNat / 2 ^ 12 < 2 ^ 4)]
    rfl
  · rw [if_neg one, if_neg two, if_neg three, Utf8.encodeChar_four (by omega), low, and_shiftRight _ 18 3 _ rfl,
      and_shiftRight _ 12 6 _ rfl, and_shiftRight _ 6 6 _ rfl,
      Nat.mod_eq_of_lt (by omega : char.toNat / 2 ^ 18 < 2 ^ 3)]
    rfl

theorem utf8Start_two (more : Fin 32) : utf8Start (UInt8.ofNat (0xC0 + more)) = (1, more.val) := by
  revert more
  decide

theorem utf8Start_three (more : Fin 16) : utf8Start (UInt8.ofNat (0xE0 + more)) = (2, more.val) := by
  revert more
  decide

theorem utf8Start_four (more : Fin 8) : utf8Start (UInt8.ofNat (0xF0 + more)) = (3, more.val) := by
  revert more
  decide

theorem continuation_bits (more : Fin 64) :
    UInt8.ofNat (0x80 + more) &&& 0x80 = 0x80 ∧ (UInt8.ofNat (0x80 + more) &&& 0x3F).toNat = more := by
  revert more
  decide

/-- One more byte of a sequence gives six more bits. -/
theorem utf8Rest_step {word more : Nat} (six : more < 64) (fits : word * 64 + more < 2 ^ 32) (count : Nat) (rest : Text) :
    utf8Rest (count + 1) word (UInt8.ofNat (0x80 + more) :: rest) = utf8Rest count (word * 64 + more) rest := by
  obtain ⟨marked, bits⟩ := continuation_bits ⟨more, six⟩
  dsimp only at marked bits
  have joined : word * 2 ^ 6 ||| more = word * 64 + more := by
    rw [Nat.mul_comm, ← Nat.two_pow_add_eq_or_of_lt (show more < 2 ^ 6 from six), Nat.mul_comm]
  rw [utf8Rest, run_bind_ok (Read.get_cons _ _), if_pos marked, bits, joined, Nat.mod_eq_of_lt fits]

/-- The decoder of `utf16_encode` reads the number of a character from its bytes. -/
theorem utf16Encode_char {char : Char} (large : 0x80 ≤ char.toNat) (rest : Text) :
    utf16Encode (String.utf8EncodeChar char ++ rest) = (.ok (hexWords char.toNat), rest) := by
  have bound := Utf8.toNat_lt char
  have read {first : UInt8} {count start : Nat} {more : Text} (starts : utf8Start first = (count, start))
      (ends : utf8Rest count start (more ++ rest) = (.ok char.toNat, rest)) :
      utf16Encode (first :: more ++ rest) = (.ok (hexWords char.toNat), rest) := by
    rw [utf16Encode, List.cons_append, run_bind_ok (Read.get_cons _ _), starts]
    dsimp only
    rw [run_bind_ok ends]
    rfl
  by_cases two : char.toNat < 0x800
  · rw [Utf8.encodeChar_two large two]
    refine read (utf8Start_two ⟨char.toNat / 64, by omega⟩) ?_
    dsimp only [List.cons_append, List.nil_append]
    rw [utf8Rest_step (by omega) (by omega), show char.toNat / 64 * 64 + char.toNat % 64 = char.toNat by omega]
    rfl
  by_cases three : char.toNat < 0x10000
  · rw [Utf8.encodeChar_three (by omega) three]
    refine read (utf8Start_three ⟨char.toNat / 4096, by omega⟩) ?_
    dsimp only [List.cons_append, List.nil_append]
    rw [utf8Rest_step (by omega) (by omega), utf8Rest_step (by omega) (by omega),
      show (char.toNat / 4096 * 64 + char.toNat / 64 % 64) * 64 + char.toNat % 64 = char.toNat by omega]
    rfl
  · rw [Utf8.encodeChar_four (by omega)]
    refine read (utf8Start_four ⟨char.toNat / 262144, by omega⟩) ?_
    dsimp only [List.cons_append, List.nil_append]
    rw [utf8Rest_step (by omega) (by omega), utf8Rest_step (by omega) (by omega), utf8Rest_step (by omega) (by omega),
      show ((char.toNat / 262144 * 64 + char.toNat / 4096 % 64) * 64 + char.toNat / 64 % 64) * 64 + char.toNat % 64 =
        char.toNat by omega]
    rfl

/-- ASCII without newlines, where a quote and a backslash come after a backslash only. -/
inductive Tidy : Text → Prop where
  | nil : Tidy []
  | plain {char : UInt8} {rest : Text} : char < 0x80 → char ≠ byte '\n' → char ≠ byte '"' → char ≠ byte '\\' →
      Tidy rest → Tidy (char :: rest)
  | escape {letter : UInt8} {rest : Text} : letter < 0x80 → letter ≠ byte '\n' → Tidy rest →
      Tidy (byte '\\' :: letter :: rest)

namespace Tidy

theorem ascii {string : Text} (tidy : Tidy string) : ∀ char ∈ string, char < 0x80 := by
  induction tidy with
  | nil => simp
  | plain small _ _ _ _ inductionHypothesis => exact List.forall_mem_cons.mpr ⟨small, inductionHypothesis⟩
  | escape small _ _ inductionHypothesis =>
      exact List.forall_mem_cons.mpr ⟨by decide, List.forall_mem_cons.mpr ⟨small, inductionHypothesis⟩⟩

theorem line {string : Text} (tidy : Tidy string) : byte '\n' ∉ string := by
  induction tidy with
  | nil => simp
  | plain _ other _ _ _ inductionHypothesis =>
      exact fun member => (List.mem_cons.mp member).elim (other ∘ Eq.symm) inductionHypothesis
  | escape _ other _ inductionHypothesis =>
      intro member
      obtain backslash | member := List.mem_cons.mp member
      · exact absurd backslash (by decide)
      · exact (List.mem_cons.mp member).elim (other ∘ Eq.symm) inductionHypothesis

theorem quoted {string : Text} (tidy : Tidy string) : bareQuote string = false := by
  induction tidy with
  | nil => rfl
  | @plain char rest _ _ quote backslash _ inductionHypothesis =>
      cases rest with
      | nil => simpa [bareQuote] using quote
      | cons letter rest => simp [bareQuote, backslash, quote, inductionHypothesis]
  | escape _ _ _ inductionHypothesis => simpa [bareQuote] using inductionHypothesis

theorem digits {string rest : Text} (digits : ∀ digit ∈ string, (hexValue digit).isSome = true) (tidy : Tidy rest) :
    Tidy (string ++ rest) := by
  have plain (digit : UInt8) : (hexValue digit).isSome = true →
      digit < 0x80 ∧ digit ≠ byte '\n' ∧ digit ≠ byte '"' ∧ digit ≠ byte '\\' := by
    revert digit
    apply octet_forall
    decide
  induction string with
  | nil => exact tidy
  | cons digit string inductionHypothesis =>
      obtain ⟨small, line, quote, backslash⟩ := plain digit (digits digit List.mem_cons_self)
      exact .plain small line quote backslash
        (inductionHypothesis fun other member => digits other (List.mem_cons_of_mem _ member))

theorem hexWord (word : Nat) {rest : Text} (tidy : Tidy rest) : Tidy (hexWord word ++ rest) := by
  have zeros (count : Nat) : ∀ digit ∈ List.replicate count (byte '0'), (hexValue digit).isSome = true := by
    intro digit member
    rw [List.eq_of_mem_replicate member]
    rfl
  have tail := digits (zeros (4 - (hexadecimal word).length)) (digits (hexValue_hexadecimal word) tidy)
  rw [Json.hexWord, List.append_assoc, List.append_assoc]
  exact escape (show byte 'u' < 0x80 by decide) (by decide) tail

theorem hexWords (codepoint : Nat) {rest : Text} (tidy : Tidy rest) : Tidy (hexWords codepoint ++ rest) := by
  rw [Json.hexWords]
  split
  · exact hexWord _ tidy
  · rw [List.append_assoc]
    exact hexWord _ (hexWord _ tidy)

end Tidy

theorem letterEscape_some {char : UInt8} {escape : Text} (known : letterEscape char = some escape) :
    ∃ letter, escape = [byte '\\', letter] ∧ simpleEscape letter = some char ∧ letter < 0x80 ∧
      letter ≠ byte '\n' := by
  have all (char : UInt8) : (letterEscape char).all (fun escape =>
      decide (escape = [byte '\\', escape.getD 1 0] ∧ simpleEscape (escape.getD 1 0) = some char ∧
        escape.getD 1 0 < 0x80 ∧ escape.getD 1 0 ≠ byte '\n')) = true := by
    revert char
    apply octet_forall
    decide
  have one := all char
  rw [known] at one
  exact ⟨escape.getD 1 0, of_decide_eq_true one⟩

/-- The characters that stay as they are. -/
theorem letterEscape_none {char : UInt8} (unknown : letterEscape char = none) :
    char ≠ byte '\n' ∧ char ≠ byte '"' ∧ char ≠ byte '\\' := by
  revert char
  apply octet_forall
  decide

theorem escapeLoop_letter {char : UInt8} {escape : Text} (known : letterEscape char = some escape) (fuel : Nat)
    (rest : Text) : escapeLoop (fuel + 1) (char :: rest) = (escapeLoop fuel rest).map (escape ++ ·) := by
  rw [escapeLoop, known]

theorem escapeLoop_plain {char : UInt8} (unknown : letterEscape char = none) (small : char < 0x80) (fuel : Nat)
    (rest : Text) : escapeLoop (fuel + 1) (char :: rest) = (escapeLoop fuel rest).map (char :: ·) := by
  rw [escapeLoop, unknown]
  exact if_pos small

theorem escapeLoop_words {char : UInt8} (large : 0x80 ≤ char) (fuel : Nat) (rest : Text) :
    escapeLoop (fuel + 1) (char :: rest) =
      match utf16Encode (char :: rest) with
      | (.ok escape, after) => (escapeLoop fuel after).map (escape ++ ·)
      | (.error .failure, _) => .ok []
      | (.error fault, _) => .error fault := by
  have unknown : letterEscape char = none := by
    revert char
    apply octet_forall
    decide
  rw [escapeLoop, unknown]
  exact if_neg (UInt8.not_lt.mpr large)

theorem utf16Encode_words {string escape rest : Text} (ran : utf16Encode string = (.ok escape, rest)) :
    ∃ codepoint, escape = hexWords codepoint := by
  cases string with
  | nil => cases ran
  | cons first string =>
      rw [utf16Encode, run_bind_ok (Read.get_cons _ _)] at ran
      dsimp only at ran
      match decoded : utf8Rest (utf8Start first).1 (utf8Start first).2 string with
      | (.ok codepoint, later) =>
          rw [run_bind_ok decoded] at ran
          cases ran
          exact ⟨codepoint, rfl⟩
      | (.error fault, later) =>
          rw [run_bind_error decoded] at ran
          cases ran

theorem map_ok {first second : Type} {result : Except Fault first} {step : first → second} {value : second}
    (mapped : result.map step = .ok value) : ∃ inner, result = .ok inner ∧ value = step inner := by
  match result with
  | .ok inner =>
      cases mapped
      exact ⟨inner, rfl, rfl⟩
  | .error fault => cases mapped

/-- Escaping leaves no bare quote in any string, also in one that is no UTF-8. -/
theorem escapeLoop_tidy {fuel : Nat} {string escaped : Text} (ran : escapeLoop fuel string = .ok escaped) :
    Tidy escaped := by
  induction fuel generalizing string escaped with
  | zero => cases ran
  | succ fuel inductionHypothesis =>
      match string with
      | [] =>
          cases ran
          exact .nil
      | char :: string =>
          match known : letterEscape char with
          | some escape =>
              rw [escapeLoop_letter known] at ran
              obtain ⟨inner, before, rfl⟩ := map_ok ran
              obtain ⟨letter, rfl, -, small, line⟩ := letterEscape_some known
              exact .escape small line (inductionHypothesis before)
          | none =>
              by_cases small : char < 0x80
              · rw [escapeLoop_plain known small] at ran
                obtain ⟨inner, before, rfl⟩ := map_ok ran
                obtain ⟨line, quote, backslash⟩ := letterEscape_none known
                exact .plain small line quote backslash (inductionHypothesis before)
              · rw [escapeLoop_words (UInt8.not_lt.mp small)] at ran
                match encoded : utf16Encode (char :: string) with
                | (.ok escape, after) =>
                    rw [encoded] at ran
                    obtain ⟨inner, before, rfl⟩ := map_ok ran
                    obtain ⟨codepoint, rfl⟩ := utf16Encode_words encoded
                    exact (inductionHypothesis before).hexWords codepoint
                | (.error fault, after) =>
                    rw [encoded] at ran
                    cases fault <;> cases ran
                    exact .nil

theorem stringEscape_tidy {string escaped : Text} (ran : stringEscape string = .ok escaped) : Tidy escaped :=
  escapeLoop_tidy ran

/-- An item that the loop over the characters of a string writes for a character. -/
structure Writes (char : Char) (item : Item) : Prop where
  isRead : item.IsRead
  bytes : item.bytes = String.utf8EncodeChar char
  text : ∀ (fuel : Nat) (rest : Text), escapeLoop (fuel + 1) (String.utf8EncodeChar char ++ rest) =
    (escapeLoop fuel rest).map (item.text ++ ·)

theorem writes_ascii {char : Char} (small : char.toNat < 0x80) : ∃ item, Writes char item := by
  have bytes := Utf8.encodeChar_one small
  match known : letterEscape (UInt8.ofNat char.toNat) with
  | some escape =>
      obtain ⟨letter, rfl, stands, -⟩ := letterEscape_some known
      refine ⟨.escape letter, by rw [Item.IsRead, stands]; rfl, by rw [Item.bytes, stands, bytes]; rfl, ?_⟩
      intro fuel rest
      rw [bytes, List.singleton_append, escapeLoop_letter known]
      rfl
  | none =>
      obtain ⟨-, quote, backslash⟩ := letterEscape_none known
      have below : UInt8.ofNat char.toNat < 0x80 := by
        rw [UInt8.lt_iff_toNat_lt, UInt8.toNat_ofNat', Nat.mod_eq_of_lt (by omega)]
        exact small
      refine ⟨.char (UInt8.ofNat char.toNat), ⟨quote, backslash⟩, bytes.symm, ?_⟩
      intro fuel rest
      rw [bytes, List.singleton_append, escapeLoop_plain known below]
      rfl

/-- The code point of the two words that `utf16_encode` prints. -/
theorem pairValue_ofNat {rest : Nat} (small : rest < 0x100000) :
    Item.pairValue (HexWord.ofNat (0xD800 + rest / 1024)) (HexWord.ofNat (0xDC00 + rest % 1024)) = 0x10000 + rest := by
  rw [Item.pairValue, HexWord.value_ofNat (by omega), HexWord.value_ofNat (by omega)]
  omega

/-- The two words of a character above the first sixteen bits. -/
theorem hexWords_large {codepoint : Nat} (large : 0x10000 ≤ codepoint) (small : codepoint < 0x110000) :
    hexWords codepoint = hexWord (0xD800 + (codepoint - 0x10000) / 1024) ++
      hexWord (0xDC00 + (codepoint - 0x10000) % 1024) := by
  have joined (mark : Nat) {part : Nat} (ten : part < 2 ^ 10) : 2 ^ 10 * mark ||| part = 2 ^ 10 * mark + part :=
    (Nat.two_pow_add_eq_or_of_lt ten mark).symm
  have mask : codepoint - 0x10000 &&& 0x003FF = (codepoint - 0x10000) % 2 ^ 10 :=
    Nat.and_two_pow_sub_one_eq_mod _ 10
  rw [hexWords, if_neg (by omega)]
  dsimp only
  rw [and_shiftRight _ 10 10 _ rfl, Nat.mod_eq_of_lt (by omega : (codepoint - 0x10000) / 2 ^ 10 < 2 ^ 10), mask,
    show 0xD800 = 2 ^ 10 * 54 by norm_num, show 0xDC00 = 2 ^ 10 * 55 by norm_num, joined 54 (by omega),
    joined 55 (Nat.mod_lt _ (by norm_num)), show 1024 = 2 ^ 10 by norm_num]

theorem writes_words {char : Char} (large : 0x80 ≤ char.toNat) : ∃ item, Writes char item := by
  have bound := Utf8.toNat_lt char
  have scalar := Utf8.toNat_not_surrogate char
  have writes {item : Item} (isRead : item.IsRead) (text : item.text = hexWords char.toNat)
      (bytes : item.bytes = (utf8Encode char.toNat).toOption.getD []) : Writes char item := by
    refine ⟨isRead, by rw [bytes, utf8Encode_char]; rfl, ?_⟩
    intro fuel rest
    have encoded := utf16Encode_char large rest
    obtain ⟨small, -⟩ | ⟨-, length, above⟩ := Utf8.encodeChar_cases char
    · omega
    · match bytes : String.utf8EncodeChar char with
      | [] =>
          rw [bytes] at length
          cases length
      | first :: more =>
          rw [bytes, List.cons_append] at encoded
          rw [List.cons_append, escapeLoop_words (above first (by rw [bytes]; exact List.mem_cons_self)), encoded, text]
  by_cases one : char.toNat < 0x10000
  · have value := HexWord.value_ofNat one
    refine ⟨.unicode (HexWord.ofNat char.toNat), writes ?_ ?_ ?_⟩
    · rw [Item.IsRead, HexWord.isHigh, value]
      omega
    · rw [hexWords, if_pos one, hexWord_ofNat one]
      rfl
    · rw [Item.bytes, value]
  · have pair := pairValue_ofNat (show char.toNat - 0x10000 < 0x100000 by omega)
    have high := HexWord.value_ofNat (show 0xD800 + (char.toNat - 0x10000) / 1024 < 65536 by omega)
    have low := HexWord.value_ofNat (show 0xDC00 + (char.toNat - 0x10000) % 1024 < 65536 by omega)
    refine ⟨.pair (HexWord.ofNat (0xD800 + (char.toNat - 0x10000) / 1024)) (byte '\\') (byte 'u')
      (HexWord.ofNat (0xDC00 + (char.toNat - 0x10000) % 1024)), writes ⟨?_, .inl rfl, ?_, ?_⟩ ?_ ?_⟩
    · rw [HexWord.isHigh, high]
      omega
    · rw [low]
      omega
    · rw [pair]
      omega
    · rw [hexWords_large (by omega) bound, hexWord_ofNat (by omega), hexWord_ofNat (by omega), Item.text]
      simp
    · rw [Item.bytes, pair, Nat.add_sub_of_le (by omega)]

/-- The characters of a string become items in their order. -/
theorem escapeLoop_encode (characters : List Char) :
    ∃ items : List Item, (∀ item ∈ items, item.IsRead) ∧ items.flatMap Item.bytes = Utf8.encode characters ∧
      ∀ fuel, characters.length < fuel → escapeLoop fuel (Utf8.encode characters) = .ok (items.flatMap Item.text) := by
  induction characters with
  | nil =>
      refine ⟨[], by simp, rfl, ?_⟩
      intro fuel enough
      cases fuel with
      | zero => cases enough
      | succ fuel => rfl
  | cons char characters inductionHypothesis =>
      obtain ⟨items, isRead, bytes, escaped⟩ := inductionHypothesis
      obtain ⟨item, writes⟩ : ∃ item, Writes char item := by
        by_cases small : char.toNat < 0x80
        · exact writes_ascii small
        · exact writes_words (by omega)
      refine ⟨item :: items, List.forall_mem_cons.mpr ⟨writes.isRead, isRead⟩, ?_, ?_⟩
      · rw [List.flatMap_cons, writes.bytes, bytes, Utf8.encode_cons]
      · intro fuel enough
        cases fuel with
        | zero => cases enough
        | succ fuel =>
            rw [List.length_cons] at enough
            rw [Utf8.encode_cons, writes.text, escaped fuel (by omega), List.flatMap_cons]
            rfl

/-- Valid UTF-8 is escaped as a row of items that stand for it. -/
theorem stringEscape_items {string : Text} (valid : Utf8.IsValid string) :
    ∃ items : List Item, (∀ item ∈ items, item.IsRead) ∧ items.flatMap Item.bytes = string ∧
      stringEscape string = .ok (items.flatMap Item.text) := by
  obtain ⟨characters, rfl⟩ := valid
  obtain ⟨items, isRead, bytes, escaped⟩ := escapeLoop_encode characters
  exact ⟨items, isRead, bytes, escaped _ (Nat.lt_succ_of_le (Utf8.length_le_encode characters))⟩

/-- Escaping valid UTF-8 returns, and unescaping gives the string back. -/
theorem stringEscape_escapes {string : Text} (valid : Utf8.IsValid string) :
    ∃ escaped, stringEscape string = .ok escaped ∧ Escapes string escaped := by
  obtain ⟨items, isRead, bytes, ran⟩ := stringEscape_items valid
  have tidy := stringEscape_tidy ran
  refine ⟨_, ran, tidy.ascii, tidy.quoted, tidy.line, ?_⟩
  rw [stringUnescape_items isRead, bytes]

theorem stringEscape_escapes_mixed :
    ∃ escaped, stringEscape [byte '"', 0xC3, 0xA9, 0xF0, 0x9F, 0x98, 0x80, 0] = .ok escaped ∧
      Escapes [byte '"', 0xC3, 0xA9, 0xF0, 0x9F, 0x98, 0x80, 0] escaped :=
  stringEscape_escapes ⟨['"', Char.ofNat 0xE9, Char.ofNat 0x1F600, Char.ofNat 0], by decide⟩

end SimpleNFast.Json
