import SimpleNFast.Proof.Json.Literals

namespace SimpleNFast.Json

namespace Outcome

variable {first second : Type}

@[simp] theorem bind_read (value : first) (rest : Text) (next : first → Text → Outcome second) :
    (Outcome.read value rest).bind next = next value rest := rfl

@[simp] theorem bind_ended (next : first → Text → Outcome second) : (Outcome.ended).bind next = .ended := rfl

@[simp] theorem bind_refused (next : first → Text → Outcome second) : (Outcome.refused).bind next = .refused := rfl

end Outcome

section Basic

variable {value : Type}

@[simp] theorem outcome_pure (result : value) (string : Text) :
    outcome (pure result : Lex value) string = .read result string := rfl

@[simp] theorem outcome_getc_nil : outcome Lexer.getc [] = .ended := rfl

@[simp] theorem outcome_getc_cons (char : UInt8) (rest : Text) :
    outcome Lexer.getc (char :: rest) = .read char rest := rfl

@[simp] theorem outcome_ungetc (char : UInt8) (string : Text) :
    outcome (Lexer.ungetc char) string = .read () (char :: string) := rfl

@[simp] theorem outcome_fuel (string : Text) :
    outcome Lexer.fuel string = .read (string.length + 1) string := rfl

@[simp] theorem outcome_parsingError (what string : Text) :
    outcome (Lexer.parsingError what : Lex value) string = .refused := rfl

theorem outcome_ofRead {action : Read value} {string rest : Text} {result : Except Fault value}
    (ran : action string = (result, rest)) :
    outcome (Lexer.ofRead action) string = .of (result, ⟨rest, ⟨1, 0, 0⟩⟩) := by
  change Outcome.of ((action string).1, ⟨(action string).2, _⟩) = _
  rw [ran]
  rfl

end Basic

theorem emit_ne_failure (codepoint : Nat) (rest : Text) : (emit codepoint rest).1 ≠ .error .failure := by
  by_cases small : codepoint ≤ 0x10FFFF
  · rw [emit_small small]
    simp
  · obtain ⟨what, thrown⟩ := emit_large (by omega : 0x10FFFF < codepoint) rest
    rw [thrown]
    simp

/-- Decoding comes to the end of the text when it throws because of it. -/
theorem utf16Decode_empty (string : Text) (failed : (utf16Decode string).1 = .error .failure) :
    (utf16Decode string).2 = [] := by
  obtain ⟨before, letter, first, rest, rfl, began⟩ | ⟨rest, none⟩ | ended := utf16DecodeSeq_cases string
  · by_cases high : first.isHigh
    · rw [utf16Decode_high (utf16DecodeSeq_word began first rest) high] at failed ⊢
      obtain ⟨mark, sign, second, last, rfl, marked⟩ | ⟨last, none⟩ | ended := utf16DecodeSeq_cases rest
      · rw [utf16DecodeSeq_word marked] at failed ⊢
        dsimp only at failed ⊢
        by_cases low : 0xDC00 ≤ second.value
        · rw [if_pos low] at failed
          exact absurd failed (emit_ne_failure _ _)
        · rw [if_neg low] at failed
          cases failed
      · rw [none] at failed
        cases failed
      · rw [ended]
    · rw [utf16Decode_alone (utf16DecodeSeq_word began first rest) high] at failed
      exact absurd failed (emit_ne_failure _ _)
  · rw [utf16Decode, run_bind_ok none] at failed
    cases failed
  · rw [utf16Decode, run_bind_error ended]

/-- The loop over the characters of a string after a backslash. -/
def escapeStep (loop : Lex Text) (letter : UInt8) : Lex Text :=
  if letter = byte 'u' then do
    Lexer.ungetc (byte 'u')
    Lexer.ungetc (byte '\\')
    let bytes ← Lexer.ofRead utf16Decode
    let rest ← loop
    pure (bytes ++ rest)
  else
    match simpleEscape letter with
    | some escaped => do
        let rest ← loop
        pure (escaped :: rest)
    | none => Lexer.parsingError (text "invalid escape sequence")

/-- One pass of the loop over the characters of a string. -/
def stringStep (loop : Lex Text) (char : UInt8) : Lex Text :=
  if char = byte '\\' then Lexer.getc >>= escapeStep loop
  else if char = byte '"' then pure []
  else do
    let rest ← loop
    pure (char :: rest)

theorem getStringLoop_succ (fuel : Nat) :
    Lexer.getStringLoop (fuel + 1) = Lexer.getc >>= stringStep (Lexer.getStringLoop fuel) := rfl

namespace Blind

/-- A loop whose results go behind some bytes. -/
theorem prepend {loop : Lex Text} (blind : Blind loop) (bytes : Text) :
    Blind (do let rest ← loop; Pure.pure (bytes ++ rest)) :=
  bind blind fun _ => pure _

theorem escapeStep {loop : Lex Text} (blind : Blind loop) (letter : UInt8) : Blind (escapeStep loop letter) := by
  rw [Json.escapeStep]
  split
  · refine bind (ungetc _) fun _ => bind (ungetc _) fun _ => ?_
    exact bind (ofRead utf16Decode_empty) fun bytes => blind.prepend bytes
  · split
    · exact blind.prepend [_]
    · exact parsingError _

theorem stringStep {loop : Lex Text} (blind : Blind loop) (char : UInt8) : Blind (stringStep loop char) := by
  rw [Json.stringStep]
  split
  · exact bind getc blind.escapeStep
  · split
    · exact pure _
    · exact blind.prepend [_]

theorem getStringLoop (fuel : Nat) : Blind (Lexer.getStringLoop fuel) := by
  induction fuel with
  | zero => exact throw (by decide)
  | succ fuel inductionHypothesis =>
      rw [getStringLoop_succ]
      exact bind getc inductionHypothesis.stringStep

end Blind

/-- The outcome of a loop whose results go behind some bytes. -/
def Outcome.prepend (bytes : Text) (outcome : Outcome Text) : Outcome Text :=
  outcome.bind fun string rest => .read (bytes ++ string) rest

theorem outcome_prepend (loop : Lex Text) (bytes string : Text) :
    outcome (do let rest ← loop; pure (bytes ++ rest)) string = (outcome loop string).prepend bytes :=
  outcome_bind (fun _ => Blind.pure _) string

section Loop

variable (fuel : Nat) (rest : Text)

theorem outcome_getStringLoop_cons (char : UInt8) :
    outcome (Lexer.getStringLoop (fuel + 1)) (char :: rest) =
      outcome (stringStep (Lexer.getStringLoop fuel) char) rest := by
  rw [getStringLoop_succ, outcome_bind (Blind.getStringLoop fuel).stringStep]
  rfl

theorem outcome_getStringLoop_quote :
    outcome (Lexer.getStringLoop (fuel + 1)) (byte '"' :: rest) = .read [] rest := by
  rw [outcome_getStringLoop_cons]
  rfl

theorem outcome_getStringLoop_plain {char : UInt8} (backslash : char ≠ byte '\\') (quote : char ≠ byte '"') :
    outcome (Lexer.getStringLoop (fuel + 1)) (char :: rest) =
      (outcome (Lexer.getStringLoop fuel) rest).prepend [char] := by
  rw [outcome_getStringLoop_cons, stringStep, if_neg backslash, if_neg quote]
  exact outcome_prepend _ [char] rest

theorem outcome_getStringLoop_backslash :
    outcome (Lexer.getStringLoop (fuel + 1)) [byte '\\'] = .ended := by
  rw [outcome_getStringLoop_cons]
  rfl

theorem outcome_getStringLoop_escape (letter : UInt8) :
    outcome (Lexer.getStringLoop (fuel + 1)) (byte '\\' :: letter :: rest) =
      outcome (escapeStep (Lexer.getStringLoop fuel) letter) rest := by
  rw [outcome_getStringLoop_cons, stringStep, if_pos rfl, outcome_bind (Blind.getStringLoop fuel).escapeStep]
  rfl

theorem outcome_getStringLoop_letter {letter : UInt8} (other : letter ≠ byte 'u') :
    outcome (Lexer.getStringLoop (fuel + 1)) (byte '\\' :: letter :: rest) =
      match simpleEscape letter with
      | some escaped => (outcome (Lexer.getStringLoop fuel) rest).prepend [escaped]
      | none => .refused := by
  rw [outcome_getStringLoop_escape, escapeStep, if_neg other]
  match simpleEscape letter with
  | some escaped => exact outcome_prepend _ [escaped] rest
  | none => rfl

theorem outcome_getStringLoop_word :
    outcome (Lexer.getStringLoop (fuel + 1)) (byte '\\' :: byte 'u' :: rest) =
      (outcome (Lexer.ofRead utf16Decode) (byte '\\' :: byte 'u' :: rest)).bind fun bytes rest =>
        (outcome (Lexer.getStringLoop fuel) rest).prepend bytes := by
  have blind := Blind.getStringLoop fuel
  have decoding : Blind (do
      let bytes ← Lexer.ofRead utf16Decode
      let rest ← Lexer.getStringLoop fuel
      pure (bytes ++ rest)) := Blind.bind (Blind.ofRead utf16Decode_empty) fun bytes => blind.prepend bytes
  rw [outcome_getStringLoop_escape, escapeStep, if_pos rfl,
    outcome_bind fun _ => Blind.bind (Blind.ungetc _) fun _ => decoding, outcome_ungetc, Outcome.bind_read,
    outcome_bind fun _ => decoding, outcome_ungetc, Outcome.bind_read,
    outcome_bind fun bytes => blind.prepend bytes]
  congr 1
  funext bytes rest
  exact outcome_prepend _ bytes rest

end Loop

/-- The loop reads an item and goes on after it. -/
theorem outcome_getStringLoop_item {item : Item} (isRead : item.IsRead) (fuel : Nat) (rest : Text) :
    outcome (Lexer.getStringLoop (fuel + 1)) (item.text ++ rest) =
      (outcome (Lexer.getStringLoop fuel) rest).prepend item.bytes := by
  have words : item.isEscape = true → outcome (Lexer.getStringLoop (fuel + 1)) (item.text ++ rest) =
      (outcome (Lexer.getStringLoop fuel) rest).prepend item.bytes := by
    intro escape
    obtain ⟨tail, split⟩ := Item.text_escape escape
    have decoded := outcome_ofRead (Item.decode escape isRead rest)
    rw [split, List.cons_append, List.cons_append] at decoded ⊢
    rw [outcome_getStringLoop_word, decoded]
    rfl
  cases item with
  | char octet => exact outcome_getStringLoop_plain fuel rest isRead.2 isRead.1
  | escape letter =>
      obtain ⟨escaped, known⟩ := Option.isSome_iff_exists.mp isRead
      have step := outcome_getStringLoop_letter fuel rest (simpleEscape_ne_u isRead)
      rw [known] at step
      rw [Item.bytes, known]
      exact step
  | unicode word => exact words rfl
  | pair first before letter second => exact words rfl

/-- The loop reads the items of a body up to the closing quote. -/
theorem outcome_getStringLoop_items {items : List Item} (isRead : ∀ item ∈ items, item.IsRead) {fuel : Nat}
    (enough : items.length < fuel) (rest : Text) :
    outcome (Lexer.getStringLoop fuel) (items.flatMap Item.text ++ byte '"' :: rest) =
      .read (items.flatMap Item.bytes) rest := by
  induction items generalizing fuel with
  | nil =>
      cases fuel with
      | zero => cases enough
      | succ fuel => exact outcome_getStringLoop_quote fuel rest
  | cons item items inductionHypothesis =>
      cases fuel with
      | zero => cases enough
      | succ fuel =>
          rw [List.length_cons] at enough
          rw [List.flatMap_cons, List.append_assoc, outcome_getStringLoop_item (isRead item List.mem_cons_self),
            inductionHypothesis (fun item member => isRead item (List.mem_cons_of_mem _ member)) (by omega)]
          rfl

theorem Outcome.prepend_read {bytes string rest : Text} {outcome : Outcome Text}
    (read : outcome.prepend bytes = .read string rest) :
    ∃ tail, outcome = .read tail rest ∧ string = bytes ++ tail := by
  obtain ⟨tail, last, ran, same⟩ := Outcome.bind_read_iff.mp read
  injection same with same sameRest
  exact ⟨tail, by rw [ran, sameRest], same.symm⟩

/-- A text begins with an item or with a quote, or the loop is refused, or it comes to the end. -/
theorem getStringLoop_cases (string : Text) :
    (∃ item rest, Item.IsRead item ∧ string = item.text ++ rest) ∨ (∃ rest, string = byte '"' :: rest) ∨
    (∀ fuel, outcome (Lexer.getStringLoop (fuel + 1)) string = .refused) ∨
    ∀ fuel, outcome (Lexer.getStringLoop (fuel + 1)) string = .ended := by
  match string with
  | [] => exact .inr (.inr (.inr fun fuel => rfl))
  | char :: string =>
      by_cases backslash : char = byte '\\'
      · subst backslash
        match string with
        | [] => exact .inr (.inr (.inr outcome_getStringLoop_backslash))
        | letter :: string =>
            by_cases word : letter = byte 'u'
            · subst word
              obtain ⟨item, last, escape, isRead, split⟩ | ⟨what, last, thrown⟩ | ended := utf16Decode_cases string
              · exact .inl ⟨item, last, isRead, split⟩
              · refine .inr (.inr (.inl fun fuel => ?_))
                rw [outcome_getStringLoop_word, outcome_ofRead thrown]
                rfl
              · refine .inr (.inr (.inr fun fuel => ?_))
                rw [outcome_getStringLoop_word, outcome_ofRead ended]
                rfl
            · match known : simpleEscape letter with
              | none =>
                  refine .inr (.inr (.inl fun fuel => ?_))
                  rw [outcome_getStringLoop_letter fuel string word, known]
              | some escaped =>
                  refine .inl ⟨.escape letter, string, ?_, rfl⟩
                  rw [Item.IsRead, known]
                  rfl
      · by_cases quote : char = byte '"'
        · exact .inr (.inl ⟨string, by rw [quote]⟩)
        · exact .inl ⟨.char char, string, ⟨quote, backslash⟩, rfl⟩

/-- What the loop has read is a sequence of items and a closing quote. -/
theorem getStringLoop_read {fuel : Nat} {string content rest : Text}
    (read : outcome (Lexer.getStringLoop fuel) string = .read content rest) :
    ∃ items : List Item, (∀ item ∈ items, item.IsRead) ∧ string = items.flatMap Item.text ++ byte '"' :: rest ∧
      content = items.flatMap Item.bytes := by
  induction fuel generalizing string content with
  | zero => cases read
  | succ fuel inductionHypothesis =>
      obtain ⟨item, last, isRead, rfl⟩ | ⟨last, rfl⟩ | refused | ended := getStringLoop_cases string
      · rw [outcome_getStringLoop_item isRead] at read
        obtain ⟨tail, ran, rfl⟩ := Outcome.prepend_read read
        obtain ⟨items, all, rfl, rfl⟩ := inductionHypothesis ran
        exact ⟨item :: items, List.forall_mem_cons.mpr ⟨isRead, all⟩, by simp, by simp⟩
      · rw [outcome_getStringLoop_quote] at read
        cases read
        exact ⟨[], by simp, rfl, rfl⟩
      · rw [refused] at read
        cases read
      · rw [ended] at read
        cases read

/-- The loop needs no more passes than there are characters. -/
theorem getStringLoop_ne_running {fuel : Nat} {string : Text} (enough : string.length < fuel) :
    outcome (Lexer.getStringLoop fuel) string ≠ .running := by
  induction fuel generalizing string with
  | zero => cases enough
  | succ fuel inductionHypothesis =>
      obtain ⟨item, last, isRead, rfl⟩ | ⟨last, rfl⟩ | refused | ended := getStringLoop_cases string
      · have positive := item.text_length_pos
        rw [List.length_append] at enough
        have later := inductionHypothesis (show last.length < fuel by omega)
        rw [outcome_getStringLoop_item isRead]
        intro running
        match ran : outcome (Lexer.getStringLoop fuel) last with
        | .read value rest =>
            rw [ran] at running
            cases running
        | .ended =>
            rw [ran] at running
            cases running
        | .refused =>
            rw [ran] at running
            cases running
        | .running => exact later ran
      · rw [outcome_getStringLoop_quote]
        simp
      · rw [refused]
        simp
      · rw [ended]
        simp

theorem utf8Encode_length_le (codepoint : Nat) : ((utf8Encode codepoint).toOption.getD []).length ≤ 4 := by
  rw [utf8Encode]
  split
  · exact Nat.zero_le _
  · split
    · exact show 1 ≤ 4 by decide
    · split
      · exact show 2 ≤ 4 by decide
      · split
        · exact show 3 ≤ 4 by decide
        · exact show 4 ≤ 4 by decide

/-- An escape of a word has less bytes than characters. -/
theorem Item.bytes_length_lt {item : Item} (escape : item.isEscape = true) : item.bytes.length < item.text.length := by
  cases item with
  | char octet => cases escape
  | escape letter => cases escape
  | unicode word =>
      have bytes := utf8Encode_length_le word.value
      simp only [Item.bytes, Item.text, List.length_append, List.length_cons, List.length_nil, word.four]
      omega
  | pair first before letter second =>
      have bytes := utf8Encode_length_le (pairValue first second)
      simp only [Item.bytes, Item.text, List.length_append, List.length_cons, List.length_nil, first.four]
      omega

/-- The content after unescaping is the text itself, or it is shorter because there was a backslash. -/
def Shrinks (string content : Text) : Prop :=
  (byte '\\' ∈ string ∧ content.length < string.length) ∨ (byte '\\' ∉ string ∧ content = string)

theorem Shrinks.length_le {string content : Text} (shrinks : Shrinks string content) :
    content.length ≤ string.length := by
  obtain ⟨_, shorter⟩ | ⟨_, rfl⟩ := shrinks
  · exact shorter.le
  · exact le_refl _

/-- Unescaping a text ends, and it throws only for an invalid argument. -/
theorem unescapeLoop_total {fuel : Nat} {string : Text} (enough : string.length < fuel) :
    (∃ content, unescapeLoop fuel string = .ok content ∧ Shrinks string content) ∨
      ∃ what, unescapeLoop fuel string = .error (.invalidArgument what) := by
  induction fuel generalizing string with
  | zero => cases enough
  | succ fuel inductionHypothesis =>
      match string with
      | [] => exact .inl ⟨[], rfl, .inr ⟨by simp, rfl⟩⟩
      | char :: string =>
          rw [List.length_cons] at enough
          by_cases backslash : char = byte '\\'
          · subst backslash
            match string with
            | [] => exact .inl ⟨[], rfl, .inl ⟨by simp, by simp⟩⟩
            | letter :: string =>
                rw [List.length_cons] at enough
                by_cases word : letter = byte 'u'
                · subst word
                  rw [unescapeLoop_word]
                  obtain ⟨item, last, escape, isRead, split⟩ | ⟨what, last, thrown⟩ | ended :=
                    utf16Decode_cases string
                  · have lengths := congrArg List.length split
                    have shorter := Item.bytes_length_lt escape
                    rw [List.length_cons, List.length_cons, List.length_append] at lengths
                    rw [split, Item.decode escape isRead last]
                    dsimp only
                    obtain ⟨content, ran, shrinks⟩ | ⟨what, ran⟩ := inductionHypothesis (show last.length < fuel by omega)
                    · refine .inl ⟨item.bytes ++ content, by rw [ran]; rfl, .inl ⟨by rw [← split]; simp, ?_⟩⟩
                      have bound := shrinks.length_le
                      rw [List.length_append, List.length_append]
                      omega
                    · exact .inr ⟨what, by rw [ran]; rfl⟩
                  · rw [thrown]
                    exact .inr ⟨what, rfl⟩
                  · rw [ended]
                    exact .inl ⟨[], rfl, .inl ⟨by simp, by simp⟩⟩
                · rw [unescapeLoop_letter word]
                  match simpleEscape letter with
                  | none => exact .inr ⟨_, rfl⟩
                  | some escaped =>
                      dsimp only
                      obtain ⟨content, ran, shrinks⟩ | ⟨what, ran⟩ := inductionHypothesis (show string.length < fuel by omega)
                      · refine .inl ⟨escaped :: content, by rw [ran]; rfl, .inl ⟨by simp, ?_⟩⟩
                        have bound := shrinks.length_le
                        rw [List.length_cons, List.length_cons, List.length_cons]
                        omega
                      · exact .inr ⟨what, by rw [ran]; rfl⟩
          · rw [unescapeLoop_plain backslash]
            obtain ⟨content, ran, shrinks⟩ | ⟨what, ran⟩ := inductionHypothesis (show string.length < fuel by omega)
            · refine .inl ⟨char :: content, by rw [ran]; rfl, ?_⟩
              obtain ⟨member, shorter⟩ | ⟨missing, rfl⟩ := shrinks
              · exact .inl ⟨List.mem_cons_of_mem _ member, by simpa using shorter⟩
              · exact .inr ⟨by simp [missing, Ne.symm backslash], rfl⟩
            · exact .inr ⟨what, by rw [ran]; rfl⟩

theorem stringUnescape_total (string : Text) :
    (∃ content, stringUnescape string = .ok content ∧ Shrinks string content) ∨
      ∃ what, stringUnescape string = .error (.invalidArgument what) :=
  unescapeLoop_total (Nat.lt_succ_self _)

end SimpleNFast.Json
