import SimpleNFast.Construction.Http.Transmit
import SimpleNFast.Proof.Http.ScannerSteps

namespace SimpleNFast.Http

open Scanner

/-- A character after a name or a value ends the token and is not a space. -/
structure Delimiter (char : UInt8) : Prop where
  token : isTchar (toInt char) = false
  space : isWhitespace (toInt char) = false

theorem delimiter_semicolon : Delimiter (byte ';') := ⟨by decide, by decide⟩

theorem delimiter_return : Delimiter (byte '\r') := ⟨by decide, by decide⟩

theorem delimiter_equals : Delimiter (byte '=') := ⟨by decide, by decide⟩

variable {before rest : Text} {stop : UInt8}

theorem isWord_tchar {word : Text} (valid : isWord word = true) : ∀ char ∈ word, isTchar (toInt char) = true := by
  rw [isWord, Bool.and_eq_true, List.all_eq_true] at valid
  exact valid.2

theorem isWord_nonempty {word : Text} (valid : isWord word = true) : word ≠ [] := by
  rintro rfl
  cases valid

theorem readToken_word (before : Text) {word : Text} (lower : Bool) (follows : rest ≠ []) (delimiter : Delimiter stop)
    (valid : isWord word = true) :
    Reads true (readToken lower) (between before (word ++ stop :: rest)) (between (before ++ word) (stop :: rest))
      fun read => read ≠ [] := by
  have accepted := readAccepted_stop before follows delimiter.token word (isWord_tchar valid)
  have nonempty := isWord_nonempty valid
  refine ⟨if lower then word.map (toByte ∘ toLower ∘ toInt) else word, ?_, ?_⟩
  · cases lower <;> simp [nonempty]
  · rw [readToken, Scan.bind_ok accepted]
    rfl

/-- A character of obsolete text is in no class of the scanner. -/
theorem obsolete_refused {char : UInt8} (obsolete : QuotedChar.obsolete char = true) :
    isQuoted (toInt char) = false ∧ isEscaped (toInt char) = false := by
  have negative := toInt_neg (of_decide_eq_true obsolete)
  constructor
  · simp only [isQuoted, isWhitespace, isOpaque, code, Bool.or_eq_false_iff, beq_eq_false_iff_ne,
      Bool.and_eq_false_iff, decide_eq_false_iff_not]
    simp only [Char.reduceToNat]
    omega
  · simp only [isEscaped, isWhitespace, isVchar, isOpaque, code, Bool.or_eq_false_iff, beq_eq_false_iff_ne,
      Bool.and_eq_false_iff, decide_eq_false_iff_not]
    simp only [Char.reduceToNat]
    omega

theorem quoted_not_special {char : UInt8} (quoted : isQuoted (toInt char) = true) :
    toInt char ≠ code '"' ∧ toInt char ≠ code '\\' := by
  constructor
  · intro same
    rw [same] at quoted
    exact absurd quoted (by decide)
  · intro same
    rw [same] at quoted
    exact absurd quoted (by decide)

theorem obsolete_not_special {char : UInt8} (obsolete : QuotedChar.obsolete char = true) :
    toInt char ≠ code '"' ∧ toInt char ≠ code '\\' := by
  have negative := toInt_neg (of_decide_eq_true obsolete)
  simp only [code, Char.reduceToNat]
  omega

section Quoted

variable (before : Text) (fuel : Nat) (soFar : Text) {kind : String}

theorem readEnclosed_close :
    readEnclosed '"' isQuoted kind (fuel + 1) soFar (between before (byte '"' :: rest)) =
      .ok (soFar ++ [byte '"'], between (before ++ [byte '"']) rest) := by
  have same : toInt (byte '"') = code '"' := by decide
  rw [readEnclosed, Scan.bind_ok get_cons, same]
  simp only [beq_self_eq_true, if_true]
  rfl

theorem readEnclosed_plain {char : UInt8} (rest : Text) (special : toInt char ≠ code '"' ∧ toInt char ≠ code '\\') :
    readEnclosed '"' isQuoted kind (fuel + 1) soFar (between before (char :: rest)) =
      if isQuoted (toInt char) then
        readEnclosed '"' isQuoted kind fuel (soFar ++ [char]) (between (before ++ [char]) rest)
      else .error (.invalidArgument (text "invalid character '" ++ decimal (toInt char) ++ text "' found in " ++
        text kind ++ text " " ++ soFar)) := by
  rw [readEnclosed, Scan.bind_ok get_cons]
  simp only [beq_iff_eq, special.1, special.2, if_false, toByte_toInt]
  split <;> rfl

theorem readEnclosed_pair {char : UInt8} :
    readEnclosed '"' isQuoted kind (fuel + 1) soFar (between before (byte '\\' :: char :: rest)) =
      if isEscaped (toInt char) then
        readEnclosed '"' isQuoted kind fuel (soFar ++ [byte '\\', char])
          (between (before ++ [byte '\\', char]) rest)
      else .error (.invalidArgument (text "invalid character '" ++ decimal (toInt char) ++ text "' found in " ++
        text kind ++ text " " ++ (soFar ++ [byte '\\']))) := by
  have same : toInt (byte '\\') = code '\\' := by decide
  have other : (code '\\' == code '"') = false := by decide
  have back : toByte (code '\\') = byte '\\' := by decide
  rw [readEnclosed, Scan.bind_ok get_cons, same]
  simp only [other, Bool.false_eq_true, if_false, beq_self_eq_true, if_true]
  have joined : before ++ [byte '\\'] ++ [char] = before ++ [byte '\\', char] := by simp
  rw [Scan.bind_ok get_cons, joined, back, toByte_toInt]
  split <;> rfl

/-- A quoted string is read to its end unless it has obsolete text. -/
theorem readEnclosed_chars (chars : List QuotedChar) (valid : chars.all QuotedChar.valid = true)
    (enough : (chars.flatMap QuotedChar.spelling).length < fuel) :
    Reads (chars.all QuotedChar.ascii) (readEnclosed '"' isQuoted kind fuel soFar)
      (between before (chars.flatMap QuotedChar.spelling ++ byte '"' :: rest))
      (between (before ++ chars.flatMap QuotedChar.spelling ++ [byte '"']) rest) fun _ => True := by
  induction chars generalizing before fuel soFar with
  | nil =>
      obtain ⟨fuel, rfl⟩ : ∃ smaller, fuel = smaller + 1 := ⟨fuel - 1, by simp at enough; omega⟩
      simp only [List.flatMap_nil, List.nil_append, List.append_nil]
      exact Reads.of_ok (readEnclosed_close _ _ _) trivial
  | cons char chars inductionHypothesis =>
      rw [List.all_cons, Bool.and_eq_true] at valid
      cases char with
      | plain char =>
          simp only [List.flatMap_cons, QuotedChar.spelling, List.cons_append, List.nil_append,
            List.length_cons] at enough ⊢
          obtain ⟨fuel, rfl⟩ : ∃ smaller, fuel = smaller + 1 := ⟨fuel - 1, by omega⟩
          have tail := inductionHypothesis (before ++ [char]) fuel (soFar ++ [char]) valid.2 (by omega)
          by_cases obsolete : QuotedChar.obsolete char = true
          · simp only [List.all_cons, QuotedChar.ascii, obsolete, Bool.not_true, Bool.false_and]
            rw [Reads, readEnclosed_plain before fuel soFar _ (obsolete_not_special obsolete),
              (obsolete_refused obsolete).1]
            exact ⟨_, rfl⟩
          · have quoted : isQuoted (toInt char) = true := by
              have either := valid.1
              simp only [QuotedChar.valid, Bool.or_eq_true] at either
              exact either.resolve_left obsolete
            simp only [List.all_cons, QuotedChar.ascii, obsolete, Bool.not_false, Bool.true_and]
            rw [Reads, readEnclosed_plain before fuel soFar _ (quoted_not_special quoted), if_pos quoted]
            rw [List.append_assoc before] at tail
            exact tail
      | pair char =>
          simp only [List.flatMap_cons, QuotedChar.spelling, List.cons_append, List.nil_append,
            List.length_cons] at enough ⊢
          obtain ⟨fuel, rfl⟩ : ∃ smaller, fuel = smaller + 1 := ⟨fuel - 1, by omega⟩
          have tail := inductionHypothesis (before ++ [byte '\\', char]) fuel (soFar ++ [byte '\\', char]) valid.2
            (by omega)
          rw [Reads, readEnclosed_pair]
          by_cases obsolete : QuotedChar.obsolete char = true
          · simp [QuotedChar.ascii, obsolete, (obsolete_refused obsolete).2]
          · have escaped : isEscaped (toInt char) = true := by
              have either := valid.1
              simp only [QuotedChar.valid, Bool.or_eq_true] at either
              exact either.resolve_left obsolete
            simp only [List.all_cons, QuotedChar.ascii, obsolete, Bool.not_false, Bool.true_and]
            rw [if_pos escaped]
            rw [List.append_assoc before] at tail
            exact tail

end Quoted

/-- A value is read to its end unless it has obsolete text. -/
theorem readParameterValue_reads (before : Text) (value : ExtensionValue) (valid : value.valid = true) (follows : rest ≠ [])
    (delimiter : Delimiter stop) :
    Reads value.ascii readParameterValue (between before (value.spelling ++ stop :: rest))
      (between (before ++ value.spelling) (stop :: rest)) fun read => read.isSome = true := by
  cases value with
  | token word =>
      have token := readToken_word before false follows delimiter valid
      obtain ⟨first, tail, rfl⟩ := List.exists_cons_of_ne_nil (isWord_nonempty valid)
      have accepted := isWord_tchar valid first List.mem_cons_self
      have other : (toInt first == code '"') = false := by
        rw [beq_eq_false_iff_ne]
        intro same
        rw [same] at accepted
        exact absurd accepted (by decide)
      rw [readParameterValue, ExtensionValue.spelling, List.cons_append]
      apply Reads.after peek_cons
      simp only [other, accepted, Bool.false_eq_true, if_false, if_true]
      refine Reads.bind token fun read nonempty => ?_
      simp only [List.isEmpty_iff, nonempty, if_false]
      exact Reads.of_ok rfl rfl
  | quoted chars =>
      have same : toInt (byte '"') = code '"' := by decide
      have shape : ExtensionValue.spelling (.quoted chars) ++ stop :: rest =
          byte '"' :: (chars.flatMap QuotedChar.spelling ++ byte '"' :: stop :: rest) := by
        simp [ExtensionValue.spelling]
      have ends : before ++ ExtensionValue.spelling (.quoted chars) =
          before ++ [byte '"'] ++ chars.flatMap QuotedChar.spelling ++ [byte '"'] := by
        simp [ExtensionValue.spelling]
      rw [shape, ends, readParameterValue]
      apply Reads.after peek_cons
      simp only [same, beq_self_eq_true, if_true]
      rw [readQstring, readBetween]
      apply Reads.after get_cons
      simp only [same, bne_self_eq_false, Bool.false_eq_true, if_false]
      apply Reads.after fuel_between
      rw [← Bool.and_true (ExtensionValue.ascii _)]
      refine Reads.bind (readEnclosed_chars _ _ _ chars valid (by simp)) fun found _ => ?_
      exact Reads.of_ok rfl rfl

/-- A value begins with a character that is not a space. -/
theorem value_begins (value : ExtensionValue) (valid : value.valid = true) (stop : UInt8) (rest : Text) :
    ∃ first tail, value.spelling ++ stop :: rest = first :: tail ∧ tail ≠ [] ∧
      isWhitespace (toInt first) = false := by
  cases value with
  | token word =>
      obtain ⟨first, tail, rfl⟩ := List.exists_cons_of_ne_nil (isWord_nonempty valid)
      have accepted := isWord_tchar valid first List.mem_cons_self
      refine ⟨first, tail ++ stop :: rest, rfl, by simp, ?_⟩
      rw [isWhitespace, Bool.or_eq_false_iff, beq_eq_false_iff_ne, beq_eq_false_iff_ne]
      constructor
      all_goals
        intro same
        rw [same] at accepted
        exact absurd accepted (by decide)
  | quoted chars =>
      exact ⟨byte '"', chars.flatMap QuotedChar.spelling ++ byte '"' :: stop :: rest,
        by simp [ExtensionValue.spelling], by simp, by decide⟩

/-- The part of an extension after its semicolon. -/
def Extension.body (extension : Extension) : Text :=
  extension.name ++
    match extension.value with
    | none => []
    | some value => byte '=' :: value.spelling

/-- A parameter is read unless its value is missing or has obsolete text. -/
theorem readParameter_reads (extension : Extension) (follows : rest ≠ []) (delimiter : Delimiter stop)
    (other : toInt stop ≠ code '=') :
    Reads extension.plain readParameter (between before (extension.body ++ stop :: rest))
      (between (before ++ extension.body) (stop :: rest)) fun _ => True := by
  have valid := extension.valid
  rw [Extension.plain, Extension.body, readParameter]
  cases given : extension.value with
  | none =>
      rw [Option.any_none, ← Bool.true_and false, List.append_nil]
      refine Reads.bind (readToken_word before true follows delimiter extension.word) fun name nonempty => ?_
      simp only [List.isEmpty_iff, nonempty, if_false]
      apply Reads.after (readOptSpace_stop follows delimiter.space)
      exact Reads.after (readSpecial_other follows other) (Reads.of_error rfl)
  | some value =>
      rw [given, Option.all_some] at valid
      have equals : toInt (byte '=') = code '=' := by decide
      have ends : before ++ (extension.name ++ byte '=' :: value.spelling) =
          before ++ extension.name ++ [byte '='] ++ value.spelling := by simp
      rw [Option.any_some, ends, ← Bool.true_and value.ascii, List.append_assoc, List.cons_append]
      refine Reads.bind (readToken_word before true (by simp) delimiter_equals extension.word) fun name nonempty => ?_
      simp only [List.isEmpty_iff, nonempty, if_false]
      obtain ⟨first, tail, begins, more, solid⟩ := value_begins value valid stop rest
      have read := readParameterValue_reads (before ++ extension.name ++ [byte '=']) value valid follows
        delimiter
      rw [begins] at read ⊢
      apply Reads.after (readOptSpace_stop (by simp) delimiter_equals.space)
      apply Reads.after (readSpecial_same equals)
      simp only [Bool.not_true, Bool.false_eq_true, if_false]
      apply Reads.after (readOptSpace_stop more solid)
      rw [← Bool.and_true value.ascii]
      refine Reads.bind read fun found present => ?_
      obtain ⟨found, rfl⟩ := Option.isSome_iff_exists.mp present
      exact Reads.of_ok rfl trivial

/-- The parameters after the first semicolon, each with the semicolon before the next one. -/
def extensionBodies : List Extension → Text
  | [] => []
  | [extension] => extension.body
  | extension :: others => extension.body ++ byte ';' :: extensionBodies others

theorem flatMap_spelling (first : Extension) (others : List Extension) :
    (first :: others).flatMap Extension.spelling = byte ';' :: extensionBodies (first :: others) := by
  induction others generalizing first with
  | nil =>
      rw [List.flatMap_cons, List.flatMap_nil, List.append_nil]
      rfl
  | cons second others inductionHypothesis =>
      rw [List.flatMap_cons, inductionHypothesis second]
      rfl

theorem extensionBodies_length (first : Extension) (others : List Extension) :
    others.length < (extensionBodies (first :: others) ++ crlf).length + 1 := by
  induction others generalizing first with
  | nil => exact Nat.succ_pos _
  | cons second others inductionHypothesis =>
      have tail := inductionHypothesis second
      simp only [extensionBodies, List.length_append, List.length_cons] at tail ⊢
      omega

theorem readParametersLoop_reads (before : Text) (first : Extension) (others : List Extension) (fuel : Nat)
    (enough : others.length < fuel) :
    Reads ((first :: others).all Extension.plain) (readParametersLoop fuel)
      (between before (extensionBodies (first :: others) ++ crlf))
      (between (before ++ extensionBodies (first :: others)) crlf) fun _ => True := by
  induction others generalizing before first fuel with
  | nil =>
      obtain ⟨fuel, rfl⟩ : ∃ smaller, fuel = smaller + 1 := ⟨fuel - 1, by simp at enough; omega⟩
      have last : crlf = byte '\r' :: [byte '\n'] := rfl
      rw [List.all_cons, List.all_nil, readParametersLoop, extensionBodies, last]
      refine Reads.bind (readParameter_reads first (by simp) delimiter_return (by decide)) fun read _ => ?_
      apply Reads.after (readOptSpace_stop (by simp) delimiter_return.space)
      exact Reads.after (readSpecial_other (by simp) (by decide)) (Reads.of_ok rfl trivial)
  | cons second others inductionHypothesis =>
      obtain ⟨fuel, rfl⟩ : ∃ smaller, fuel = smaller + 1 := ⟨fuel - 1, by simp at enough; omega⟩
      have tail := inductionHypothesis (before ++ first.body ++ [byte ';']) second fuel
        (by simpa using enough)
      have joined : before ++ first.body ++ [byte ';'] ++ extensionBodies (second :: others) =
          before ++ extensionBodies (first :: second :: others) := by
        simp [extensionBodies]
      rw [joined] at tail
      have shape : extensionBodies (first :: second :: others) ++ crlf =
          first.body ++ byte ';' :: (extensionBodies (second :: others) ++ crlf) := by
        simp [extensionBodies]
      rw [List.all_cons, readParametersLoop, shape]
      refine Reads.bind (readParameter_reads first (by simp [crlf, text]) delimiter_semicolon (by decide)) fun read _ => ?_
      apply Reads.after (readOptSpace_stop (by simp [crlf, text]) delimiter_semicolon.space)
      apply Reads.after (readSpecial_same (by decide))
      simp only [if_true]
      rw [← Bool.and_true (List.all _ _)]
      exact Reads.bind tail fun rest _ => Reads.of_ok rfl trivial

/-- The line before a chunk is accepted when its extensions are plain, and throws otherwise. -/
theorem chunkLine_reads (line : SizeLine) (small : line.count < 2 ^ 63) :
    Reads line.plain StreamSource.chunkLine (Scanner.init line.spelling) (between line.spelling [])
      fun read => read.1 = line.count := by
  have nonempty := line.nonempty
  have fits : ¬ 2 ^ 63 ≤ number 16 line.size := Nat.not_le.mpr small
  have sized (stop : UInt8) (rest : Text) (follows : rest ≠ []) (refused : isXdigit (toInt stop) = false) :
      readChunkSize (between [] (line.size ++ stop :: rest)) =
        .ok (some line.count, between line.size (stop :: rest)) := by
    have read := readAccepted_stop [] follows refused line.size line.hexadecimal
    rw [readChunkSize, Scan.bind_ok read]
    simp only [List.isEmpty_iff, nonempty, if_false, fits, List.nil_append]
    rfl
  rw [init_eq, SizeLine.spelling, SizeLine.plain, StreamSource.chunkLine]
  cases extensions : line.extensions with
  | nil =>
      have read := sized (byte '\r') [byte '\n'] (by simp) (by decide)
      have shape : line.size ++ List.flatMap Extension.spelling [] ++ crlf = line.size ++ byte '\r' :: [byte '\n'] := by
        simp [crlf, text]
      rw [List.all_nil, shape]
      apply Reads.after read
      apply Reads.after (readSpecial_other (by simp) (by decide))
      simp only [Bool.false_eq_true, if_false, pure_bind]
      exact Reads.after readCrlf_crlf (Reads.of_ok rfl rfl)
  | cons first others =>
      have read := sized (byte ';') (extensionBodies (first :: others) ++ crlf) (by simp [crlf, text]) (by decide)
      have shape : line.size ++ List.flatMap Extension.spelling (first :: others) ++ crlf =
          line.size ++ byte ';' :: (extensionBodies (first :: others) ++ crlf) := by
        rw [flatMap_spelling, List.append_assoc, List.cons_append]
      have ends : line.size ++ byte ';' :: (extensionBodies (first :: others) ++ crlf) =
          line.size ++ [byte ';'] ++ extensionBodies (first :: others) ++ crlf := by simp
      have parameters := readParametersLoop_reads (line.size ++ [byte ';']) first others
        ((extensionBodies (first :: others) ++ crlf).length + 1) (extensionBodies_length first others)
      rw [shape]
      apply Reads.after read
      apply Reads.after (readSpecial_same (by decide))
      simp only [if_true]
      rw [ends, ← Bool.and_true (List.all _ _)]
      have read : Reads ((first :: others).all Extension.plain) (some <$> readParameters)
          (between (line.size ++ [byte ';']) (extensionBodies (first :: others) ++ crlf))
          (between (line.size ++ [byte ';'] ++ extensionBodies (first :: others)) crlf) fun _ => True := by
        rw [map_eq_pure_bind, readParameters, ← Bool.and_true (List.all _ _), bind_assoc]
        apply Reads.after fuel_between
        exact Reads.bind parameters fun _ _ => Reads.of_ok rfl trivial
      exact Reads.bind read fun _ _ => Reads.after readCrlf_crlf (Reads.of_ok rfl rfl)

end SimpleNFast.Http
