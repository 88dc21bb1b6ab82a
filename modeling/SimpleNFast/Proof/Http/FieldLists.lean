import SimpleNFast.Construction.Http.RequestHead
import SimpleNFast.Proof.Http.SizeLines

namespace SimpleNFast.Http

open Scanner

variable {before rest : Text} {stop : UInt8}

theorem isLowerWord_word {word : Text} (valid : isLowerWord word = true) : isWord word = true := by
  rw [isLowerWord, Bool.and_eq_true] at valid
  exact valid.1

theorem isLowerWord_lower {word : Text} (valid : isLowerWord word = true) :
    word.map (toByte ∘ toLower ∘ toInt) = word := by
  rw [isLowerWord, Bool.and_eq_true, isLowerCase, beq_iff_eq] at valid
  exact valid.2

/-- The reader keeps the names of parameters in lower case. -/
def Params.Kept (parameters : Params) : Prop :=
  ∀ parameter ∈ parameters, isLowerWord parameter.1 = true ∧ IsParameterValue parameter.2

structure Token.Kept (token : Token) : Prop where
  name : isLowerWord token.name = true
  parameters : Params.Kept token.parameters

/-- A word begins with a character that is not a space. -/
theorem isWord_begins {word : Text} (valid : isWord word = true) :
    ∃ first tail, word = first :: tail ∧ isWhitespace (toInt first) = false := by
  obtain ⟨first, tail, rfl⟩ := List.exists_cons_of_ne_nil (isWord_nonempty valid)
  have accepted := isWord_tchar valid first List.mem_cons_self
  refine ⟨first, tail, rfl, ?_⟩
  rw [isWhitespace, Bool.or_eq_false_iff, beq_eq_false_iff_ne, beq_eq_false_iff_ne]
  constructor
  all_goals
    intro same
    rw [same] at accepted
    exact absurd accepted (by decide)

/-- The text behind a word ends the scan of the word, and its first character can be put back. -/
inductive Ends (accepts : Int → Bool) : Text → Prop where
  | nothing : Ends accepts []
  | stop {char : UInt8} {rest : Text} (refused : accepts (toInt char) = false) (follows : rest ≠ []) :
      Ends accepts (char :: rest)

theorem readAccepted_ends (before : Text) {accepts : Int → Bool} {tail : Text} (refused : accepts (-1) = false)
    (ends : Ends accepts tail) (word : Text) (accepted : ∀ char ∈ word, accepts (toInt char) = true) :
    readAccepted accepts (between before (word ++ tail)) = .ok (word, between (before ++ word) tail) := by
  cases ends with
  | nothing =>
      rw [List.append_nil]
      exact readAccepted_end before refused word accepted
  | stop other follows => exact readAccepted_stop before follows other word accepted

theorem readToken_ends (before : Text) {tail : Text} (ends : Ends isTchar tail) (lower : Bool) (word : Text)
    (accepted : ∀ char ∈ word, isTchar (toInt char) = true) :
    readToken lower (between before (word ++ tail)) =
      .ok (if lower then word.map (toByte ∘ toLower ∘ toInt) else word, between (before ++ word) tail) := by
  rw [readToken, Scan.bind_ok (readAccepted_ends before (by decide) ends word accepted)]
  rfl

theorem readToken_lower (before : Text) {tail : Text} (ends : Ends isTchar tail) {word : Text}
    (valid : isLowerWord word = true) :
    readToken true (between before (word ++ tail)) = .ok (word, between (before ++ word) tail) := by
  rw [readToken_ends before ends true word (isWord_tchar (isLowerWord_word valid)), if_pos rfl,
    isLowerWord_lower valid]

theorem readString_lower (before string : Text) {tail : Text} (ends : Ends isTchar tail) {word : Text}
    (valid : isLowerWord word = true) :
    readString string (between before (word ++ tail)) = .ok (word, between (before ++ word) tail) := by
  have nonempty := isWord_nonempty (isLowerWord_word valid)
  rw [readString, Scan.bind_ok (readToken_lower before ends valid)]
  simp only [List.isEmpty_iff, nonempty, if_false]
  rfl

/-- There is no token at the end of the string. -/
theorem readString_end (before string : Text) : ∃ fault, readString string (between before []) = .error fault := by
  have read := readToken_ends before (.nothing : Ends isTchar []) true [] (by simp)
  rw [List.append_nil] at read
  rw [readString, Scan.bind_ok read]
  exact ⟨_, rfl⟩

theorem accepted_of_ascii {char : UInt8} {accepts : Bool} (valid : (QuotedChar.obsolete char || accepts) = true)
    (ascii : (!QuotedChar.obsolete char) = true) : accepts = true := by
  rw [Bool.not_eq_true'] at ascii
  rwa [ascii, Bool.false_or] at valid

/-- A quoted string of ASCII characters is read as it stands. -/
theorem readEnclosed_ascii (before soFar : Text) {kind : String} (chars : List QuotedChar) (fuel : Nat)
    (valid : chars.all QuotedChar.valid = true) (ascii : chars.all QuotedChar.ascii = true)
    (enough : (chars.flatMap QuotedChar.spelling).length < fuel) :
    readEnclosed '"' isQuoted kind fuel soFar
        (between before (chars.flatMap QuotedChar.spelling ++ byte '"' :: rest)) =
      .ok (soFar ++ chars.flatMap QuotedChar.spelling ++ [byte '"'],
        between (before ++ chars.flatMap QuotedChar.spelling ++ [byte '"']) rest) := by
  induction chars generalizing before fuel soFar with
  | nil =>
      obtain ⟨fuel, rfl⟩ : ∃ smaller, fuel = smaller + 1 := ⟨fuel - 1, by simp at enough; omega⟩
      simp only [List.flatMap_nil, List.nil_append, List.append_nil]
      exact readEnclosed_close _ _ _
  | cons char chars inductionHypothesis =>
      rw [List.all_cons, Bool.and_eq_true] at valid ascii
      cases char with
      | plain char =>
          simp only [List.flatMap_cons, QuotedChar.spelling, List.cons_append, List.nil_append,
            List.length_cons] at enough ⊢
          obtain ⟨fuel, rfl⟩ : ∃ smaller, fuel = smaller + 1 := ⟨fuel - 1, by omega⟩
          have quoted : isQuoted (toInt char) = true :=
            accepted_of_ascii valid.1 ascii.1
          rw [readEnclosed_plain before fuel soFar _ (quoted_not_special quoted), if_pos quoted,
            inductionHypothesis (before ++ [char]) (soFar ++ [char]) fuel valid.2 ascii.2 (by omega)]
          simp
      | pair char =>
          simp only [List.flatMap_cons, QuotedChar.spelling, List.cons_append, List.nil_append,
            List.length_cons] at enough ⊢
          obtain ⟨fuel, rfl⟩ : ∃ smaller, fuel = smaller + 1 := ⟨fuel - 1, by omega⟩
          have escaped : isEscaped (toInt char) = true :=
            accepted_of_ascii valid.1 ascii.1
          rw [readEnclosed_pair, if_pos escaped,
            inductionHypothesis (before ++ [byte '\\', char]) (soFar ++ [byte '\\', char]) fuel valid.2 ascii.2
              (by omega)]
          simp

/-- A delimiter behind a value: the end of the string, or a semicolon or a comma with more behind it. -/
inductive ValueEnds : Text → Prop where
  | nothing : ValueEnds []
  | semicolon {rest : Text} (follows : rest ≠ []) : ValueEnds (byte ';' :: rest)
  | comma {rest : Text} (follows : rest ≠ []) : ValueEnds (byte ',' :: rest)

theorem ValueEnds.ends {tail : Text} (ends : ValueEnds tail) : Ends isTchar tail := by
  cases ends with
  | nothing => exact .nothing
  | semicolon follows => exact .stop (by decide) follows
  | comma follows => exact .stop (by decide) follows

theorem ValueEnds.readOptSpace {tail : Text} (ends : ValueEnds tail) :
    readOptSpace (between before tail) = .ok ((), between before tail) := by
  cases ends with
  | nothing => exact readOptSpace_end
  | semicolon follows => exact readOptSpace_stop follows (by decide)
  | comma follows => exact readOptSpace_stop follows (by decide)

theorem IsParameterValue.nonempty {value : Text} (valid : IsParameterValue value) : value ≠ [] := by
  obtain ⟨form, formed, _, rfl⟩ := valid
  cases form with
  | token word => exact isWord_nonempty formed
  | quoted chars => simp [ExtensionValue.spelling]

theorem IsParameterValue.begins {value : Text} (valid : IsParameterValue value) :
    ∃ first tail, value = first :: tail ∧ isWhitespace (toInt first) = false := by
  obtain ⟨form, formed, _, rfl⟩ := valid
  cases form with
  | token word => exact isWord_begins formed
  | quoted chars => exact ⟨byte '"', _, rfl, by decide⟩

/-- A value that is read from its first character on. -/
theorem readParameterValue_value (before : Text) {value tail : Text} (valid : IsParameterValue value)
    (ends : Ends isTchar tail) :
    readParameterValue (between before (value ++ tail)) = .ok (some value, between (before ++ value) tail) := by
  obtain ⟨form, formed, ascii, rfl⟩ := valid
  cases form with
  | token word =>
      have token := readToken_ends before ends false word (isWord_tchar formed)
      have nonempty := isWord_nonempty formed
      obtain ⟨first, others, rfl⟩ := List.exists_cons_of_ne_nil nonempty
      have accepted := isWord_tchar formed first List.mem_cons_self
      have other : (toInt first == code '"') = false := by
        rw [beq_eq_false_iff_ne]
        intro same
        rw [same] at accepted
        exact absurd accepted (by decide)
      rw [ExtensionValue.spelling, readParameterValue, List.cons_append, Scan.bind_ok peek_cons]
      simp only [other, accepted, Bool.false_eq_true, if_false, if_true]
      rw [← List.cons_append, Scan.bind_ok token]
      rfl
  | quoted chars =>
      have same : toInt (byte '"') = code '"' := by decide
      have shape : ExtensionValue.spelling (.quoted chars) ++ tail =
          byte '"' :: (chars.flatMap QuotedChar.spelling ++ byte '"' :: tail) := by
        simp [ExtensionValue.spelling]
      have ends : before ++ ExtensionValue.spelling (.quoted chars) =
          before ++ [byte '"'] ++ chars.flatMap QuotedChar.spelling ++ [byte '"'] := by
        simp [ExtensionValue.spelling]
      have opening : toByte (code '"') = byte '"' := by decide
      rw [shape, ends, readParameterValue, Scan.bind_ok peek_cons]
      simp only [same, beq_self_eq_true, if_true]
      rw [readQstring, readBetween, Scan.bind_ok get_cons]
      simp only [same, bne_self_eq_false, Bool.false_eq_true, if_false, opening]
      rw [Scan.bind_ok fuel_between, Scan.bind_ok (readEnclosed_ascii _ _ chars _ formed ascii (by simp))]
      simp only [ExtensionValue.spelling, List.append_assoc, List.cons_append, List.nil_append]
      rfl

section Parameters

variable {name value tail : Text}

/-- A parameter is read where its value has a second character or something follows it. -/
theorem readParameter_value (before : Text) (word : isLowerWord name = true) (valid : IsParameterValue value)
    (ends : Ends isTchar tail) (long : 2 ≤ value.length ∨ tail ≠ []) :
    readParameter (between before (name ++ byte '=' :: (value ++ tail))) =
      .ok ((name, value), between (before ++ (name ++ byte '=' :: value)) tail) := by
  have equals : toInt (byte '=') = code '=' := by decide
  have nonempty := isWord_nonempty (isLowerWord_word word)
  obtain ⟨first, others, begins, solid⟩ := valid.begins
  have follows : value ++ tail ≠ [] := by simp [begins]
  have more : others ++ tail ≠ [] := by
    intro nothing
    obtain ⟨none, last⟩ := List.append_eq_nil_iff.1 nothing
    rw [begins, none] at long
    simp [last] at long
  have read := readParameterValue_value (before ++ name ++ [byte '=']) valid ends
  rw [readParameter, Scan.bind_ok (readToken_lower before (.stop (by decide) follows) word)]
  simp only [List.isEmpty_iff, nonempty, if_false]
  rw [Scan.bind_ok (readOptSpace_stop follows (by decide)), Scan.bind_ok (readSpecial_same equals)]
  simp only [Bool.not_true, Bool.false_eq_true, if_false]
  rw [begins, List.cons_append] at read ⊢
  rw [Scan.bind_ok (readOptSpace_stop more solid), Scan.bind_ok read]
  simp only [List.append_assoc, List.singleton_append]
  rfl

/-- A value of a single character at the end of the string is lost. -/
theorem readParameter_lost (before : Text) (word : isLowerWord name = true) (valid : IsParameterValue value)
    (short : value.length = 1) :
    ∃ fault, readParameter (between before (name ++ byte '=' :: value)) = .error fault := by
  have equals : toInt (byte '=') = code '=' := by decide
  have nonempty := isWord_nonempty (isLowerWord_word word)
  obtain ⟨first, others, rfl, solid⟩ := valid.begins
  obtain rfl : others = [] := by simpa using short
  rw [readParameter, Scan.bind_ok (readToken_lower before (.stop (by decide) (by simp)) word)]
  simp only [List.isEmpty_iff, nonempty, if_false]
  rw [Scan.bind_ok (readOptSpace_stop (by simp) (by decide)), Scan.bind_ok (readSpecial_same equals)]
  simp only [Bool.not_true, Bool.false_eq_true, if_false]
  rw [Scan.bind_ok (readOptSpace_lost solid)]
  have none : readParameterValue (between (before ++ name ++ [byte '='] ++ [first]) []) =
      .ok (none, between (before ++ name ++ [byte '='] ++ [first]) []) := by
    rw [readParameterValue, Scan.bind_ok peek_nil]
    rfl
  rw [Scan.bind_ok none]
  exact ⟨_, rfl⟩

end Parameters

/-- The text behind an element of a list: nothing, or a comma with more behind it. -/
inductive ElementEnds : Text → Prop where
  | nothing : ElementEnds []
  | comma {rest : Text} (follows : rest ≠ []) : ElementEnds (byte ',' :: rest)

theorem ElementEnds.value {tail : Text} (ends : ElementEnds tail) : ValueEnds tail := by
  cases ends with
  | nothing => exact .nothing
  | comma follows => exact .comma follows

theorem ElementEnds.readSemicolon {tail : Text} (ends : ElementEnds tail) :
    readSpecial ';' (between before tail) = .ok (false, between before tail) := by
  cases ends with
  | nothing => exact readSpecial_end (by decide)
  | comma follows => exact readSpecial_other follows (by decide)

/-- The parameters behind the first semicolon. -/
def Params.bodies : Params → Text
  | [] => []
  | (name, value) :: parameters => name ++ byte '=' :: (value ++ Params.str parameters)

theorem Params.str_cons {parameter : Text × Text} {parameters : Params}
    (valid : Params.Kept (parameter :: parameters)) :
    Params.str (parameter :: parameters) = byte ';' :: Params.bodies (parameter :: parameters) := by
  obtain ⟨name, value⟩ := parameter
  have nonempty : value ≠ [] := (valid (name, value) List.mem_cons_self).2.nonempty
  simp [Params.str, Params.bodies, nonempty]

theorem Params.length_le_str (parameters : Params) : parameters.length ≤ (Params.str parameters).length := by
  induction parameters with
  | nil => exact Nat.zero_le _
  | cons parameter parameters inductionHypothesis =>
      simp only [Params.str, List.flatMap_cons, List.length_append, List.length_cons] at inductionHypothesis ⊢
      omega

theorem Params.bodies_ne_nil {parameter : Text × Text} {parameters : Params} :
    Params.bodies (parameter :: parameters) ≠ [] := by
  simp [Params.bodies]

/-- The parameters of a token are read, unless the string ends with a value of a single character. -/
theorem readParametersLoop_values (before : Text) {tail : Text} (ends : ElementEnds tail) (parameter : Text × Text)
    (parameters : Params) (fuel : Nat) (valid : Params.Kept (parameter :: parameters))
    (enough : parameters.length < fuel) :
    Reads (!(tail.isEmpty && Params.endsShort (parameter :: parameters))) (readParametersLoop fuel)
      (between before (Params.bodies (parameter :: parameters) ++ tail))
      (between (before ++ Params.bodies (parameter :: parameters)) tail)
      fun read => read = parameter :: parameters := by
  induction parameters generalizing before parameter fuel with
  | nil =>
      obtain ⟨fuel, rfl⟩ : ∃ smaller, fuel = smaller + 1 := ⟨fuel - 1, by simp at enough; omega⟩
      obtain ⟨name, value⟩ := parameter
      obtain ⟨word, formed⟩ := valid (name, value) List.mem_cons_self
      have shape : Params.bodies [(name, value)] = name ++ byte '=' :: value := by simp [Params.bodies, Params.str]
      have text : Params.bodies [(name, value)] ++ tail = name ++ byte '=' :: (value ++ tail) := by
        simp [Params.bodies, Params.str]
      by_cases lost : tail = [] ∧ value.length = 1
      · obtain ⟨rfl, short⟩ := lost
        obtain ⟨fault, failed⟩ := readParameter_lost before word formed short
        have flag : Params.endsShort [(name, value)] = true := by simp [Params.endsShort, short]
        rw [flag, List.append_nil, shape, readParametersLoop]
        exact Reads.of_error (Scan.bind_error failed)
      · have flag : (!(tail.isEmpty && Params.endsShort [(name, value)])) = true := by
          rw [Bool.not_eq_true', Bool.and_eq_false_iff, List.isEmpty_eq_false_iff]
          by_cases last : tail = []
          · right
            simpa [Params.endsShort, last] using lost
          · exact Or.inl last
        have long : 2 ≤ value.length ∨ tail ≠ [] := by
          have positive : 0 < value.length := List.length_pos_iff.2 formed.nonempty
          by_contra neither
          exact lost ⟨by_contra fun some => neither (Or.inr some), by omega⟩
        rw [flag, text, readParametersLoop]
        apply Reads.after (readParameter_value before word formed ends.value.ends long)
        rw [← shape]
        apply Reads.after ends.value.readOptSpace
        exact Reads.after ends.readSemicolon (Reads.of_ok rfl rfl)
  | cons second others inductionHypothesis =>
      obtain ⟨fuel, rfl⟩ : ∃ smaller, fuel = smaller + 1 := ⟨fuel - 1, by simp at enough; omega⟩
      obtain ⟨name, value⟩ := parameter
      obtain ⟨word, formed⟩ := valid (name, value) List.mem_cons_self
      have later : Params.Kept (second :: others) := fun parameter member =>
        valid parameter (List.mem_cons_of_mem _ member)
      have shape : Params.bodies ((name, value) :: second :: others) =
          name ++ byte '=' :: (value ++ byte ';' :: Params.bodies (second :: others)) := by
        rw [← Params.str_cons later]
        rfl
      have text : Params.bodies ((name, value) :: second :: others) ++ tail =
          name ++ byte '=' :: (value ++ byte ';' :: (Params.bodies (second :: others) ++ tail)) := by
        simp [shape]
      have joined : before ++ (name ++ byte '=' :: value) ++ [byte ';'] ++ Params.bodies (second :: others) =
          before ++ Params.bodies ((name, value) :: second :: others) := by
        simp [shape]
      have follows : Params.bodies (second :: others) ++ tail ≠ [] := by simp [Params.bodies_ne_nil]
      have rest := inductionHypothesis (before ++ (name ++ byte '=' :: value) ++ [byte ';']) second fuel later
        (by simpa using enough)
      rw [joined] at rest
      rw [text, readParametersLoop]
      apply Reads.after (readParameter_value before word formed (.stop (by decide) follows) (Or.inr (by simp)))
      apply Reads.after (readOptSpace_stop follows (by decide))
      apply Reads.after (readSpecial_same (by decide))
      have flag : Params.endsShort ((name, value) :: second :: others) = Params.endsShort (second :: others) := by
        simp [Params.endsShort]
      rw [flag, ← Bool.and_true (!_)]
      refine Reads.bind rest fun read same => ?_
      subst same
      exact Reads.of_ok rfl rfl

/-- A token is read with its parameters, unless the string ends with a value of a single character. -/
theorem readTokenValue_reads (before string : Text) {tail : Text} (ends : ElementEnds tail) {token : Token}
    (valid : token.Kept) :
    Reads (!(tail.isEmpty && Params.endsShort token.parameters)) (readTokenValue string)
      (between before (token.str ++ tail)) (between (before ++ token.str) tail) fun read => read = token := by
  obtain ⟨name, parameters⟩ := token
  obtain ⟨word, formed⟩ := valid
  cases parameters with
  | nil =>
      have shape : Token.str ⟨name, []⟩ = name := by simp [Token.str, Params.str]
      have flag : (!(tail.isEmpty && Params.endsShort [])) = true := by simp [Params.endsShort]
      rw [flag, shape, readTokenValue]
      apply Reads.after (readString_lower before string ends.value.ends word)
      apply Reads.after ends.value.readOptSpace
      exact Reads.after ends.readSemicolon (Reads.of_ok rfl rfl)
  | cons parameter parameters =>
      have shape : Token.str ⟨name, parameter :: parameters⟩ =
          name ++ byte ';' :: Params.bodies (parameter :: parameters) := by
        rw [← Params.str_cons formed]
        rfl
      have text : Token.str ⟨name, parameter :: parameters⟩ ++ tail =
          name ++ byte ';' :: (Params.bodies (parameter :: parameters) ++ tail) := by simp [shape]
      have joined : before ++ name ++ [byte ';'] ++ Params.bodies (parameter :: parameters) =
          before ++ Token.str ⟨name, parameter :: parameters⟩ := by simp [shape]
      have follows : Params.bodies (parameter :: parameters) ++ tail ≠ [] := by simp [Params.bodies_ne_nil]
      have enough : parameters.length < (Params.bodies (parameter :: parameters) ++ tail).length + 1 := by
        have short := Params.length_le_str parameters
        simp only [Params.bodies, List.length_append, List.length_cons]
        omega
      have loop := readParametersLoop_values (before ++ name ++ [byte ';']) ends parameter parameters _ formed enough
      rw [joined] at loop
      rw [text, readTokenValue]
      apply Reads.after (readString_lower before string (.stop (by decide) follows) word)
      apply Reads.after (readOptSpace_stop follows (by decide))
      apply Reads.after (readSpecial_same (by decide))
      simp only [if_true]
      rw [← Bool.and_true (!_)]
      have read : Reads (!(tail.isEmpty && Params.endsShort (parameter :: parameters))) readParameters
          (between (before ++ name ++ [byte ';']) (Params.bodies (parameter :: parameters) ++ tail))
          (between (before ++ Token.str ⟨name, parameter :: parameters⟩) tail)
          fun read => read = parameter :: parameters := by
        rw [readParameters]
        exact Reads.after fuel_between loop
      refine Reads.bind read fun read same => ?_
      subst same
      exact Reads.of_ok rfl rfl

section Lists

variable {element : Type} {read : Scan element} {spell : element → Text} {fine : element → Bool}

/-- An element is read from its text in a list, and there is no element in an empty text. -/
structure Lists (read : Scan element) (spell : element → Text) (fine : element → Bool) (values : List element) :
    Prop where
  begins : ∀ value ∈ values, ∃ first tail, spell value = first :: tail ∧ isWhitespace (toInt first) = false
  reads : ∀ value ∈ values, ∀ before tail, ElementEnds tail →
    Reads (!(tail.isEmpty && !fine value)) read (between before (spell value ++ tail))
      (between (before ++ spell value) tail) fun found => found = value
  nothing : ∀ before, ∃ fault, read (between before []) = .error fault

theorem Lists.tail {value : element} {values : List element} (lists : Lists read spell fine (value :: values)) :
    Lists read spell fine values where
  begins value member := lists.begins value (List.mem_cons_of_mem _ member)
  reads value member := lists.reads value (List.mem_cons_of_mem _ member)
  nothing := lists.nothing

/-- The text of a list goes on behind its first character, unless this is all it has. -/
theorem listed_cons {text : Text} {first : UInt8} {tail : Text} (begins : text = first :: tail) (texts : List Text) :
    ∃ more, Field.listed (text :: texts) = first :: more ∧ (more = [] ↔ tail = [] ∧ texts = []) := by
  subst begins
  cases texts with
  | nil => exact ⟨tail, by simp [Field.listed], by simp⟩
  | cons second texts =>
      refine ⟨_, by rw [Field.listed, List.intercalate_cons_cons, List.cons_append, List.cons_append], ?_⟩
      simp [SimpleNFast.text]

/-- A list is read, unless it ends with a single character behind a comma or with an element that is not fine. -/
theorem parseList_reads (before : Text) (value : element) (values : List element) (fuel : Nat)
    (lists : Lists read spell fine (value :: values)) (enough : values.length < fuel) :
    Reads (!endsAlone ((value :: values).map spell) && (value :: values).getLast?.all fine) (parseList read fuel)
      (between before (Field.listed ((value :: values).map spell)))
      (between (before ++ Field.listed ((value :: values).map spell)) []) fun found => found = value :: values := by
  induction values generalizing before value fuel with
  | nil =>
      obtain ⟨fuel, rfl⟩ : ∃ smaller, fuel = smaller + 1 := ⟨fuel - 1, by simp at enough; omega⟩
      have item := lists.reads value List.mem_cons_self before [] .nothing
      have shape : Field.listed ([value].map spell) = spell value := by simp [Field.listed]
      have flag : (!endsAlone ([value].map spell) && [value].getLast?.all fine) = (fine value && true) := by
        simp [endsAlone]
      rw [List.append_nil] at item
      rw [flag, shape, parseList]
      refine Reads.bind (by simpa using item) fun found same => ?_
      subst same
      apply Reads.after readOptSpace_end
      exact Reads.after (readSpecial_end (by decide)) (Reads.of_ok rfl rfl)
  | cons second values inductionHypothesis =>
      obtain ⟨fuel, rfl⟩ : ∃ smaller, fuel = smaller + 1 := ⟨fuel - 1, by simp at enough; omega⟩
      have shape : Field.listed ((value :: second :: values).map spell) =
          spell value ++ byte ',' :: byte ' ' :: Field.listed ((second :: values).map spell) := by
        simp [Field.listed, List.intercalate_cons_cons, text]
      have item : Reads true read
          (between before (spell value ++ byte ',' :: byte ' ' :: Field.listed ((second :: values).map spell)))
          (between (before ++ spell value) (byte ',' :: byte ' ' :: Field.listed ((second :: values).map spell)))
          fun found => found = value :=
        lists.reads value List.mem_cons_self before _ (.comma (by simp))
      obtain ⟨first, tail, begins, solid⟩ := lists.begins second (by simp)
      obtain ⟨more, listed, last⟩ : ∃ more, Field.listed ((second :: values).map spell) = first :: more ∧
          (more = [] ↔ tail = [] ∧ values.map spell = []) := listed_cons begins (values.map spell)
      rw [shape, parseList, ← Bool.true_and (!_ && _)]
      refine Reads.bind item fun found same => ?_
      subst same
      apply Reads.after (readOptSpace_stop (by simp) (by decide))
      apply Reads.after (readSpecial_same (by decide))
      simp only [if_true]
      by_cases lost : more = []
      · obtain ⟨rfl, none⟩ := last.1 lost
        obtain rfl : values = [] := List.map_eq_nil_iff.1 none
        obtain ⟨fault, failed⟩ := lists.nothing (before ++ spell found ++ [byte ','] ++ [byte ' ', first])
        obtain ⟨fuel, rfl⟩ : ∃ smaller, fuel = smaller + 1 := ⟨fuel - 1, by simp at enough; omega⟩
        have flag : endsAlone ([found, second].map spell) = true := by simp [endsAlone, begins]
        rw [flag, show Field.listed ([second].map spell) = [first] by simp [Field.listed, begins]]
        apply Reads.after (readOptSpace_space_lost solid)
        rw [parseList]
        exact Reads.of_error (Scan.bind_error (Scan.bind_error failed))
      · have flag : endsAlone ((found :: second :: values).map spell) = endsAlone ((second :: values).map spell) := by
          cases values with
          | nil =>
              have long : tail ≠ [] := fun none => lost (last.2 ⟨none, rfl⟩)
              simp [endsAlone, begins, long]
          | cons third values => simp [endsAlone]
        have rest := inductionHypothesis (before ++ spell found ++ [byte ','] ++ [byte ' ']) second fuel lists.tail
          (by simpa using enough)
        rw [listed] at rest
        rw [flag, List.getLast?_cons_cons, listed, ← Bool.and_true (!_ && _)]
        apply Reads.after (readOptSpace_space lost solid)
        have joined : before ++ spell found ++ [byte ','] ++ [byte ' '] ++ first :: more =
            before ++ (spell found ++ byte ',' :: byte ' ' :: first :: more) := by simp
        rw [joined] at rest
        refine Reads.bind rest fun others same => ?_
        subst same
        exact Reads.of_ok rfl rfl

theorem length_le_listed (text : Text) (texts : List Text) : texts.length ≤ (Field.listed (text :: texts)).length := by
  induction texts generalizing text with
  | nil => exact Nat.zero_le _
  | cons second texts inductionHypothesis =>
      have tail := inductionHypothesis second
      rw [Field.listed] at tail ⊢
      rw [List.intercalate_cons_cons]
      simp only [List.length_append, List.length_cons, SimpleNFast.text, List.length_map, String.length_toList] at tail ⊢
      have separator : (", " : String).length = 2 := by decide
      omega

/-- The functions `parse` of a list take it back from its text, or they throw. -/
theorem parseAll_reads (values : List element) (lists : Lists read spell fine values) :
    if !endsAlone (values.map spell) && values.getLast?.all fine then
      parseAll read (Field.listed (values.map spell)) = .ok values
    else ∃ fault, parseAll read (Field.listed (values.map spell)) = .error fault := by
  cases values with
  | nil => simp [endsAlone, Field.listed, parseAll]
  | cons value values =>
      obtain ⟨first, tail, begins, _⟩ := lists.begins value List.mem_cons_self
      obtain ⟨more, listed, _⟩ := listed_cons begins (values.map spell)
      have filled : (Field.listed ((value :: values).map spell)).isEmpty = false := by
        rw [List.map_cons, listed]
        rfl
      have enough := length_le_listed (spell value) (values.map spell)
      rw [List.length_map, ← List.map_cons] at enough
      have outcome := parseList_reads [] value values _ lists (Nat.lt_add_one_of_le enough)
      rw [parseAll, filled, init_eq]
      rw [Reads] at outcome
      simp only [Bool.false_eq_true, if_false]
      by_cases good : (!endsAlone ((value :: values).map spell) && (value :: values).getLast?.all fine) = true
      · rw [if_pos good] at outcome ⊢
        obtain ⟨found, rfl, run⟩ := outcome
        rw [run]
        rfl
      · rw [if_neg good] at outcome ⊢
        obtain ⟨fault, failed⟩ := outcome
        rw [failed]
        exact ⟨fault, rfl⟩

end Lists

/-- A list of words is read from its text, unless its last word is a single character behind a comma. -/
theorem parseStrings_reads (values : List Text) (valid : ∀ value ∈ values, isLowerWord value = true) :
    if !endsAlone values then parseStrings (Field.listed values) = .ok values
    else ∃ fault, parseStrings (Field.listed values) = .error fault := by
  have lists : Lists (readString (Field.listed values)) id (fun _ => true) values :=
    { begins := fun value member => isWord_begins (isLowerWord_word (valid value member))
      reads := fun value member before tail ends => by
        rw [Bool.not_true, Bool.and_false, Bool.not_false]
        exact Reads.of_ok (readString_lower before _ ends.value.ends (valid value member)) rfl
      nothing := fun before => readString_end before _ }
  have outcome := parseAll_reads values lists
  rw [List.map_id] at outcome
  have last : values.getLast?.all (fun _ => true) = true := by cases values.getLast? <;> rfl
  rw [last, Bool.and_true] at outcome
  exact outcome

theorem parseTokens_reads (codings : List Token) (valid : ∀ coding ∈ codings, coding.Kept) :
    if !endsAlone (codings.map Token.str) && !codings.getLast?.any fun coding => Params.endsShort coding.parameters then
      parseTokens (Field.listed (codings.map Token.str)) = .ok codings
    else ∃ fault, parseTokens (Field.listed (codings.map Token.str)) = .error fault := by
  have lists : Lists (readTokenValue (Field.listed (codings.map Token.str))) Token.str
      (fun coding => !Params.endsShort coding.parameters) codings :=
    { begins := fun coding member => by
        obtain ⟨first, tail, begins, solid⟩ := isWord_begins (isLowerWord_word (valid coding member).name)
        exact ⟨first, tail ++ Params.str coding.parameters, by rw [Token.str, begins, List.cons_append], solid⟩
      reads := fun coding member before tail ends => by
        rw [Bool.not_not]
        exact readTokenValue_reads before _ ends (valid coding member)
      nothing := fun before => by
        obtain ⟨fault, failed⟩ := readString_end before (Field.listed (codings.map Token.str))
        exact ⟨fault, Scan.bind_error failed⟩ }
  have outcome := parseAll_reads codings lists
  have last : codings.getLast?.all (fun coding => !Params.endsShort coding.parameters) =
      !codings.getLast?.any fun coding => Params.endsShort coding.parameters := by
    cases codings.getLast? <;> rfl
  rw [last] at outcome
  exact outcome

end SimpleNFast.Http
