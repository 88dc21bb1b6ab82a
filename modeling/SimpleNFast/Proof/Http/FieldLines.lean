import SimpleNFast.Proof.Http.FieldLists
import SimpleNFast.Proof.Text

set_option maxRecDepth 100000

namespace SimpleNFast.Http

open Scanner

variable {before rest : Text}

/-- A character that a header line keeps. -/
def inLine (char : UInt8) : Bool := toInt char != -1 && toInt char != code '\r' && toInt char != code '\n'

/-- A text that `read_all` takes from a line as it stands. -/
structure Solid (value : Text) : Prop where
  kept : ∀ char ∈ value, inLine char = true
  first : ∀ char, value.head? = some char → isSpace (toInt char) = false
  last : ∀ char, value.getLast? = some char → isSpace (toInt char) = false

theorem Solid.nil : Solid [] where
  kept _ member := by cases member
  first _ begins := by cases begins
  last _ ends := by cases ends

/-- The two ends of a text of two parts are those of the parts. -/
theorem Solid.append {left middle right : Text} (begins : Solid left) (ends : Solid right) (some : left ≠ [])
    (other : right ≠ []) (kept : ∀ char ∈ middle, inLine char = true) : Solid (left ++ (middle ++ right)) where
  kept char member := by
    rw [List.mem_append, List.mem_append] at member
    obtain early | inside | late := member
    · exact begins.kept char early
    · exact kept char inside
    · exact ends.kept char late
  first char first := by
    rw [List.head?_append_of_ne_nil _ some] at first
    exact begins.first char first
  last char last := by
    rw [List.getLast?_append_of_ne_nil _ (by simp [other]), List.getLast?_append_of_ne_nil _ other] at last
    exact ends.last char last

theorem Solid.of_all {value : Text} (kept : ∀ char ∈ value, inLine char = true ∧ isSpace (toInt char) = false) :
    Solid value where
  kept char member := (kept char member).1
  first char begins := (kept char (List.mem_of_mem_head? begins)).2
  last char ends := (kept char (List.mem_of_mem_getLast? ends)).2

theorem tchar_solid : ∀ char, isTchar (toInt char) = true → inLine char = true ∧ isSpace (toInt char) = false := by
  apply octet_forall
  decide

theorem Solid.of_word {word : Text} (valid : isWord word = true) : Solid word :=
  .of_all fun char member => tchar_solid char (isWord_tchar valid char member)

theorem digit_solid : ∀ char, isDigit (toInt char) = true → inLine char = true ∧ isSpace (toInt char) = false := by
  apply octet_forall
  decide

theorem Solid.of_digits (value : Nat) : Solid (digits 10 value) :=
  .of_all fun char member => digit_solid char (isDigit_digits value char member)

theorem quoted_inLine : ∀ char, isQuoted (toInt char) = true → inLine char = true := by
  apply octet_forall
  decide

theorem escaped_inLine : ∀ char, isEscaped (toInt char) = true → inLine char = true := by
  apply octet_forall
  decide

theorem Solid.of_value {value : Text} (valid : IsParameterValue value) : Solid value := by
  obtain ⟨form, formed, ascii, rfl⟩ := valid
  cases form with
  | token word => exact .of_word formed
  | quoted chars =>
      have quote : Solid [byte '"'] := .of_all (List.forall_mem_singleton.2 (by decide))
      rw [ExtensionValue.spelling, List.append_assoc]
      refine quote.append quote (by simp) (by simp) ?_
      intro char member
      obtain ⟨form, inside, part⟩ := List.mem_flatMap.1 member
      have accepted := List.all_eq_true.1 formed form inside
      have plain := List.all_eq_true.1 ascii form inside
      cases form with
      | plain other =>
          rw [List.mem_singleton.1 part]
          exact quoted_inLine other (accepted_of_ascii accepted plain)
      | pair other =>
          simp only [QuotedChar.spelling, List.mem_cons, List.not_mem_nil, or_false] at part
          obtain rfl | rfl := part
          · decide
          · exact escaped_inLine _ (accepted_of_ascii accepted plain)

theorem Solid.parameters {head : Text} (solid : Solid head) (some : head ≠ []) {parameters : Params}
    (valid : Params.Kept parameters) : Solid (head ++ Params.str parameters) := by
  induction parameters generalizing head with
  | nil =>
      rw [Params.str, List.flatMap_nil, List.append_nil]
      exact solid
  | cons parameter parameters inductionHypothesis =>
      obtain ⟨name, value⟩ := parameter
      obtain ⟨word, formed⟩ := valid (name, value) List.mem_cons_self
      have shape : head ++ Params.str ((name, value) :: parameters) =
          (head ++ ((byte ';' :: name ++ [byte '=']) ++ value)) ++ Params.str parameters := by
        have nonempty : value ≠ [] := formed.nonempty
        simp [Params.str, nonempty]
      have first : Solid (head ++ ((byte ';' :: name ++ [byte '=']) ++ value)) := by
        refine solid.append (.of_value formed) some formed.nonempty ?_
        intro char member
        simp only [List.cons_append, List.mem_cons, List.mem_append, List.not_mem_nil, or_false] at member
        obtain rfl | inside | rfl := member
        · decide
        · exact (tchar_solid char (isWord_tchar (isLowerWord_word word) char inside)).1
        · decide
      rw [shape]
      exact inductionHypothesis first (by simp [some]) fun parameter member =>
        valid parameter (List.mem_cons_of_mem _ member)

/-- A list of solid texts is solid. -/
theorem Solid.listed {texts : List Text} (solid : ∀ text ∈ texts, Solid text ∧ text ≠ []) :
    Solid (Field.listed texts) := by
  induction texts with
  | nil => exact .nil
  | cons text texts inductionHypothesis =>
      obtain ⟨begins, some⟩ := solid text List.mem_cons_self
      cases texts with
      | nil =>
          rw [Field.listed, List.intercalate_singleton]
          exact begins
      | cons second texts =>
          have tail := inductionHypothesis fun other member => solid other (List.mem_cons_of_mem _ member)
          obtain ⟨char, others, filled⟩ := List.exists_cons_of_ne_nil (solid second (by simp)).2
          obtain ⟨more, listed, _⟩ := listed_cons filled texts
          rw [Field.listed, List.intercalate_cons_cons, List.append_assoc]
          refine begins.append tail some ?_ (List.all_eq_true.1 (by decide))
          show Field.listed (second :: texts) ≠ []
          rw [listed]
          exact List.cons_ne_nil _ _

theorem Solid.words {values : List Text} (valid : ∀ value ∈ values, isLowerWord value = true) :
    Solid (Field.listed values) :=
  .listed fun value member =>
    ⟨.of_word (isLowerWord_word (valid value member)), isWord_nonempty (isLowerWord_word (valid value member))⟩

theorem Solid.tokens {codings : List Token} (valid : ∀ coding ∈ codings, coding.Kept) :
    Solid (Field.listed (codings.map Token.str)) := by
  refine .listed fun text member => ?_
  obtain ⟨coding, inside, rfl⟩ := List.mem_map.1 member
  have word := isLowerWord_word (valid coding inside).name
  have some := isWord_nonempty word
  exact ⟨(Solid.of_word word).parameters some (valid coding inside).parameters, by simp [Token.str, some]⟩

theorem trim_solid {value : Text} (solid : Solid value) : trim value = value := by
  have begins : value.dropWhile (isSpace ∘ toInt) = value := by
    cases value with
    | nil => rfl
    | cons char value =>
        rw [List.dropWhile_cons, if_neg]
        simpa using solid.first char rfl
  have ends : value.reverse.dropWhile (isSpace ∘ toInt) = value.reverse := by
    cases reversed : value.reverse with
    | nil => rfl
    | cons char others =>
        rw [List.dropWhile_cons, if_neg]
        have last : value.getLast? = some char := by rw [← List.head?_reverse, reversed, List.head?_cons]
        simpa using solid.last char last
  rw [trim, begins, ends, List.reverse_reverse]

/-- The rest of a line is read up to its terminator. -/
theorem readAllLoop_line (before : Text) (value : Text) (kept : ∀ char ∈ value, inLine char = true) (fuel : Nat)
    (enough : value.length < fuel) (follows : rest ≠ []) :
    readAllLoop fuel (between before (value ++ byte '\r' :: rest)) =
      .ok (value, between (before ++ value) (byte '\r' :: rest)) := by
  induction value generalizing before fuel with
  | nil =>
      obtain ⟨fuel, rfl⟩ : ∃ smaller, fuel = smaller + 1 := ⟨fuel - 1, by simp at enough; omega⟩
      have same : toInt (byte '\r') = code '\r' := by decide
      rw [readAllLoop, List.nil_append, Scan.bind_ok get_cons, same, List.append_nil]
      simp only [beq_self_eq_true, Bool.true_or, if_true]
      rw [Scan.bind_ok (unget_snoc follows)]
      rfl
  | cons char value inductionHypothesis =>
      obtain ⟨fuel, rfl⟩ : ∃ smaller, fuel = smaller + 1 := ⟨fuel - 1, by simp at enough; omega⟩
      have tail := inductionHypothesis (before ++ [char]) (fun next member => kept next (List.mem_cons_of_mem _ member))
        fuel (by simpa using enough)
      have inside := kept char List.mem_cons_self
      simp only [inLine, Bool.and_eq_true, bne_iff_ne, ne_eq] at inside
      rw [readAllLoop, List.cons_append, Scan.bind_ok get_cons]
      simp only [inside, beq_iff_eq, if_false, Bool.or_eq_true, or_self]
      rw [Scan.bind_ok tail, toByte_toInt, List.append_assoc before]
      rfl

theorem readAll_line (before : Text) {value : Text} (solid : Solid value) (follows : rest ≠ []) :
    readAll (between before (value ++ byte '\r' :: rest)) =
      .ok (value, between (before ++ value) (byte '\r' :: rest)) := by
  rw [readAll, Scan.bind_ok fuel_between,
    Scan.bind_ok (readAllLoop_line before value solid.kept _ (by simp) follows), trim_solid solid]
  rfl

theorem lower_upper : ∀ char : UInt8, toByte (toLower (toInt (toByte (toUpper (toInt char))))) =
    toByte (toLower (toInt char)) := by
  apply octet_forall
  decide

theorem tchar_upper : ∀ char : UInt8, isTchar (toInt (toByte (toUpper (toInt char)))) = isTchar (toInt char) := by
  apply octet_forall
  decide

/-- The capitals of a canonical name are lost when it is read. -/
theorem canonicalizeName_lower (name : Text) (capitalize : Bool) :
    (Headers.canonicalizeName name capitalize).map (toByte ∘ toLower ∘ toInt) =
      name.map (toByte ∘ toLower ∘ toInt) := by
  induction name generalizing capitalize with
  | nil => rfl
  | cons char name inductionHypothesis =>
      rw [Headers.canonicalizeName, List.map_cons, List.map_cons, inductionHypothesis]
      congr 1
      cases capitalize with
      | true => exact lower_upper char
      | false => rfl

theorem canonicalizeName_tchar {name : Text} (accepted : ∀ char ∈ name, isTchar (toInt char) = true)
    (capitalize : Bool) : ∀ char ∈ Headers.canonicalizeName name capitalize, isTchar (toInt char) = true := by
  induction name generalizing capitalize with
  | nil => simp [Headers.canonicalizeName]
  | cons char name inductionHypothesis =>
      intro other member
      rw [Headers.canonicalizeName, List.mem_cons] at member
      obtain rfl | later := member
      · cases capitalize with
        | true => exact (tchar_upper char).trans (accepted char List.mem_cons_self)
        | false => exact accepted char List.mem_cons_self
      · exact inductionHypothesis (fun next inside => accepted next (List.mem_cons_of_mem _ inside)) _ other later

theorem not_whitespace_of_not_space : ∀ char, isSpace (toInt char) = false → isWhitespace (toInt char) = false := by
  apply octet_forall
  decide

/-- A header line yields its name in lower case and its value. -/
theorem readLine_line {name value : Text} (word : isLowerWord name = true) (solid : Solid value) :
    ∃ later, Headers.readLine (Scanner.init (Headers.canonicalizeName name true ++ text ": " ++ value ++ text "\r\n")) =
      .ok ((name, value), later) := by
  have accepted := isWord_tchar (isLowerWord_word word)
  have nonempty := isWord_nonempty (isLowerWord_word word)
  have colon : toInt (byte ':') = code ':' := by decide
  have terminator : text "\r\n" = [byte '\r', byte '\n'] := rfl
  have separator : text ": " = [byte ':', byte ' '] := rfl
  have shape : Headers.canonicalizeName name true ++ text ": " ++ value ++ text "\r\n" =
      Headers.canonicalizeName name true ++ byte ':' :: byte ' ' :: (value ++ [byte '\r', byte '\n']) := by
    simp [terminator, separator]
  have ends : Ends isTchar (byte ':' :: byte ' ' :: (value ++ [byte '\r', byte '\n'])) := .stop (by decide) (by simp)
  have token := readToken_ends [] ends true _ (canonicalizeName_tchar accepted true)
  rw [if_pos rfl, canonicalizeName_lower, isLowerWord_lower word, List.nil_append] at token
  have space : readOptSpace (between (Headers.canonicalizeName name true ++ [byte ':'])
      (byte ' ' :: (value ++ [byte '\r', byte '\n']))) =
        .ok ((), between (Headers.canonicalizeName name true ++ [byte ':'] ++ [byte ' '])
          (value ++ [byte '\r', byte '\n'])) := by
    cases value with
    | nil => exact readOptSpace_space (by simp) (by decide)
    | cons first value =>
        exact readOptSpace_space (by simp) (not_whitespace_of_not_space first (solid.first first rfl))
  refine ⟨between (Headers.canonicalizeName name true ++ [byte ':'] ++ [byte ' '] ++ value ++ text "\r\n") [], ?_⟩
  rw [shape, init_eq, Headers.readLine, Scan.bind_ok token]
  simp only [List.isEmpty_iff, nonempty, if_false]
  rw [Scan.bind_ok (readSpecial_same colon)]
  simp only [Bool.not_true, Bool.false_eq_true, if_false]
  rw [Scan.bind_ok space, Scan.bind_ok (readAll_line _ solid (by simp)),
    Scan.bind_ok (readOptSpace_stop (by simp) (by decide))]
  rw [← terminator, Scan.bind_ok readCrlf_crlf]
  rfl

theorem parseNumber_digits {value : Nat} (small : value < 2 ^ 64) : parseNumber (digits 10 value) = .ok value := by
  have all : (digits 10 value).all (isDigit ∘ toInt) = true := List.all_eq_true.2 (isDigit_digits value)
  have filled : (digits 10 value).isEmpty = false := by simpa using digits_ne_nil value
  rw [parseNumber, all, filled, number_digits]
  simp only [Bool.not_true, Bool.false_eq_true, if_false, Nat.not_le.mpr small]

/-- The validators of lists accept words of several characters only. -/
theorem words_of_validator {validator : Text → Except Fault Unit} {values : List Text}
    (accepts : ∀ value ∈ values, isLowerWord value = true ∧ value.length ≠ 1 ∧ validator value = .ok ()) :
    parseStrings (Field.listed values) = .ok values ∧ values.forM validator = .ok () := by
  have alone : endsAlone values = false := by
    rw [endsAlone, Bool.and_eq_false_iff]
    right
    cases last : values.getLast? with
    | none => rfl
    | some value => simpa using (accepts value (List.mem_of_mem_getLast? last)).2.1
  have read := parseStrings_reads values fun value member => (accepts value member).1
  rw [alone, Bool.not_false, if_pos rfl] at read
  refine ⟨read, ?_⟩
  clear read alone
  induction values with
  | nil => rfl
  | cons value values inductionHypothesis =>
      have tail := inductionHypothesis fun other member => accepts other (List.mem_cons_of_mem _ member)
      have first := (accepts value List.mem_cons_self).2.2
      show (validator value).bind (fun _ => values.forM validator) = .ok ()
      rw [first]
      exact tail

theorem validConnection_word {option : Text} (valid : validConnection option = .ok ()) :
    isLowerWord option = true ∧ option.length ≠ 1 := by
  rw [validConnection] at valid
  split at valid
  case isTrue member =>
    simp only [List.mem_cons, List.not_mem_nil, or_false] at member
    obtain rfl | rfl | rfl := member <;> exact ⟨by decide, by decide⟩
  case isFalse => cases valid

theorem validEncoding_word {coding : Text} (valid : validEncoding coding = .ok ()) :
    isLowerWord coding = true ∧ coding.length ≠ 1 := by
  rw [validEncoding] at valid
  split at valid
  case isTrue member =>
    simp only [List.map_cons, List.map_nil, List.mem_cons, List.not_mem_nil, or_false] at member
    obtain rfl | rfl | rfl | rfl | rfl := member <;> exact ⟨by decide, by decide⟩
  case isFalse => cases valid

namespace Field

/-- A well-formed field as the reader keeps it. -/
def Kept : Field → Prop
  | .contentLength length => length < 2 ^ 64
  | .transferEncoding codings | .te codings => ∀ coding ∈ codings, coding.Kept
  | .trailers names => ∀ name ∈ names, isLowerWord name = true
  | .host value => value.port < 2 ^ 16
  | .connection options => ∀ option ∈ options, validConnection option = .ok ()
  | .contentEncoding codings => ∀ coding ∈ codings, validEncoding coding = .ok ()
  | .other name values _ => isLowerWord name = true ∧ ∀ value ∈ values, isLowerWord value = true
  | .via _ | .contentType _ | .contentLocation _ | .date _ => False

theorem WellFormed.kept {field : Field} (valid : field.WellFormed) (lower : field.isLowerCase = true) : field.Kept := by
  have words {values : List Text} (valid : ∀ value ∈ values, isWord value = true)
      (lower : values.all Http.isLowerCase = true) : ∀ value ∈ values, isLowerWord value = true := fun value member => by
    rw [isLowerWord, valid value member, List.all_eq_true.1 lower value member]
    rfl
  have tokens {codings : List Token} (valid : ∀ coding ∈ codings, coding.WellFormed)
      (lower : codings.all Token.isLowerCase = true) : ∀ coding ∈ codings, coding.Kept := fun coding member => by
    have cased := List.all_eq_true.1 lower coding member
    rw [Token.isLowerCase, Bool.and_eq_true] at cased
    refine ⟨?_, fun parameter inside => ⟨?_, ((valid coding member).parameters parameter inside).2⟩⟩
    · rw [isLowerWord, (valid coding member).name, cased.1]
      rfl
    · rw [isLowerWord, ((valid coding member).parameters parameter inside).1, List.all_eq_true.1 cased.2 parameter inside]
      rfl
  cases field with
  | transferEncoding codings => exact tokens valid lower
  | te codings => exact tokens valid lower
  | trailers names => exact words valid lower
  | other name values unknown => exact ⟨valid.1, words valid.2 lower⟩
  | _ => exact valid

theorem validate_contentLength (value : Text) : validate CONTENT_LENGTH value = .contentLength <$> parseNumber value := by
  rw [validate, dif_neg (by decide), if_pos rfl]

theorem validate_transferEncoding (value : Text) :
    validate TRANSFER_ENCODING value = .transferEncoding <$> parseTokens value := by
  rw [validate, dif_neg (by decide), if_neg (by decide), if_pos rfl]

theorem validate_te (value : Text) : validate TE value = .te <$> parseTokens value := by
  rw [validate, dif_neg (by decide), if_neg (by decide), if_neg (by decide), if_pos rfl]

theorem validate_trailers (value : Text) : validate TRAILERS value = .trailers <$> parseStrings value := by
  rw [validate, dif_neg (by decide), if_neg (by decide), if_neg (by decide), if_neg (by decide), if_pos rfl]

theorem validate_host (value : Text) : validate HOST value = .host <$> parseHostPort value := by
  rw [validate, dif_neg (by decide), if_neg (by decide), if_neg (by decide), if_neg (by decide),
    if_neg (by decide), if_pos rfl]

theorem validate_connection (value : Text) : validate CONNECTION value = (do
    let options ← parseStrings value
    options.forM validConnection
    pure (.connection options)) := by
  rw [validate, dif_neg (by decide), if_neg (by decide), if_neg (by decide), if_neg (by decide),
    if_neg (by decide), if_neg (by decide), if_neg (by decide), if_pos rfl]

theorem validate_contentEncoding (value : Text) : validate CONTENT_ENCODING value = (do
    let codings ← parseStrings value
    codings.forM validEncoding
    pure (.contentEncoding codings)) := by
  rw [validate, dif_neg (by decide), if_neg (by decide), if_neg (by decide), if_neg (by decide),
    if_neg (by decide), if_neg (by decide), if_neg (by decide), if_neg (by decide), if_neg (by decide), if_pos rfl]

theorem validate_other {name : Text} (unknown : name ∉ knownNames) (value : Text) :
    validate name value = (Field.other name · unknown) <$> parseStrings value := by
  rw [validate, dif_pos unknown]

theorem outcome_map {value result : Type} {good : Bool} {parsed : Except Fault value} {read : value}
    (wrap : value → result) (outcome : if good then parsed = .ok read else ∃ fault, parsed = .error fault) :
    if good then wrap <$> parsed = .ok (wrap read) else ∃ fault, wrap <$> parsed = .error fault := by
  cases good with
  | true =>
      rw [if_pos rfl] at outcome ⊢
      rw [outcome]
      rfl
  | false =>
      rw [if_neg Bool.false_ne_true] at outcome ⊢
      obtain ⟨fault, failed⟩ := outcome
      rw [failed]
      exact ⟨fault, rfl⟩

/-- Each field other than the host is read from its text, or the text is refused. -/
theorem validate_reads {field : Field} (valid : field.Kept) (other : field.name ≠ HOST) :
    if field.isWhole then validate field.name field.str = .ok field
    else ∃ fault, validate field.name field.str = .error fault := by
  cases field with
  | contentLength length =>
      show validate CONTENT_LENGTH (digits 10 length) = .ok (.contentLength length)
      rw [validate_contentLength, parseNumber_digits valid]
      rfl
  | transferEncoding codings =>
      have outcome := outcome_map Field.transferEncoding (parseTokens_reads codings valid)
      rw [← validate_transferEncoding] at outcome
      exact outcome
  | te codings =>
      have outcome := outcome_map Field.te (parseTokens_reads codings valid)
      rw [← validate_te] at outcome
      exact outcome
  | trailers names =>
      have outcome := outcome_map Field.trailers (parseStrings_reads names valid)
      rw [← validate_trailers] at outcome
      exact outcome
  | host value => exact absurd rfl other
  | connection options =>
      obtain ⟨read, checked⟩ := words_of_validator fun option member =>
        ⟨(validConnection_word (valid option member)).1, (validConnection_word (valid option member)).2, valid option member⟩
      show validate CONNECTION (listed options) = .ok (.connection options)
      rw [validate_connection, read]
      show (options.forM validConnection).bind _ = _
      rw [checked]
      rfl
  | contentEncoding codings =>
      obtain ⟨read, checked⟩ := words_of_validator fun coding member =>
        ⟨(validEncoding_word (valid coding member)).1, (validEncoding_word (valid coding member)).2, valid coding member⟩
      show validate CONTENT_ENCODING (listed codings) = .ok (.contentEncoding codings)
      rw [validate_contentEncoding, read]
      show (codings.forM validEncoding).bind _ = _
      rw [checked]
      rfl
  | other name values unknown =>
      have outcome := outcome_map (Field.other name · unknown) (parseStrings_reads values valid.2)
      rw [← validate_other] at outcome
      exact outcome
  | via _ | contentType _ | contentLocation _ | date _ => exact valid.elim

/-- The text of a field is solid, whatever its host is. -/
theorem str_solid {field : Field} (valid : field.Kept) (other : field.name ≠ HOST) : Solid field.str := by
  cases field with
  | contentLength length => exact .of_digits length
  | transferEncoding codings => exact .tokens valid
  | te codings => exact .tokens valid
  | trailers names => exact .words valid
  | host value => exact absurd rfl other
  | connection options => exact .words fun option member => (validConnection_word (valid option member)).1
  | contentEncoding codings => exact .words fun coding member => (validEncoding_word (valid coding member)).1
  | other name values unknown => exact .words valid.2
  | via _ | contentType _ | contentLocation _ | date _ => exact valid.elim

theorem knownNames_word : ∀ name ∈ knownNames, isLowerWord name = true := by decide

theorem name_word {field : Field} (valid : field.Kept) : isLowerWord field.name = true := by
  cases field with
  | other name values unknown => exact valid.1
  | via _ | contentType _ | contentLocation _ | date _ => exact valid.elim
  | _ => exact knownNames_word _ (by simp [name, knownNames])

end Field

end SimpleNFast.Http
