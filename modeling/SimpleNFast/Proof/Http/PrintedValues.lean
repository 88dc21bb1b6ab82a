import SimpleNFast.Construction.Http.ListGrammar
import SimpleNFast.Proof.Http.ListReading
import SimpleNFast.Proof.Http.LowerCase

set_option maxRecDepth 100000

namespace SimpleNFast.Http

open Scanner

theorem word_ascii : ∀ char : UInt8, isTchar (toInt char) = true → decide (char < 128) = true := by
  apply octet_forall
  decide

/-- The bytes of a value are ASCII characters when its characters are. -/
theorem ascii_iff {value : ExtensionValue} (valid : value.valid = true) :
    value.ascii = true ↔ value.spelling.all (· < 128) = true := by
  cases value with
  | token word =>
      refine iff_of_true rfl (List.all_eq_true.2 fun char inside => word_ascii char ?_)
      exact isWord_tchar valid char inside
  | quoted chars =>
      have quote : decide (byte '"' < 128) = true := by decide
      have escape : decide (byte '\\' < 128) = true := by decide
      have flip (char : UInt8) : decide (char < 128) = !decide (128 ≤ char) := by
        rw [← decide_not, decide_eq_decide, UInt8.not_le]
      have single (char : QuotedChar) : char.spelling.all (· < 128) = char.ascii := by
        cases char with
        | plain char => simp [QuotedChar.spelling, QuotedChar.ascii, QuotedChar.obsolete, flip]
        | pair char =>
            rw [QuotedChar.spelling, List.all_cons, escape]
            simp [QuotedChar.ascii, QuotedChar.obsolete, flip]
      rw [ExtensionValue.ascii, ExtensionValue.spelling, List.all_append, List.all_append, List.all_cons, List.all_nil, quote,
        List.all_flatMap]
      simp only [single, Bool.and_true, Bool.true_and]

/-- Settable parameters are kept as they are when they are plain. -/
theorem Params.kept_iff {parameters : Params} (settable : Params.Settable parameters) :
    Params.Kept parameters ↔ Params.isPlain parameters = true := by
  rw [Params.isPlain, List.all_eq_true]
  apply forall_congr'
  intro parameter
  apply imp_congr_right
  intro inside
  obtain ⟨word, form, valid, spelled⟩ := settable parameter inside
  rw [Bool.and_eq_true, isLowerWord, word, Bool.true_and]
  apply and_congr_right
  intro _
  constructor
  · rintro ⟨other, otherValid, ascii, same⟩
    rw [← same, ← ascii_iff otherValid]
    exact ascii
  · intro ascii
    rw [← spelled, ← ascii_iff valid] at ascii
    exact ⟨form, valid, ascii, spelled⟩

/-- The parameters as the reader takes them from their printed form. -/
def Params.lowered (parameters : Params) : Params := parameters.map fun parameter => (Headers.lower parameter.1, parameter.2)

/-- Printed parameters follow the grammar. -/
theorem Params.bodies_text (parameter : Text × Text) (parameters : Params)
    (settable : Params.Settable (parameter :: parameters)) :
    ParametersText (Params.bodies (parameter :: parameters)) (Params.lowered (parameter :: parameters)) := by
  induction parameters generalizing parameter with
  | nil =>
      obtain ⟨name, value⟩ := parameter
      obtain ⟨word, form, valid, rfl⟩ := settable _ List.mem_cons_self
      have last := ParametersText.last word (rfl : isBlank [] = true) (rfl : isBlank [] = true) valid
      simpa [Params.bodies, Params.str, Params.lowered] using last
  | cons second others follow =>
      obtain ⟨name, value⟩ := parameter
      obtain ⟨word, form, valid, spelled⟩ := settable _ List.mem_cons_self
      have later := follow second fun parameter inside => settable parameter (List.mem_cons_of_mem _ inside)
      obtain ⟨-, secondForm, secondValid, secondSpelled⟩ := settable second (by simp)
      have filled : second.2 ≠ [] := by
        rw [← secondSpelled]
        obtain ⟨first, rest, begins, -⟩ := ExtensionValue.begins secondValid
        rw [begins]
        exact List.cons_ne_nil _ _
      have more := ParametersText.more word (rfl : isBlank [] = true) (rfl : isBlank [] = true) valid
        (rfl : isBlank [] = true) (rfl : isBlank [] = true) later
      have printed : Params.str (second :: others) = byte ';' :: Params.bodies (second :: others) := by
        simp [Params.str, Params.bodies, filled]
      rw [spelled] at more
      simpa only [Params.bodies, printed, Params.lowered, List.map_cons, List.nil_append] using more

theorem Params.str_bodies {parameter : Text × Text} {parameters : Params}
    (settable : Params.Settable (parameter :: parameters)) :
    Params.str (parameter :: parameters) = byte ';' :: Params.bodies (parameter :: parameters) := by
  obtain ⟨-, form, valid, spelled⟩ := settable parameter List.mem_cons_self
  obtain ⟨first, rest, begins, -⟩ := ExtensionValue.begins valid
  have filled : parameter.2 ≠ [] := by simp [← spelled, begins]
  simp [Params.str, Params.bodies, filled]

/-- A printed token follows the grammar. -/
theorem Token.str_text {token : Token} (word : isWord token.name = true) (settable : Params.Settable token.parameters) :
    TokenText token.str ⟨Headers.lower token.name, Params.lowered token.parameters⟩ := by
  obtain ⟨name, parameters⟩ := token
  cases parameters with
  | nil =>
      have plain : TokenText name ⟨Headers.lower name, []⟩ := .plain word
      simpa [Token.str, Params.str, Params.lowered] using plain
  | cons parameter parameters =>
      have printed := TokenText.parameters word (rfl : isBlank [] = true) (rfl : isBlank [] = true)
        (Params.bodies_text parameter parameters settable)
      rw [List.nil_append, List.nil_append, ← Params.str_bodies settable] at printed
      exact printed

/-- A printed list follows the grammar. -/
theorem listed_text {element : Type} {written : Text → element → Prop} {image : element → element}
    {print : element → Text} (value : element) (values : List element)
    (each : ∀ other ∈ value :: values, written (print other) (image other)) :
    ListText written (Field.listed ((value :: values).map print)) ((value :: values).map image) := by
  induction values generalizing value with
  | nil =>
      have last := ListText.last (each value List.mem_cons_self)
      simpa [Field.listed] using last
  | cons second values follow =>
      have later := follow second fun other inside => each other (List.mem_cons_of_mem _ inside)
      have more := ListText.more (each value List.mem_cons_self) (rfl : isBlank [] = true)
        (by decide : isBlank [byte ' '] = true) later
      have shape : Field.listed ((value :: second :: values).map print) =
          print value ++ ([] ++ byte ',' :: ([byte ' '] ++ Field.listed ((second :: values).map print))) := by
        simp [Field.listed, List.intercalate_cons_cons, text]
      rw [shape]
      exact more

theorem map_fixed {element : Type} {image : element → element} {values : List element}
    (same : values = values.map image) : ∀ value ∈ values, image value = value := by
  have both : values.map image = values.map id := by rw [← same, List.map_id]
  exact List.map_inj_left.1 both

theorem isLowerCase_iff (word : Text) : isLowerCase word = true ↔ Headers.lower word = word := beq_iff_eq

/-- Parameters that are read back as they are, are kept as they are. -/
theorem Params.kept_of_lowered {parameters : Params} (settable : Params.Settable parameters)
    (same : Params.lowered parameters = parameters) (formed : ∀ parameter ∈ parameters, IsParameterValue parameter.2) :
    Params.Kept parameters := by
  intro parameter inside
  refine ⟨?_, formed parameter inside⟩
  have fixed := congrArg Prod.fst (map_fixed same.symm parameter inside)
  rw [isLowerWord, (settable parameter inside).1, (isLowerCase_iff _).2 fixed]
  rfl

/-- A list of tokens is read back from its printed form if and only if nothing of it changes or is lost. -/
theorem parseTokens_printed_iff (codings : List Token)
    (settable : ∀ coding ∈ codings, isLowerWord coding.name = true ∧ Params.Settable coding.parameters) :
    parseTokens (Field.listed (codings.map Token.str)) = .ok codings ↔
      ((codings.all fun coding => Params.isPlain coding.parameters) && !endsAlone (codings.map Token.str) &&
        !codings.getLast?.any fun coding => Params.endsShort coding.parameters) = true := by
  have plain_iff : (codings.all fun coding => Params.isPlain coding.parameters) = true ↔
      ∀ coding ∈ codings, coding.Kept := by
    rw [List.all_eq_true]
    apply forall_congr'
    intro coding
    apply imp_congr_right
    intro inside
    rw [← Params.kept_iff (settable coding inside).2]
    exact ⟨fun kept => ⟨(settable coding inside).1, kept⟩, Token.Kept.parameters⟩
  rw [Bool.and_assoc, Bool.and_eq_true, plain_iff]
  constructor
  · intro accepted
    have kept : ∀ coding ∈ codings, coding.Kept := by
      cases codings with
      | nil => simp
      | cons coding codings =>
          have list := listed_text coding codings fun other inside =>
            Token.str_text (isLowerWord_word (settable other inside).1) (settable other inside).2
          have whole : [] ++ (Field.listed ((coding :: codings).map Token.str) ++ []) =
              Field.listed ((coding :: codings).map Token.str) := by rw [List.nil_append, List.append_nil]
          rw [← whole] at accepted
          obtain ⟨same, formed⟩ := parseTokens_leads list rfl rfl accepted
          intro other inside
          have fixed := map_fixed same other inside
          obtain ⟨name, parameters⟩ := other
          obtain ⟨-, lowered⟩ := Token.mk.inj fixed
          refine ⟨(settable _ inside).1, Params.kept_of_lowered (settable _ inside).2 lowered ?_⟩
          have there := formed ⟨Headers.lower name, Params.lowered parameters⟩ (List.mem_map_of_mem inside)
          rwa [lowered] at there
    refine ⟨kept, ?_⟩
    have outcome := parseTokens_reads codings kept
    rw [accepted] at outcome
    split at outcome
    · assumption
    · obtain ⟨fault, failed⟩ := outcome
      cases failed
  · rintro ⟨kept, whole⟩
    have outcome := parseTokens_reads codings kept
    rwa [if_pos whole] at outcome

/-- A list of words is read back from its printed form if and only if nothing of it changes or is lost. -/
theorem parseStrings_printed_iff (values : List Text) (words : ∀ value ∈ values, isWord value = true) :
    parseStrings (Field.listed values) = .ok values ↔ (values.all isLowerCase && !endsAlone values) = true := by
  have lower_iff : values.all isLowerCase = true ↔ ∀ value ∈ values, isLowerWord value = true := by
    rw [List.all_eq_true]
    apply forall_congr'
    intro value
    apply imp_congr_right
    intro inside
    rw [isLowerWord, words value inside, Bool.true_and]
  rw [Bool.and_eq_true, lower_iff]
  constructor
  · intro accepted
    have kept : ∀ value ∈ values, isLowerWord value = true := by
      cases values with
      | nil => simp
      | cons value values =>
          have list := @listed_text _ WordText Headers.lower id value values fun other inside => .word (words other inside)
          rw [List.map_id] at list
          have whole : [] ++ (Field.listed (value :: values) ++ []) = Field.listed (value :: values) := by
            rw [List.nil_append, List.append_nil]
          rw [← whole] at accepted
          have same := parseStrings_leads list rfl rfl accepted
          rw [← lower_iff, List.all_eq_true]
          intro other inside
          exact (isLowerCase_iff other).2 (map_fixed same other inside)
    refine ⟨kept, ?_⟩
    have outcome := parseStrings_reads values kept
    rw [accepted] at outcome
    split at outcome
    · assumption
    · obtain ⟨fault, failed⟩ := outcome
      cases failed
  · rintro ⟨kept, whole⟩
    have outcome := parseStrings_reads values kept
    rwa [if_pos whole] at outcome

/-- The reader of a media type comes to its parameters. -/
theorem readMediaType_parameters {value : MediaType} {parameter : Text × Text} {parameters : Params}
    (type : isLowerWord value.type = true) (subtype : isLowerWord value.subtype = true)
    (some : value.parameters = parameter :: parameters) (settable : Params.Settable value.parameters) :
    ∃ before, readMediaType (Scanner.init value.str) =
      (do
        let read ← readParameters
        pure ⟨value.type, value.subtype, read⟩ : Scan MediaType) (between before (Params.bodies (parameter :: parameters))) := by
  obtain ⟨kind, below, others⟩ := value
  dsimp only at type subtype some settable ⊢
  subst some
  obtain ⟨word, -⟩ := settable parameter List.mem_cons_self
  obtain ⟨first, rest, begins, solid⟩ := isWord_begins word
  have bodies : Params.bodies (parameter :: parameters) =
      first :: (rest ++ byte '=' :: (parameter.2 ++ Params.str parameters)) := by
    simp [Params.bodies, begins]
  have shape : MediaType.str ⟨kind, below, parameter :: parameters⟩ =
      kind ++ byte '/' :: (below ++ byte ';' :: Params.bodies (parameter :: parameters)) := by
    rw [MediaType.str, Params.str_bodies settable, List.append_assoc, List.cons_append]
  have filled : Params.bodies (parameter :: parameters) ≠ [] := by simp [bodies]
  have kindFilled : kind.isEmpty = false := List.isEmpty_eq_false_iff.2 (isWord_nonempty (isLowerWord_word type))
  have belowFilled : below.isEmpty = false := List.isEmpty_eq_false_iff.2 (isWord_nonempty (isLowerWord_word subtype))
  refine ⟨[] ++ kind ++ [byte '/'] ++ below ++ [byte ';'], ?_⟩
  rw [shape, init_eq, readMediaType, Scan.bind_ok (readToken_lower [] (.stop (by decide) (by simp)) type)]
  rw [kindFilled, if_neg Bool.false_ne_true]
  dsimp only
  rw [Scan.bind_ok (readSpecial_same (by decide))]
  simp only [Bool.not_true, Bool.false_eq_true, if_false]
  rw [Scan.bind_ok (readToken_lower _ (.stop (by decide) filled) subtype),
    belowFilled, if_neg Bool.false_ne_true, Scan.bind_ok (readOptSpace_stop filled (by decide)), Scan.bind_ok (readSpecial_same (by decide)), if_pos rfl, bodies,
    Scan.bind_ok (readOptSpace_stop (by simp) solid)]

theorem readMediaType_plain {value : MediaType} (type : isLowerWord value.type = true)
    (subtype : isLowerWord value.subtype = true) (none : value.parameters = []) : parseMediaType value.str = .ok value := by
  obtain ⟨kind, below, parameters⟩ := value
  dsimp only at type subtype none ⊢
  subst none
  have shape : MediaType.str ⟨kind, below, []⟩ = kind ++ byte '/' :: (below ++ []) := by simp [MediaType.str, Params.str]
  have kindFilled : kind.isEmpty = false := List.isEmpty_eq_false_iff.2 (isWord_nonempty (isLowerWord_word type))
  have belowFilled := isWord_nonempty (isLowerWord_word subtype)
  have belowFull : below.isEmpty = false := List.isEmpty_eq_false_iff.2 belowFilled
  rw [parseMediaType, shape, init_eq, readMediaType,
    Scan.bind_ok (readToken_lower [] (.stop (by decide) (by simpa using belowFilled)) type), kindFilled,
    if_neg Bool.false_ne_true]
  dsimp only
  rw [Scan.bind_ok (readSpecial_same (by decide))]
  simp only [Bool.not_true, Bool.false_eq_true, if_false]
  rw [Scan.bind_ok (readToken_lower _ .nothing subtype),
    belowFull, if_neg Bool.false_ne_true, Scan.bind_ok readOptSpace_end, Scan.bind_ok (readSpecial_end (by decide))]
  rfl

/-- A media type is read back from its printed form if and only if nothing of it changes or is lost. -/
theorem parseMediaType_printed_iff (value : MediaType) (type : isLowerWord value.type = true)
    (subtype : isLowerWord value.subtype = true) (settable : Params.Settable value.parameters) :
    parseMediaType value.str = .ok value ↔
      (Params.isPlain value.parameters && !Params.endsShort value.parameters) = true := by
  cases some : value.parameters with
  | nil => exact iff_of_true (readMediaType_plain type subtype some) rfl
  | cons parameter parameters =>
      obtain ⟨before, run⟩ := readMediaType_parameters type subtype some settable
      rw [some] at settable
      rw [Bool.and_eq_true, ← Params.kept_iff settable]
      have text := Params.bodies_text parameter parameters settable
      have behind : Behind ',' [] [] := ⟨rfl, .inl rfl⟩
      have loop (kept : Params.Kept (parameter :: parameters)) :
          Reads (!Params.endsShort (parameter :: parameters)) readParameters
            (between before (Params.bodies (parameter :: parameters)))
            (between (before ++ Params.bodies (parameter :: parameters)) []) fun read => read = parameter :: parameters := by
        have enough : parameters.length < (Params.bodies (parameter :: parameters)).length + 1 := by
          have short := Params.length_le_str parameters
          simp only [Params.bodies, List.length_append, List.length_cons]
          omega
        have values := readParametersLoop_values before .nothing parameter parameters _ kept enough
        rw [List.append_nil] at values
        rw [readParameters]
        exact Reads.after fuel_between (by simpa using values)
      constructor
      · intro accepted
        rw [parseMediaType, run] at accepted
        cases read : readParameters (between before (Params.bodies (parameter :: parameters))) with
        | error fault =>
            rw [Scan.bind_error read] at accepted
            cases accepted
        | ok pair =>
            obtain ⟨found, finish⟩ := pair
            have leads := readParameters_leads text before (rfl : isBlank [] = true) behind
            rw [List.append_nil, List.append_nil, List.nil_append] at leads
            obtain ⟨lowered, formed, -⟩ := leads _ _ read
            rw [Scan.bind_ok read] at accepted
            have same : found = parameter :: parameters := by
              have values := congrArg MediaType.parameters (Except.ok.inj accepted)
              rw [← some]
              exact values
            rw [same] at lowered read
            have kept := Params.kept_of_lowered settable lowered.symm (by rw [← lowered] at formed; exact formed)
            refine ⟨kept, ?_⟩
            cases short : Params.endsShort (parameter :: parameters) with
            | false => rfl
            | true =>
                have lost := loop kept
                rw [short] at lost
                obtain ⟨fault, failed⟩ := lost
                rw [failed] at read
                cases read
      · rintro ⟨kept, whole⟩
        have read := loop kept
        rw [whole] at read
        obtain ⟨found, same, read⟩ := read
        rw [same] at read
        rw [parseMediaType, run, Scan.bind_ok read]
        obtain ⟨kind, below, others⟩ := value
        dsimp only at some ⊢
        rw [some]
        rfl

theorem map_ok_iff {value result : Type} {wrap : value → result} (injective : Function.Injective wrap)
    (parsed : Except Fault value) (read : value) : wrap <$> parsed = .ok (wrap read) ↔ parsed = .ok read := by
  cases parsed with
  | error fault => exact iff_of_false nofun nofun
  | ok found =>
      constructor
      · intro same
        rw [injective (Except.ok.inj same)]
      · rintro ⟨⟩
        rfl

theorem validate_contentType (value : Text) : Field.validate CONTENT_TYPE value = (do
    let mediaType ← parseMediaType value
    validMediaType mediaType
    pure (.contentType mediaType)) := by
  rw [Field.validate, dif_neg (by decide), if_neg (by decide), if_neg (by decide), if_neg (by decide),
    if_neg (by decide), if_neg (by decide), if_neg (by decide), if_neg (by decide), if_pos rfl]

/-- The words of an allowed media type are in lower case. -/
theorem validMediaType_words {value : MediaType} (valid : validMediaType value = .ok ()) :
    isLowerWord value.type = true ∧ isLowerWord value.subtype = true := by
  unfold validMediaType at valid
  dsimp only at valid
  split at valid
  · rename_i type
    split at valid
    · cases valid
    · rename_i subtype
      rw [type, not_not.1 subtype]
      decide
  · split at valid
    · rename_i type
      split at valid
      · cases valid
      · rename_i subtype
        rw [type, not_not.1 subtype]
        decide
    · cases valid

/-- A value of tokens is read back from its printed form if and only if nothing of it changes or is lost. -/
theorem printed_value_iff (field : Field) (settable : field.Settable) :
    Field.validate field.name field.str = .ok field ↔ field.readsWhole = true := by
  cases field with
  | transferEncoding codings =>
      rw [Field.name, Field.str, Field.validate_transferEncoding, map_ok_iff (fun _ _ same => Field.transferEncoding.inj same)]
      exact parseTokens_printed_iff codings settable
  | te codings =>
      rw [Field.name, Field.str, Field.validate_te, map_ok_iff (fun _ _ same => Field.te.inj same)]
      exact parseTokens_printed_iff codings settable
  | trailers values =>
      rw [Field.name, Field.str, Field.validate_trailers, map_ok_iff (fun _ _ same => Field.trailers.inj same)]
      exact parseStrings_printed_iff values settable
  | other name values unknown =>
      rw [Field.name, Field.str, Field.validate_other unknown,
        @map_ok_iff _ _ (Field.other name · unknown) (fun _ _ same => (Field.other.inj same).2)]
      exact parseStrings_printed_iff values settable
  | connection options =>
      have read := @Field.validate_reads (.connection options) settable (show CONNECTION ≠ HOST by decide)
      exact iff_of_true read rfl
  | contentEncoding codings =>
      have read := @Field.validate_reads (.contentEncoding codings) settable (show CONTENT_ENCODING ≠ HOST by decide)
      exact iff_of_true read rfl
  | contentType value =>
      obtain ⟨valid, formed⟩ := settable
      obtain ⟨type, subtype⟩ := validMediaType_words valid
      rw [Field.name, Field.str, validate_contentType, Field.readsWhole, ← parseMediaType_printed_iff value type subtype formed]
      cases parsed : parseMediaType value.str with
      | error fault =>
          constructor
          · intro accepted
            cases accepted
          · intro same
            cases same
      | ok found =>
          constructor
          · intro accepted
            cases checked : validMediaType found with
            | error fault => simp [Bind.bind, Except.bind, checked] at accepted
            | ok =>
                simp only [Bind.bind, Except.bind, checked] at accepted
                rw [Field.contentType.inj (Except.ok.inj accepted)]
          · rintro ⟨⟩
            simp only [Bind.bind, Except.bind, valid]
            rfl
  | contentLength _ | host _ | via _ | contentLocation _ | date _ => exact settable.elim

/-- A coding with a parameter of one character, and the same parameter with two characters. -/
def shortCoding : Field := .te [⟨text "gzip", [(text "q", text "1")]⟩]

def longCoding : Field := .te [⟨text "gzip", [(text "q", text "10")]⟩]

theorem shortCoding_settable : shortCoding.Settable := by
  intro coding inside
  rw [List.mem_singleton.1 inside]
  refine ⟨by decide, ?_⟩
  intro parameter among
  rw [List.mem_singleton.1 among]
  exact ⟨by decide, .token (text "1"), by decide, rfl⟩

theorem longCoding_settable : longCoding.Settable := by
  intro coding inside
  rw [List.mem_singleton.1 inside]
  refine ⟨by decide, ?_⟩
  intro parameter among
  rw [List.mem_singleton.1 among]
  exact ⟨by decide, .token (text "10"), by decide, rfl⟩

theorem printed_value_iff_long : Field.validate longCoding.name longCoding.str = .ok longCoding ↔
    longCoding.readsWhole = true := printed_value_iff longCoding longCoding_settable

instance shortCoding_refused : Fact ((Field.validate shortCoding.name shortCoding.str).toBool = false) :=
  ⟨by decide +kernel⟩

/-- The value of one character behind the equals sign is lost. -/
theorem shortCoding_unread : ¬ ∀ field : Field, field.Settable → Field.validate field.name field.str = .ok field := by
  intro claimed
  have refused := shortCoding_refused.out
  rw [claimed shortCoding shortCoding_settable] at refused
  cases refused

end SimpleNFast.Http
