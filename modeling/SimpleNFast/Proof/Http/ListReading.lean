import SimpleNFast.Construction.Http.ListGrammar
import SimpleNFast.Proof.Http.FieldLines

set_option maxRecDepth 100000

namespace SimpleNFast.Http

/-- Each run of the program that does not throw ends as the postcondition says. -/
def Leads {value : Type} (program : Scan value) (start : Scanner) (post : value → Scanner → Prop) : Prop :=
  ∀ read finish, program start = .ok (read, finish) → post read finish

namespace Leads

variable {first second : Type} {program : Scan first} {start middle : Scanner} {post wish : first → Scanner → Prop}

theorem of_ok {read : first} (run : program start = .ok (read, middle)) (holds : post read middle) :
    Leads program start post := by
  intro value finish other
  rw [run] at other
  cases other
  exact holds

theorem of_error {fault : Fault} (run : program start = .error fault) : Leads program start post := by
  intro value finish other
  rw [run] at other
  cases other

theorem mono (leads : Leads program start wish) (weaker : ∀ value finish, wish value finish → post value finish) :
    Leads program start post :=
  fun value finish run => weaker value finish (leads value finish run)

theorem bind {next : first → Scan second} {post : second → Scanner → Prop} (leads : Leads program start wish)
    (after : ∀ value middle, wish value middle → Leads (next value) middle post) :
    Leads (program >>= next) start post := by
  intro value finish run
  obtain ⟨read, middle, early, late⟩ := Scan.eq_ok_of_bind run
  exact after read middle (leads read middle early) value finish late

theorem after {next : first → Scan second} {post : second → Scanner → Prop} {read : first}
    (run : program start = .ok (read, middle)) (rest : Leads (next read) middle post) :
    Leads (program >>= next) start post := by
  intro value finish other
  rw [Scan.bind_ok run] at other
  exact rest value finish other

end Leads

open Scanner

variable {before space left tail rest : Text} {name value : Text}

theorem isBlank_iff : isBlank space = true ↔ ∀ char ∈ space, isWhitespace (toInt char) = true := List.all_eq_true

/-- Blanks before a character that can be put back. -/
theorem readOptSpace_blank (before : Text) (blank : isBlank space = true) (ends : Ends isWhitespace tail) :
    readOptSpace (between before (space ++ tail)) = .ok ((), between (before ++ space) tail) := by
  rw [readOptSpace, Scan.bind_ok (readAccepted_ends before (by decide) ends space (isBlank_iff.1 blank))]
  rfl

/-- The last character of the string is lost behind blanks. -/
theorem readOptSpace_blank_lost (before : Text) {stop : UInt8} (blank : isBlank space = true)
    (refused : isWhitespace (toInt stop) = false) :
    readOptSpace (between before (space ++ [stop])) = .ok ((), between (before ++ space ++ [stop]) []) := by
  rw [readOptSpace, Scan.bind_ok (readAccepted_lost before refused space (isBlank_iff.1 blank))]
  rfl

/-- A word ends at blanks and a separator behind them. -/
theorem ends_blank {separator : UInt8} {accepts : Int → Bool} (blank : isBlank space = true)
    (blanks : ∀ char, isWhitespace (toInt char) = true → accepts (toInt char) = false)
    (refused : accepts (toInt separator) = false) (follows : rest ≠ []) : Ends accepts (space ++ separator :: rest) := by
  cases space with
  | nil => exact .stop refused follows
  | cons char space =>
      refine .stop (blanks char (isBlank_iff.1 blank char List.mem_cons_self)) ?_
      simp

theorem tchar_of_blank : ∀ char : UInt8, isWhitespace (toInt char) = true → isTchar (toInt char) = false := by
  apply octet_forall
  decide

/-- The text behind an element: blanks, and nothing or a separator with more behind it. -/
structure Behind (separator : Char) (left tail : Text) : Prop where
  blank : isBlank left = true
  ends : tail = [] ∨ ∃ rest, tail = byte separator :: rest ∧ rest ≠ []

/-- The scanner stands behind the element, or behind some of the blanks that follow it. -/
def Reached (before left tail : Text) (scanner : Scanner) : Prop :=
  ∃ skipped more, left = skipped ++ more ∧ scanner = between (before ++ skipped) (more ++ tail)

theorem Reached.start : Reached before left tail (between before (left ++ tail)) :=
  ⟨[], left, rfl, by rw [List.append_nil]⟩

theorem Reached.finish : Reached before left tail (between (before ++ left) tail) :=
  ⟨left, [], (List.append_nil _).symm, rfl⟩

/-- A word ends at blanks; a single blank at the end of the string is lost. -/
theorem Behind.readAccepted {separator : Char} (behind : Behind separator left tail) (before : Text)
    {accepts : Int → Bool} (none : accepts (-1) = false)
    (blanks : ∀ char, isWhitespace (toInt char) = true → accepts (toInt char) = false)
    (refused : accepts (toInt (byte separator)) = false) {word : Text}
    (accepted : ∀ char ∈ word, accepts (toInt char) = true) :
    ∃ later, Scanner.readAccepted accepts (between before (word ++ (left ++ tail))) = .ok (word, later) ∧
      Reached (before ++ word) left tail later := by
  obtain ⟨blank, rfl | ⟨rest, rfl, follows⟩⟩ := behind
  · rw [List.append_nil]
    cases left with
    | nil =>
        refine ⟨between (before ++ word) [], ?_, Reached.start⟩
        rw [List.append_nil]
        exact readAccepted_end before none word accepted
    | cons char left =>
        have stop := blanks char (isBlank_iff.1 blank char List.mem_cons_self)
        cases left with
        | nil => exact ⟨_, readAccepted_lost before stop word accepted, Reached.finish⟩
        | cons second left =>
            refine ⟨_, readAccepted_stop before (List.cons_ne_nil _ _) stop word accepted, ?_⟩
            have start := @Reached.start (before ++ word) (char :: second :: left) []
            rwa [List.append_nil] at start
  · exact ⟨_, readAccepted_ends before none (ends_blank blank blanks refused follows) word accepted, Reached.start⟩

/-- The blanks behind an element are skipped. -/
theorem Behind.reached {separator : Char} {scanner : Scanner} (behind : Behind separator left tail)
    (refused : isWhitespace (toInt (byte separator)) = false) (reached : Reached before left tail scanner) :
    readOptSpace scanner = .ok ((), between (before ++ left) tail) := by
  obtain ⟨skipped, more, rfl, rfl⟩ := reached
  obtain ⟨blank, ends⟩ := behind
  rw [isBlank, List.all_append, Bool.and_eq_true] at blank
  rw [← List.append_assoc]
  obtain rfl | ⟨rest, rfl, follows⟩ := ends
  · exact readOptSpace_blank _ blank.2 .nothing
  · exact readOptSpace_blank _ blank.2 (.stop refused follows)

theorem readParameterValue_token {word : Text} (valid : isWord word = true) {later : Scanner}
    (read : readToken false (between before (word ++ tail)) = .ok (word, later)) :
    readParameterValue (between before (word ++ tail)) = .ok (some word, later) := by
  obtain ⟨first, others, rfl⟩ := List.exists_cons_of_ne_nil (isWord_nonempty valid)
  have accepted := isWord_tchar valid first List.mem_cons_self
  have other : (toInt first == code '"') = false := by
    rw [beq_eq_false_iff_ne]
    intro same
    rw [same] at accepted
    exact absurd accepted (by decide)
  rw [readParameterValue, List.cons_append, Scan.bind_ok peek_cons]
  simp only [other, accepted, Bool.false_eq_true, if_false, if_true]
  rw [← List.cons_append, Scan.bind_ok read]
  rfl

/-- A quoted string is read in full, and it has no byte above the ASCII characters. -/
theorem readParameterValue_quoted (before tail : Text) {chars : List QuotedChar}
    (valid : (ExtensionValue.quoted chars).valid = true) :
    Leads readParameterValue (between before (ExtensionValue.spelling (.quoted chars) ++ tail)) fun read finish =>
      read = some (ExtensionValue.spelling (.quoted chars)) ∧
        finish = between (before ++ ExtensionValue.spelling (.quoted chars)) tail ∧
        (ExtensionValue.quoted chars).ascii = true := by
  have same : toInt (byte '"') = code '"' := by decide
  have opening : toByte (code '"') = byte '"' := by decide
  have shape : ExtensionValue.spelling (.quoted chars) ++ tail =
      byte '"' :: (chars.flatMap QuotedChar.spelling ++ byte '"' :: tail) := by
    simp [ExtensionValue.spelling]
  have closed : before ++ ExtensionValue.spelling (.quoted chars) =
      before ++ [byte '"'] ++ chars.flatMap QuotedChar.spelling ++ [byte '"'] := by
    simp [ExtensionValue.spelling]
  have spelled : ExtensionValue.spelling (.quoted chars) = [byte '"'] ++ chars.flatMap QuotedChar.spelling ++ [byte '"'] :=
    rfl
  have fuelled : (chars.flatMap QuotedChar.spelling).length <
      (chars.flatMap QuotedChar.spelling ++ byte '"' :: tail).length + 1 := by
    rw [List.length_append]
    omega
  rw [shape, closed, spelled, readParameterValue]
  refine Leads.after peek_cons ?_
  simp only [same, beq_self_eq_true, if_true]
  rw [readQstring, readBetween]
  refine Leads.after get_cons ?_
  simp only [same, bne_self_eq_false, Bool.false_eq_true, if_false, opening]
  refine Leads.after fuel_between ?_
  cases ascii : (ExtensionValue.quoted chars).ascii with
  | true =>
      refine Leads.after (readEnclosed_ascii _ _ chars _ valid ascii fuelled) ?_
      exact .of_ok rfl ⟨rfl, rfl, rfl⟩
  | false =>
      have stops : Reads (chars.all QuotedChar.ascii) (readEnclosed '"' isQuoted "quoted-string"
          ((chars.flatMap QuotedChar.spelling ++ byte '"' :: tail).length + 1) [byte '"'])
          (between (before ++ [byte '"']) (chars.flatMap QuotedChar.spelling ++ byte '"' :: tail)) _ fun _ => True :=
        readEnclosed_chars _ _ _ chars valid fuelled
      rw [Reads, show chars.all QuotedChar.ascii = false from ascii, if_neg Bool.false_ne_true] at stops
      obtain ⟨fault, failed⟩ := stops
      exact .of_error (Scan.bind_error failed)

/-- A value of a parameter is read in full, and it has no byte above the ASCII characters. -/
theorem readParameterValue_leads {separator : Char} (before : Text) {value : ExtensionValue} (valid : value.valid = true)
    (behind : Behind separator left tail) (refused : isTchar (toInt (byte separator)) = false) :
    Leads readParameterValue (between before (value.spelling ++ (left ++ tail))) fun read finish =>
      read = some value.spelling ∧ Reached (before ++ value.spelling) left tail finish ∧ value.ascii = true := by
  cases value with
  | token word =>
      obtain ⟨later, read, reached⟩ := behind.readAccepted before (by decide) tchar_of_blank refused (isWord_tchar valid)
      have token : readToken false (between before (word ++ (left ++ tail))) = .ok (word, later) := by
        rw [readToken, Scan.bind_ok read]
        rfl
      exact .of_ok (readParameterValue_token valid token) ⟨rfl, reached, rfl⟩
  | quoted chars =>
      refine (readParameterValue_quoted before (left ++ tail) valid).mono ?_
      rintro read finish ⟨rfl, rfl, ascii⟩
      exact ⟨rfl, Reached.start, ascii⟩

theorem ExtensionValue.begins {value : ExtensionValue} (valid : value.valid = true) :
    ∃ first others, value.spelling = first :: others ∧ isWhitespace (toInt first) = false := by
  cases value with
  | token word => exact isWord_begins valid
  | quoted chars => exact ⟨byte '"', _, rfl, by decide⟩

theorem readParameterValue_none (before : Text) :
    readParameterValue (between before []) = .ok (none, between before []) := by
  rw [readParameterValue, Scan.bind_ok peek_nil]
  rfl

/-- A parameter is read with blanks around its equals sign. -/
theorem readParameter_leads {separator : Char} (before : Text) {front back : Text} {value : ExtensionValue}
    (word : isWord name = true) (blankFront : isBlank front = true) (blankBack : isBlank back = true)
    (valid : value.valid = true) (behind : Behind separator left tail)
    (refused : isTchar (toInt (byte separator)) = false) :
    Leads readParameter (between before (name ++ (front ++ byte '=' :: (back ++ (value.spelling ++ (left ++ tail))))))
      fun read finish => read = (Headers.lower name, value.spelling) ∧ IsParameterValue value.spelling ∧
        Reached (before ++ (name ++ (front ++ byte '=' :: (back ++ value.spelling)))) left tail finish := by
  obtain ⟨first, others, spelled, solid⟩ := ExtensionValue.begins valid
  have more : back ++ (value.spelling ++ (left ++ tail)) ≠ [] := by simp [spelled]
  have nonempty := isWord_nonempty word
  rw [readParameter]
  refine Leads.after (readToken_ends before (ends_blank blankFront tchar_of_blank (by decide) more) true name
    (isWord_tchar word)) ?_
  have filled : (Headers.lower name).isEmpty = false := by
    cases name with
    | nil => exact absurd rfl nonempty
    | cons => rfl
  rw [if_pos rfl, show name.map (toByte ∘ toLower ∘ toInt) = Headers.lower name from rfl, filled,
    if_neg Bool.false_ne_true]
  refine Leads.after (readOptSpace_blank _ blankFront (.stop (by decide) more)) ?_
  refine Leads.after (readSpecial_same (by decide)) ?_
  simp only [Bool.not_true, Bool.false_eq_true, if_false]
  by_cases lost : others ++ (left ++ tail) = []
  · rw [spelled, List.cons_append, lost]
    refine Leads.after (readOptSpace_blank_lost _ blankBack solid) ?_
    refine Leads.after (readParameterValue_none _) ?_
    exact .of_error rfl
  · have start := readOptSpace_blank (before ++ name ++ front ++ [byte '=']) blankBack
      (.stop solid lost : Ends isWhitespace (first :: (others ++ (left ++ tail))))
    rw [← List.cons_append, ← spelled] at start
    refine Leads.after start ?_
    refine Leads.bind (readParameterValue_leads _ valid behind refused) ?_
    rintro _ finish ⟨rfl, reached, ascii⟩
    refine .of_ok rfl ⟨rfl, ⟨value, valid, ascii, rfl⟩, ?_⟩
    simpa only [List.append_assoc, List.cons_append, List.nil_append] using reached

/-- A word does not begin with a blank. -/
theorem readParametersLoop_blank (before : Text) {char : UInt8} (blank : isWhitespace (toInt char) = true)
    (follows : rest ≠ []) (fuel : Nat) :
    ∃ fault, readParametersLoop (fuel + 1) (between before (char :: rest)) = .error fault := by
  have read := readToken_ends before (.stop (tchar_of_blank char blank) follows) true [] (by simp)
  rw [List.nil_append, List.append_nil] at read
  rw [readParametersLoop]
  refine ⟨.invalidArgument (text "no parameter name"), Scan.bind_error ?_⟩
  rw [readParameter, Scan.bind_ok read]
  rfl

theorem Behind.readSemicolon (behind : Behind ',' left tail) :
    readSpecial ';' (between before tail) = .ok (false, between before tail) := by
  obtain none | ⟨rest, some, follows⟩ := behind.ends
  · rw [none]
    exact readSpecial_end (by decide)
  · rw [some]
    exact readSpecial_other follows (by decide)

theorem ParametersText.nonempty {text : Text} {parameters : Params} (written : ParametersText text parameters) :
    text ≠ [] := by
  cases written <;> simp

theorem ParametersText.length_le {text : Text} {parameters : Params} (written : ParametersText text parameters) :
    parameters.length ≤ text.length := by
  induction written with
  | last =>
      simp only [List.length_append, List.length_cons, List.length_nil]
      omega
  | more _ _ _ _ _ _ _ shorter =>
      simp only [List.length_append, List.length_cons]
      omega

/-- The parameters that are read are those that the text gives. -/
theorem readParametersLoop_leads {text : Text} {parameters : Params} (written : ParametersText text parameters)
    (before : Text) (behind : Behind ',' left tail) (fuel : Nat) (enough : parameters.length ≤ fuel) :
    Leads (readParametersLoop fuel) (between before (text ++ (left ++ tail))) fun read finish =>
      read = parameters ∧ (∀ parameter ∈ parameters, IsParameterValue parameter.2) ∧
        finish = between (before ++ text ++ left) tail := by
  induction written generalizing before fuel with
  | @last name front back value word blankFront blankBack valid =>
      obtain ⟨fuel, rfl⟩ : ∃ smaller, fuel = smaller + 1 := ⟨fuel - 1, by simp at enough; omega⟩
      rw [readParametersLoop]
      simp only [List.append_assoc, List.cons_append]
      refine Leads.bind (readParameter_leads before word blankFront blankBack valid behind (by decide)) ?_
      rintro _ finish ⟨rfl, formed, reached⟩
      refine Leads.after (behind.reached (by decide) reached) ?_
      refine Leads.after behind.readSemicolon ?_
      refine .of_ok rfl ⟨rfl, ?_, ?_⟩
      · intro parameter inside
        rw [List.mem_singleton.1 inside]
        exact formed
      · simp only [List.append_assoc, List.cons_append]
  | @more name front back ending start rest value parameters word blankFront blankBack valid blankEnding blankStart others
      inductionHypothesis =>
      obtain ⟨fuel, rfl⟩ : ∃ smaller, fuel = smaller + 1 := ⟨fuel - 1, by simp at enough; omega⟩
      have follows : start ++ (rest ++ (left ++ tail)) ≠ [] := by simp [others.nonempty]
      have enough' : parameters.length ≤ fuel := by simpa using enough
      rw [readParametersLoop]
      simp only [List.append_assoc, List.cons_append]
      have next : Behind ';' ending (byte ';' :: (start ++ (rest ++ (left ++ tail)))) := ⟨blankEnding, .inr ⟨_, rfl, follows⟩⟩
      refine Leads.bind (readParameter_leads before word blankFront blankBack valid next (by decide)) ?_
      rintro _ finish ⟨rfl, formed, reached⟩
      refine Leads.after (next.reached (by decide) reached) ?_
      refine Leads.after (readSpecial_same (by decide)) ?_
      simp only [if_true]
      cases start with
      | nil =>
          rw [List.nil_append]
          refine Leads.bind (inductionHypothesis _ fuel enough') ?_
          rintro _ _ ⟨rfl, allFormed, rfl⟩
          refine .of_ok rfl ⟨rfl, ?_, ?_⟩
          · intro parameter inside
            obtain rfl | inside := List.mem_cons.1 inside
            · exact formed
            · exact allFormed parameter inside
          · simp only [List.append_assoc, List.cons_append, List.nil_append]
      | cons char start =>
          have positive : 0 < parameters.length := by cases others <;> simp
          obtain ⟨fuel, rfl⟩ : ∃ smaller, fuel = smaller + 1 := ⟨fuel - 1, by omega⟩
          obtain ⟨fault, failed⟩ := readParametersLoop_blank _ (isBlank_iff.1 blankStart char List.mem_cons_self)
            (by simp [others.nonempty] : start ++ (rest ++ (left ++ tail)) ≠ []) fuel
          exact .of_error (Scan.bind_error failed)

/-- Behind the semicolon of a token its parameters follow at once, or the read throws. -/
theorem readParameters_leads {text : Text} {parameters : Params} (written : ParametersText text parameters)
    (before : Text) (blank : isBlank space = true) (behind : Behind ',' left tail) :
    Leads readParameters (between before (space ++ (text ++ (left ++ tail)))) fun read finish =>
      read = parameters ∧ (∀ parameter ∈ parameters, IsParameterValue parameter.2) ∧
        finish = between (before ++ (space ++ text) ++ left) tail := by
  rw [readParameters]
  refine Leads.after fuel_between ?_
  cases space with
  | nil =>
      have enough := written.length_le
      exact readParametersLoop_leads written before behind _ (by simp only [List.nil_append, List.length_append]; omega)
  | cons char space =>
      obtain ⟨fault, failed⟩ := readParametersLoop_blank before (isBlank_iff.1 blank char List.mem_cons_self)
        (by simp [written.nonempty] : space ++ (text ++ (left ++ tail)) ≠ []) _
      exact .of_error failed

theorem lower_filled (word : isWord name = true) : (Headers.lower name).isEmpty = false := by
  cases name with
  | nil => cases word
  | cons => rfl

theorem readString_leads {separator : Char} (before string : Text) (word : isWord name = true)
    (behind : Behind separator left tail) (refused : isTchar (toInt (byte separator)) = false) :
    Leads (readString string) (between before (name ++ (left ++ tail))) fun read finish =>
      read = Headers.lower name ∧ Reached (before ++ name) left tail finish := by
  obtain ⟨later, read, reached⟩ := behind.readAccepted before (by decide) tchar_of_blank refused (isWord_tchar word)
  have token : readToken true (between before (name ++ (left ++ tail))) = .ok (Headers.lower name, later) := by
    rw [readToken, Scan.bind_ok read]
    rfl
  rw [readString]
  refine Leads.after token ?_
  rw [lower_filled word, if_neg Bool.false_ne_true]
  exact .of_ok rfl ⟨rfl, reached⟩

/-- A token that is read is the one that the text gives, and its values are ASCII texts. -/
theorem readTokenValue_leads (string : Text) {text : Text} {token : Token} (written : TokenText text token)
    (before : Text) (behind : Behind ',' left tail) :
    Leads (readTokenValue string) (between before (text ++ (left ++ tail))) fun read finish =>
      read = token ∧ (∀ parameter ∈ token.parameters, IsParameterValue parameter.2) ∧
        Reached (before ++ text) left tail finish := by
  cases written with
  | plain word =>
      rw [readTokenValue]
      refine Leads.bind (readString_leads before string word behind (by decide)) ?_
      rintro _ finish ⟨rfl, reached⟩
      refine Leads.after (behind.reached (by decide) reached) ?_
      refine Leads.after behind.readSemicolon ?_
      exact .of_ok rfl ⟨rfl, by simp, Reached.finish⟩
  | @parameters name front back rest parameters word blankFront blankBack others =>
      have follows : back ++ (rest ++ (left ++ tail)) ≠ [] := by simp [others.nonempty]
      rw [readTokenValue]
      simp only [List.append_assoc, List.cons_append]
      have next : Behind ';' front (byte ';' :: (back ++ (rest ++ (left ++ tail)))) := ⟨blankFront, .inr ⟨_, rfl, follows⟩⟩
      refine Leads.bind (readString_leads before string word next (by decide)) ?_
      rintro _ finish ⟨rfl, reached⟩
      refine Leads.after (next.reached (by decide) reached) ?_
      refine Leads.after (readSpecial_same (by decide)) ?_
      simp only [if_true]
      refine Leads.bind (readParameters_leads others _ blankBack behind) ?_
      rintro _ _ ⟨rfl, formed, rfl⟩
      refine .of_ok rfl ⟨rfl, formed, ?_⟩
      have same : before ++ name ++ front ++ [byte ';'] ++ (back ++ rest) ++ left =
          before ++ (name ++ (front ++ byte ';' :: (back ++ rest))) ++ left := by
        simp only [List.append_assoc, List.cons_append, List.nil_append]
      rw [same]
      exact Reached.finish

section Lists

variable {element : Type} {read : Scan element} {written : Text → element → Prop} {fine : element → Prop}

/-- An element that is read is the one that its text gives, and there is no element at the end of the string. -/
structure ReadsElements (read : Scan element) (written : Text → element → Prop) (fine : element → Prop) : Prop where
  begins : ∀ text value, written text value → ∃ first others, text = first :: others ∧ isWhitespace (toInt first) = false
  leads : ∀ text value, written text value → ∀ before left tail, Behind ',' left tail →
    Leads read (between before (text ++ (left ++ tail))) fun found finish =>
      found = value ∧ fine value ∧ Reached (before ++ text) left tail finish
  nothing : ∀ before, ∃ fault, read (between before []) = .error fault
  blank : ∀ before char rest, isWhitespace (toInt char) = true → ∃ fault, read (between before (char :: rest)) = .error fault

theorem ListText.begins {text : Text} {values : List element} (elements : ReadsElements read written fine)
    (list : ListText written text values) : ∃ first others, text = first :: others ∧ isWhitespace (toInt first) = false := by
  cases list with
  | last first => exact elements.begins _ _ first
  | more first blankBefore blankAfter others =>
      obtain ⟨char, rest, rfl, solid⟩ := elements.begins _ _ first
      exact ⟨char, _, rfl, solid⟩

theorem ListText.length_pos {text : Text} {values : List element} (list : ListText written text values) :
    0 < values.length := by
  cases list <;> simp

theorem ListText.length_le {text : Text} {values : List element} (elements : ReadsElements read written fine)
    (list : ListText written text values) : values.length ≤ text.length := by
  induction list with
  | last first =>
      obtain ⟨char, rest, rfl, -⟩ := elements.begins _ _ first
      simp
  | more first blankBefore blankAfter others shorter =>
      simp only [List.length_append, List.length_cons]
      omega

/-- The elements that are read are those that the text gives. -/
theorem parseList_leads {text : Text} {values : List element} (elements : ReadsElements read written fine)
    (list : ListText written text values) (blank : isBlank left = true) (before : Text) (fuel : Nat)
    (enough : values.length ≤ fuel) :
    Leads (parseList read fuel) (between before (text ++ left)) fun found _ =>
      found = values ∧ ∀ value ∈ values, fine value := by
  induction list generalizing before fuel with
  | @last text value first =>
      obtain ⟨fuel, rfl⟩ : ∃ smaller, fuel = smaller + 1 := ⟨fuel - 1, by simp at enough; omega⟩
      have behind : Behind ',' left [] := ⟨blank, .inl rfl⟩
      have item := elements.leads text value first before left [] behind
      rw [List.append_nil] at item
      rw [parseList]
      refine Leads.bind item ?_
      rintro _ finish ⟨rfl, holds, reached⟩
      refine Leads.after (behind.reached (by decide) reached) ?_
      refine Leads.after (readSpecial_end (by decide)) ?_
      refine .of_ok rfl ⟨rfl, ?_⟩
      intro other inside
      rw [List.mem_singleton.1 inside]
      exact holds
  | @more text front back rest value values first blankFront blankBack others inductionHypothesis =>
      obtain ⟨fuel, rfl⟩ : ∃ smaller, fuel = smaller + 1 := ⟨fuel - 1, by simp at enough; omega⟩
      obtain ⟨char, more, rfl, solid⟩ := others.begins elements
      have enough' : values.length ≤ fuel := by simpa using enough
      have behind : Behind ',' front (byte ',' :: (back ++ char :: (more ++ left))) :=
        ⟨blankFront, .inr ⟨_, rfl, by simp⟩⟩
      have shape : text ++ (front ++ byte ',' :: (back ++ char :: more)) ++ left =
          text ++ (front ++ byte ',' :: (back ++ char :: (more ++ left))) := by
        simp only [List.append_assoc, List.cons_append]
      rw [parseList, shape]
      refine Leads.bind (elements.leads text value first before front _ behind) ?_
      rintro _ finish ⟨rfl, holds, reached⟩
      refine Leads.after (behind.reached (by decide) reached) ?_
      refine Leads.after (readSpecial_same (by decide)) ?_
      simp only [if_true]
      by_cases lost : more ++ left = []
      · rw [lost]
        have positive : 0 < values.length := others.length_pos
        obtain ⟨fuel, rfl⟩ : ∃ smaller, fuel = smaller + 1 := ⟨fuel - 1, by omega⟩
        obtain ⟨fault, failed⟩ := elements.nothing (before ++ text ++ front ++ [byte ','] ++ back ++ [char])
        refine Leads.after (readOptSpace_blank_lost _ blankBack solid) ?_
        rw [parseList]
        exact .of_error (Scan.bind_error (Scan.bind_error failed))
      · refine Leads.after (readOptSpace_blank _ blankBack (.stop solid lost)) ?_
        rw [← List.cons_append]
        refine Leads.bind (inductionHypothesis _ fuel enough') ?_
        rintro _ _ ⟨rfl, allHold⟩
        refine .of_ok rfl ⟨rfl, ?_⟩
        intro other inside
        obtain rfl | inside := List.mem_cons.1 inside
        · exact holds
        · exact allHold other inside

/-- What the functions `parse` of a list accept they read as the grammar says. -/
theorem parseAll_leads {text front back : Text} {values found : List element} (elements : ReadsElements read written fine)
    (list : ListText written text values) (blankFront : isBlank front = true) (blankBack : isBlank back = true)
    (accepted : parseAll read (front ++ (text ++ back)) = .ok found) : found = values ∧ ∀ value ∈ values, fine value := by
  obtain ⟨char, more, begins, -⟩ := list.begins elements
  have enough := list.length_le elements
  have filled : (front ++ (text ++ back)).isEmpty = false := by simp [begins]
  rw [parseAll, filled, if_neg Bool.false_ne_true, init_eq] at accepted
  cases run : parseList read ((front ++ (text ++ back)).length + 1) (between [] (front ++ (text ++ back))) with
  | error fault =>
      rw [run] at accepted
      cases accepted
  | ok pair =>
      obtain ⟨read, finish⟩ := pair
      rw [run] at accepted
      cases accepted
      cases front with
      | nil =>
          refine parseList_leads elements list blankBack [] _ ?_ _ _ run
          simp only [List.nil_append, List.length_append]
          omega
      | cons blank front =>
          obtain ⟨fault, failed⟩ := elements.blank [] blank (front ++ (text ++ back))
            (isBlank_iff.1 blankFront blank List.mem_cons_self)
          rw [parseList, List.cons_append, Scan.bind_error failed] at run
          cases run

end Lists

theorem readString_blank (before string : Text) {char : UInt8} (rest : Text) (blank : isWhitespace (toInt char) = true) :
    ∃ fault, readString string (between before (char :: rest)) = .error fault := by
  have stop := tchar_of_blank char blank
  have read : ∃ later, readAccepted isTchar (between before (char :: rest)) = .ok ([], later) := by
    cases rest with
    | nil => exact ⟨_, @readAccepted_lost before isTchar char stop [] (by simp)⟩
    | cons second rest =>
        exact ⟨_, @readAccepted_stop (second :: rest) before isTchar char (List.cons_ne_nil _ _) stop [] (by simp)⟩
  obtain ⟨later, read⟩ := read
  have token : readToken true (between before (char :: rest)) = .ok ([], later) := by
    rw [readToken, Scan.bind_ok read]
    rfl
  rw [readString, Scan.bind_ok token]
  exact ⟨_, rfl⟩

theorem readString_elements (string : Text) : ReadsElements (readString string) WordText fun _ => True where
  begins := by
    rintro text value ⟨word⟩
    exact isWord_begins word
  leads := by
    rintro text value ⟨word⟩ before left tail behind
    exact (readString_leads before string word behind (by decide)).mono fun _ _ both => ⟨both.1, trivial, both.2⟩
  nothing := fun before => readString_end before string
  blank := fun before _ rest blank => readString_blank before string rest blank

theorem readTokenValue_elements (string : Text) : ReadsElements (readTokenValue string) TokenText fun token =>
    ∀ parameter ∈ token.parameters, IsParameterValue parameter.2 where
  begins := by
    rintro text value (word | ⟨word, -, -, -⟩)
    · exact isWord_begins word
    · obtain ⟨first, others, rfl, solid⟩ := isWord_begins word
      exact ⟨first, _, rfl, solid⟩
  leads text value written before left tail behind := readTokenValue_leads string written before behind
  nothing before := by
    obtain ⟨fault, failed⟩ := readString_end before string
    exact ⟨fault, Scan.bind_error failed⟩
  blank before _ rest blank := by
    obtain ⟨fault, failed⟩ := readString_blank before string rest blank
    exact ⟨fault, Scan.bind_error failed⟩

theorem parseStrings_leads {text front back : Text} {words found : List Text} (list : ListText WordText text words)
    (blankFront : isBlank front = true) (blankBack : isBlank back = true)
    (accepted : parseStrings (front ++ (text ++ back)) = .ok found) : found = words :=
  (parseAll_leads (readString_elements _) list blankFront blankBack accepted).1

theorem parseTokens_leads {text front back : Text} {codings found : List Token} (list : ListText TokenText text codings)
    (blankFront : isBlank front = true) (blankBack : isBlank back = true)
    (accepted : parseTokens (front ++ (text ++ back)) = .ok found) :
    found = codings ∧ ∀ coding ∈ codings, ∀ parameter ∈ coding.parameters, IsParameterValue parameter.2 :=
  parseAll_leads (readTokenValue_elements _) list blankFront blankBack accepted

end SimpleNFast.Http
