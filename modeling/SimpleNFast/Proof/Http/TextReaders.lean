import Mathlib.Data.List.TakeWhile
import SimpleNFast.Construction.Http.TextReaders
import SimpleNFast.Proof.Http.FieldLines

set_option maxRecDepth 100000

namespace SimpleNFast.Http

open Scanner

/-- The program takes the value that the reader takes and leaves the same text, and it throws where the reader refuses. -/
def Mirrors {value : Type} (program : Scan value) (reader : Reader value) : Prop :=
  ∀ before rest, match reader rest with
    | some (read, left) => ∃ later, program (between before rest) = .ok (read, between later left)
    | none => ∃ fault, program (between before rest) = .error fault

namespace Mirrors

variable {first second : Type} {program : Scan first} {reader : Reader first}

theorem pure (value : first) : Mirrors (pure value) (pure value) := fun before _ => ⟨before, rfl⟩

theorem throw (fault : Fault) : Mirrors (throw fault : Scan first) Reader.refuse := fun _ _ => ⟨fault, rfl⟩

theorem lift (result : Except Fault first) : Mirrors (liftM result) (Reader.ofExcept result) := by
  intro before rest
  cases result with
  | error fault => exact ⟨fault, rfl⟩
  | ok value => exact ⟨before, rfl⟩

theorem bind {next : first → Scan second} {after : first → Reader second} (mirrors : Mirrors program reader)
    (same : ∀ value, Mirrors (next value) (after value)) : Mirrors (program >>= next) (reader >>= after) := by
  intro before rest
  have here := mirrors before rest
  change match (reader rest).bind fun pair => after pair.1 pair.2 with
    | some (read, left) => ∃ later, (program >>= next) (between before rest) = .ok (read, between later left)
    | none => ∃ fault, (program >>= next) (between before rest) = .error fault
  cases taken : reader rest with
  | none =>
      rw [taken] at here
      obtain ⟨fault, run⟩ := here
      exact ⟨fault, Scan.bind_error run⟩
  | some pair =>
      rw [taken] at here
      obtain ⟨later, run⟩ := here
      rw [Scan.bind_ok run]
      exact same pair.1 later pair.2

/-- What the program takes is what the reader takes. -/
theorem taken (mirrors : Mirrors program reader) {before rest : Text} {value : first} {finish : Scanner}
    (run : program (between before rest) = .ok (value, finish)) : ∃ left, reader rest = some (value, left) := by
  have here := mirrors before rest
  cases read : reader rest with
  | none =>
      rw [read] at here
      obtain ⟨fault, failed⟩ := here
      rw [run] at failed
      cases failed
  | some pair =>
      rw [read] at here
      obtain ⟨later, same⟩ := here
      rw [run] at same
      cases same
      exact ⟨pair.2, rfl⟩

theorem takes (mirrors : Mirrors program reader) (before : Text) {rest left : Text} {value : first}
    (read : reader rest = some (value, left)) : ∃ later, program (between before rest) = .ok (value, between later left) := by
  have here := mirrors before rest
  rwa [read] at here

end Mirrors

namespace Reader

theorem bind_some {first second : Type} {reader : Reader first} {next : first → Reader second} {value : first}
    {rest left : Text} (read : reader rest = some (value, left)) : (reader >>= next) rest = next value left := by
  change (reader rest).bind _ = _
  rw [read]
  rfl

theorem some_of_bind {first second : Type} {reader : Reader first} {next : first → Reader second} {result : second}
    {rest finish : Text} (read : (reader >>= next) rest = some (result, finish)) :
    ∃ value left, reader rest = some (value, left) ∧ next value left = some (result, finish) := by
  obtain ⟨⟨value, left⟩, here, behind⟩ := Option.bind_eq_some_iff.1 read
  exact ⟨value, left, here, behind⟩

theorem ofExcept_some {value : Type} {result : Except Fault value} {rest left : Text} {found : value} :
    ofExcept result rest = some (found, left) ↔ result = .ok found ∧ rest = left := by
  cases result with
  | error fault => simp [ofExcept, Except.toOption]
  | ok other => simp [ofExcept, Except.toOption]

theorem kept_more {rest : Text} {char second : UInt8} : kept (char :: second :: rest) = char :: second :: rest := by
  rw [kept, if_neg (by simp)]

theorem mirrors_readAccepted {accepts : Int → Bool} (none : accepts (-1) = false) :
    Mirrors (readAccepted accepts) (word accepts) := by
  intro before rest
  have split := List.takeWhile_append_dropWhile (p := accepts ∘ toInt) (l := rest)
  have accepted : ∀ char ∈ rest.takeWhile (accepts ∘ toInt), accepts (toInt char) = true := fun char member =>
    List.mem_takeWhile_imp (p := accepts ∘ toInt) member
  rw [word]
  dsimp only
  generalize rest.takeWhile (accepts ∘ toInt) = taken at split accepted ⊢
  cases behind : rest.dropWhile (accepts ∘ toInt) with
  | nil =>
      rw [behind, List.append_nil] at split
      subst split
      exact ⟨_, readAccepted_end before none _ accepted⟩
  | cons stop others =>
      have refused : accepts (toInt stop) = false := by
        have head := List.head_dropWhile_not (accepts ∘ toInt) (l := rest) (by rw [behind]; exact List.cons_ne_nil _ _)
        simpa [behind] using head
      rw [behind] at split
      subst split
      cases others with
      | nil => exact ⟨_, readAccepted_lost before refused _ accepted⟩
      | cons second others =>
          rw [kept_more]
          exact ⟨_, readAccepted_stop before (List.cons_ne_nil _ _) refused _ accepted⟩

theorem mirrors_readOptSpace : Mirrors readOptSpace blanks :=
  (mirrors_readAccepted (by decide)).bind fun _ => Mirrors.pure ()

theorem mirrors_readSpace : Mirrors readSpace spaces :=
  (mirrors_readAccepted (by decide)).bind fun _ => Mirrors.pure _

/-- A character that is refused is put back where another one follows it. -/
theorem unget_kept (before rest : Text) (char : UInt8) :
    ∃ later, unget (between (before ++ [char]) rest) = .ok ((), between later (kept (char :: rest))) := by
  cases rest with
  | nil => exact ⟨_, unget_nil⟩
  | cons second rest =>
      rw [kept_more]
      exact ⟨_, unget_snoc (List.cons_ne_nil _ _)⟩

theorem mirrors_readSpecial {mark : Char} (visible : code mark ≠ -1) : Mirrors (readSpecial mark) (special mark) := by
  intro before rest
  cases rest with
  | nil => exact ⟨before, readSpecial_end visible⟩
  | cons char rest =>
      rw [special]
      by_cases same : toInt char = code mark
      · rw [if_pos same]
        exact ⟨_, readSpecial_same same⟩
      · rw [if_neg same]
        obtain ⟨later, back⟩ := unget_kept before rest char
        refine ⟨later, ?_⟩
        rw [readSpecial, Scan.bind_ok get_cons]
        simp only [bne_iff_ne, ne_eq, same, not_false_eq_true, if_true]
        rw [Scan.bind_ok back]
        rfl

theorem mirrors_lowerWord : Mirrors (readToken true) lowerWord :=
  (mirrors_readAccepted (by decide)).bind fun _ => Mirrors.pure _

theorem mirrors_string (whole : Text) : Mirrors (readString whole) string := by
  refine mirrors_lowerWord.bind fun name => ?_
  cases empty : name.isEmpty with
  | true => exact Mirrors.throw _
  | false => exact Mirrors.pure _

section Enclosed

variable {mark : Char} {accepts : Int → Bool} {kind : String} (before soFar rest : Text) (fuel : Nat)

/-- The result of a reader with what was read before it. -/
def Continues (program : Scan Text) (before soFar rest : Text) (result : Option (Text × Text)) : Prop :=
  match result with
  | some (found, left) => ∃ later, program (between before rest) = .ok (soFar ++ found, between later left)
  | none => ∃ fault, program (between before rest) = .error fault

theorem Continues.more {program later : Scan Text} {before after soFar taken rest left : Text}
    {result : Option (Text × Text)} (step : program (between before rest) = later (between after left))
    (behind : Continues later after (soFar ++ taken) left result) :
    Continues program before soFar rest (result.map fun (found, left) => (taken ++ found, left)) := by
  cases result with
  | none =>
      obtain ⟨fault, failed⟩ := behind
      exact ⟨fault, step.trans failed⟩
  | some pair =>
      obtain ⟨finish, run⟩ := behind
      exact ⟨finish, by rw [step, run, List.append_assoc]⟩

theorem readEnclosed_pass {char : UInt8} (other : toInt char ≠ code mark) (plain : toInt char ≠ code '\\')
    (accepted : accepts (toInt char) = true) :
    readEnclosed mark accepts kind (fuel + 1) soFar (between before (char :: rest)) =
      readEnclosed mark accepts kind fuel (soFar ++ [char]) (between (before ++ [char]) rest) := by
  rw [readEnclosed, Scan.bind_ok get_cons]
  simp only [beq_iff_eq, other, plain, accepted, if_true, if_false, toByte_toInt]

theorem readEnclosed_escape {char escaped : UInt8} (other : toInt char ≠ code mark) (slash : toInt char = code '\\')
    (accepted : isEscaped (toInt escaped) = true) :
    readEnclosed mark accepts kind (fuel + 1) soFar (between before (char :: escaped :: rest)) =
      readEnclosed mark accepts kind fuel (soFar ++ [char, escaped]) (between (before ++ [char] ++ [escaped]) rest) := by
  rw [readEnclosed, Scan.bind_ok get_cons]
  rw [if_neg (by simpa using other), if_pos (by simpa using slash), Scan.bind_ok get_cons, if_pos accepted, toByte_toInt,
    toByte_toInt]

/-- The rest of an enclosed text is read up to its closing mark. -/
theorem readEnclosed_closing (none : accepts (-1) = false) (visible : code mark ≠ -1) (enough : rest.length < fuel) :
    Continues (readEnclosed mark accepts kind fuel soFar) before soFar rest (closing mark accepts rest) := by
  obtain ⟨fuel, rfl⟩ : ∃ smaller, fuel = smaller + 1 := ⟨fuel - 1, by omega⟩
  fun_induction closing mark accepts rest generalizing before soFar fuel with
  | case1 =>
      have other : (-1 == code mark) = false := beq_eq_false_iff_ne.2 visible.symm
      have slash : (-1 == code '\\') = false := by decide
      apply Exists.intro
      rw [readEnclosed, Scan.bind_ok get_nil]
      simp only [other, slash, none, Bool.false_eq_true, if_false]
      rfl
  | case2 char rest same =>
      apply Exists.intro
      rw [readEnclosed, Scan.bind_ok get_cons]
      simp only [same, beq_self_eq_true, if_true]
      rw [← same, toByte_toInt]
      rfl
  | case3 char other slash =>
      have refused : isEscaped (-1) = false := by decide
      apply Exists.intro
      rw [readEnclosed, Scan.bind_ok get_cons]
      rw [if_neg (by simpa using other), if_pos (by simpa using slash)]
      rw [Scan.bind_ok get_nil, refused, if_neg Bool.false_ne_true]
      rfl
  | case4 char other slash escaped rest accepted inductionHypothesis =>
      obtain ⟨fuel, rfl⟩ : ∃ smaller, fuel = smaller + 1 := ⟨fuel - 1, by simp at enough; omega⟩
      exact Continues.more (readEnclosed_escape before soFar rest _ other slash accepted)
        (inductionHypothesis _ _ fuel (by simp at enough; omega))
  | case5 char other slash escaped rest refused =>
      apply Exists.intro
      rw [readEnclosed, Scan.bind_ok get_cons]
      rw [if_neg (by simpa using other), if_pos (by simpa using slash)]
      rw [Scan.bind_ok get_cons, if_neg refused]
      rfl
  | case6 char rest other plain accepted inductionHypothesis =>
      obtain ⟨fuel, rfl⟩ : ∃ smaller, fuel = smaller + 1 := ⟨fuel - 1, by simp at enough; omega⟩
      exact Continues.more (readEnclosed_pass before soFar rest _ other plain accepted)
        (inductionHypothesis _ _ fuel (by simp at enough; omega))
  | case7 char rest other plain refused =>
      apply Exists.intro
      rw [readEnclosed, Scan.bind_ok get_cons]
      simp only [beq_iff_eq, other, plain, refused, if_false]
      rfl

end Enclosed

theorem mirrors_readBetween {opening mark : Char} {accepts : Int → Bool} {kind : String} (none : accepts (-1) = false)
    (absent : code opening ≠ -1) (visible : code mark ≠ -1) :
    Mirrors (readBetween opening mark accepts kind) (enclosed opening mark accepts) := by
  intro before rest
  cases rest with
  | nil =>
      have other : (-1 != code opening) = true := bne_iff_ne.2 absent.symm
      refine ⟨before, ?_⟩
      rw [readBetween, Scan.bind_ok get_nil]
      simp only [other, if_true]
      rw [Scan.bind_ok unget_nil]
      rfl
  | cons char rest =>
      rw [enclosed]
      by_cases same : toInt char = code opening
      · rw [if_pos same]
        have behind := @readEnclosed_closing mark accepts kind (before ++ [char]) [char] rest (rest.length + 1) none visible
          (Nat.lt_succ_self _)
        have start : readBetween opening mark accepts kind (between before (char :: rest)) =
            (readEnclosed mark accepts kind (rest.length + 1) [char] >>= fun found => Pure.pure (some found)) (between (before ++ [char]) rest) := by
          rw [readBetween, Scan.bind_ok get_cons]
          simp only [same, bne_self_eq_false, Bool.false_eq_true, if_false]
          rw [Scan.bind_ok fuel_between, ← same, toByte_toInt]
        rw [start]
        cases found : closing mark accepts rest with
        | none =>
            rw [found] at behind
            obtain ⟨fault, failed⟩ := behind
            exact ⟨fault, Scan.bind_error failed⟩
        | some pair =>
            rw [found] at behind
            obtain ⟨later, run⟩ := behind
            exact ⟨later, Scan.bind_ok run⟩
      · rw [if_neg same]
        obtain ⟨later, back⟩ := unget_kept before rest char
        refine ⟨later, ?_⟩
        rw [readBetween, Scan.bind_ok get_cons]
        simp only [bne_iff_ne, ne_eq, same, not_false_eq_true, if_true]
        rw [Scan.bind_ok back]
        rfl

theorem mirrors_readQstring : Mirrors readQstring quoted :=
  mirrors_readBetween (by decide) (by decide) (by decide)

theorem mirrors_readComments : Mirrors readComments comment :=
  mirrors_readBetween (by decide) (by decide) (by decide)

theorem mirrors_filledWord : Mirrors (do
    let value ← readToken false
    pure (if value.isEmpty then none else some value)) filledWord := by
  have same : readToken false = readAccepted isTchar := bind_pure _
  rw [same]
  exact (mirrors_readAccepted (by decide)).bind fun value => Mirrors.pure _

theorem mirrors_readParameterValue : Mirrors readParameterValue parameterValue := by
  intro before rest
  cases rest with
  | nil =>
      refine ⟨before, ?_⟩
      rw [readParameterValue, Scan.bind_ok peek_nil]
      rfl
  | cons char rest =>
      rw [readParameterValue, Scan.bind_ok peek_cons, parameterValue]
      by_cases quote : toInt char = code '"'
      · simp only [quote, beq_self_eq_true, if_true]
        exact mirrors_readQstring before (char :: rest)
      · simp only [beq_iff_eq, quote, if_false]
        by_cases accepted : isTchar (toInt char) = true
        · simp only [accepted, if_true]
          exact mirrors_filledWord before (char :: rest)
        · simp only [accepted, Bool.false_eq_true, if_false]
          exact ⟨before, rfl⟩

theorem mirrors_readParameter : Mirrors readParameter parameter := by
  refine mirrors_lowerWord.bind fun name => ?_
  cases empty : name.isEmpty with
  | true => exact Mirrors.throw _
  | false =>
      refine mirrors_readOptSpace.bind fun _ => (mirrors_readSpecial (by decide)).bind fun found => ?_
      cases found with
      | false => exact Mirrors.throw _
      | true =>
          refine mirrors_readOptSpace.bind fun _ => mirrors_readParameterValue.bind fun value => ?_
          cases value with
          | none => exact Mirrors.throw _
          | some value => exact Mirrors.pure _

theorem mirrors_readParametersLoop (fuel : Nat) : Mirrors (readParametersLoop fuel) (parameters fuel) := by
  induction fuel with
  | zero => exact Mirrors.pure []
  | succ fuel inductionHypothesis =>
      refine mirrors_readParameter.bind fun first => mirrors_readOptSpace.bind fun _ =>
        (mirrors_readSpecial (by decide)).bind fun more => ?_
      cases more with
      | false => exact Mirrors.pure _
      | true => exact inductionHypothesis.bind fun rest => Mirrors.pure _

theorem mirrors_readParameters : Mirrors readParameters allParameters := by
  intro before rest
  rw [readParameters, Scan.bind_ok fuel_between]
  exact mirrors_readParametersLoop _ before rest

theorem mirrors_readTokenValue (whole : Text) : Mirrors (readTokenValue whole) token := by
  refine (mirrors_string whole).bind fun name => mirrors_readOptSpace.bind fun _ =>
    (mirrors_readSpecial (by decide)).bind fun found => ?_
  cases found with
  | false => exact Mirrors.pure _
  | true => exact mirrors_readParameters.bind fun _ => Mirrors.pure _

theorem mirrors_parseList {element : Type} {read : Scan element} {reader : Reader element} (mirrors : Mirrors read reader)
    (fuel : Nat) : Mirrors (parseList read fuel) (list reader fuel) := by
  induction fuel with
  | zero => exact Mirrors.pure []
  | succ fuel inductionHypothesis =>
      refine mirrors.bind fun first => mirrors_readOptSpace.bind fun _ =>
        (mirrors_readSpecial (by decide)).bind fun more => ?_
      cases more with
      | false => exact Mirrors.pure _
      | true => exact mirrors_readOptSpace.bind fun _ => inductionHypothesis.bind fun rest => Mirrors.pure _

theorem mirrors_readMediaType : Mirrors readMediaType mediaType := by
  refine mirrors_lowerWord.bind fun type => ?_
  cases empty : type.isEmpty with
  | true => exact Mirrors.throw _
  | false =>
      refine (mirrors_readSpecial (by decide)).bind fun found => ?_
      cases found with
      | false => exact Mirrors.throw _
      | true =>
          refine mirrors_lowerWord.bind fun subtype => ?_
          cases none : subtype.isEmpty with
          | true => exact Mirrors.throw _
          | false =>
              refine mirrors_readOptSpace.bind fun _ => (mirrors_readSpecial (by decide)).bind fun more => ?_
              cases more with
              | false => exact Mirrors.pure _
              | true => exact mirrors_readOptSpace.bind fun _ => mirrors_readParameters.bind fun _ => Mirrors.pure _

theorem mirrors_readUri : Mirrors readUri uri := by
  refine (mirrors_readAccepted (by decide)).bind fun found => ?_
  cases empty : found.isEmpty with
  | true => exact Mirrors.pure _
  | false => exact (Mirrors.lift _).bind fun _ => Mirrors.pure _

theorem mirrors_readVia : Mirrors readVia via := by
  refine mirrors_readOptSpace.bind fun _ => (mirrors_readAccepted (by decide)).bind fun version => ?_
  cases noVersion : version.isEmpty with
  | true => exact Mirrors.throw _
  | false =>
      refine (Mirrors.lift _).bind fun ver => ?_
      refine mirrors_readSpace.bind fun space => ?_
      cases space with
      | false => exact Mirrors.throw _
      | true =>
          refine mirrors_readUri.bind fun found => ?_
          cases noUri : found.isEmpty with
          | true => exact Mirrors.throw _
          | false =>
              exact (Mirrors.lift _).bind fun _ => mirrors_readSpace.bind fun _ => mirrors_readComments.bind fun _ =>
                Mirrors.pure _

/-- A list is parsed as its reader reads the whole text. -/
theorem parseAll_iff {element : Type} {read : Scan element} {reader : Reader element} (mirrors : Mirrors read reader)
    {string : Text} {values : List element} :
    parseAll read string = .ok values ↔ string = [] ∧ values = [] ∨
      string ≠ [] ∧ ∃ left, list reader (string.length + 1) string = some (values, left) := by
  have behaves := mirrors_parseList mirrors (string.length + 1) [] string
  rw [parseAll]
  cases string with
  | nil => simp [eq_comm]
  | cons char string =>
      rw [List.isEmpty_cons, if_neg Bool.false_ne_true, init_eq]
      cases taken : list reader ((char :: string).length + 1) (char :: string) with
      | none =>
          rw [taken] at behaves
          obtain ⟨fault, failed⟩ := behaves
          rw [failed]
          simp [Except.map]
      | some pair =>
          rw [taken] at behaves
          obtain ⟨later, run⟩ := behaves
          rw [run]
          obtain ⟨found, left⟩ := pair
          simp [Except.map]

end Reader

end SimpleNFast.Http
