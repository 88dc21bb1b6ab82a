import SimpleNFast.Proof.Http.FieldLines
import SimpleNFast.Proof.Http.UriRuns

set_option maxRecDepth 100000

namespace SimpleNFast.Http

open Scanner

/-- Each value that the program yields has the property. -/
def Yields {value : Type} (holds : value → Prop) (program : Scan value) : Prop :=
  ∀ start read finish, program start = .ok (read, finish) → holds read

namespace Yields

variable {first second : Type} {holds : first → Prop} {wish : second → Prop}

theorem pure {value : first} (here : holds value) : Yields holds (pure value) := by
  intro start read finish run
  cases run
  exact here

theorem throw {fault : Fault} : Yields holds (throw fault) := by
  intro start read finish run
  cases run

theorem bind {program : Scan first} {next : first → Scan second} (yields : Yields holds program)
    (after : ∀ value, holds value → Yields wish (next value)) : Yields wish (program >>= next) := by
  intro start read finish run
  obtain ⟨value, middle, before, rest⟩ := Scan.eq_ok_of_bind run
  exact after value (yields start value middle before) middle read finish rest

theorem after {program : Scan first} {next : first → Scan second} (yields : ∀ value, Yields wish (next value)) :
    Yields wish (program >>= next) := by
  intro start read finish run
  obtain ⟨value, middle, _, rest⟩ := Scan.eq_ok_of_bind run
  exact yields value middle read finish rest

end Yields

theorem lower_lower : ∀ char : UInt8, toByte (toLower (toInt (toByte (toLower (toInt char))))) =
    toByte (toLower (toInt char)) := by
  apply octet_forall
  decide

theorem isLowerCase_lower (word : Text) : isLowerCase (Headers.lower word) = true := by
  rw [isLowerCase, beq_iff_eq, Headers.lower, Headers.lower, List.map_map]
  exact List.map_congr_left fun char _ => lower_lower char

theorem readToken_yields : Yields (fun word => isLowerCase word = true) (readToken true) :=
  .after fun word => .pure (isLowerCase_lower word)

theorem readString_yields (string : Text) : Yields (fun word => isLowerCase word = true) (readString string) := by
  refine readToken_yields.bind fun word lower => ?_
  dsimp only
  split
  · exact .after fun _ => .pure lower
  · exact .pure lower

theorem readValue_yields {name : Text} (lower : isLowerCase name = true) :
    Yields (fun parameter : Text × Text => isLowerCase parameter.1 = true) (do
      match ← readParameterValue with
      | none => throw (.invalidArgument (text "no/invalid parameter value"))
      | some value => pure (name, value)) := by
  refine .after fun value => ?_
  cases value with
  | none => exact .throw
  | some value => exact .pure lower

theorem readEquals_yields {name : Text} (lower : isLowerCase name = true) :
    Yields (fun parameter : Text × Text => isLowerCase parameter.1 = true) (do
      readOptSpace
      if !(← readSpecial '=') then throw (.invalidArgument (text "no '=' after parameter name"))
      readOptSpace
      match ← readParameterValue with
      | none => throw (.invalidArgument (text "no/invalid parameter value"))
      | some value => pure (name, value)) := by
  refine .after fun _ => .after fun found => ?_
  cases found with
  | true => exact .after fun _ => readValue_yields lower
  | false => exact .after fun _ => .after fun _ => readValue_yields lower

/-- The names of parameters are read in lower case. -/
theorem readParameter_yields : Yields (fun parameter => isLowerCase parameter.1 = true) readParameter := by
  refine readToken_yields.bind fun name lower => ?_
  dsimp only
  split
  · exact .after fun _ => readEquals_yields lower
  · exact readEquals_yields lower

theorem readParametersLoop_yields (fuel : Nat) :
    Yields (fun parameters => parameters.all (fun parameter => isLowerCase parameter.1) = true)
      (readParametersLoop fuel) := by
  induction fuel with
  | zero => exact .pure rfl
  | succ fuel inductionHypothesis =>
      refine readParameter_yields.bind fun parameter lower => .after fun _ => .after fun more => ?_
      cases more with
      | true => exact inductionHypothesis.bind fun rest behind => .pure (by rw [List.all_cons, lower, behind]; rfl)
      | false => exact .pure (by rw [List.all_cons, lower]; rfl)

theorem readTokenValue_yields (string : Text) : Yields (fun token => token.isLowerCase = true) (readTokenValue string) := by
  refine (readString_yields string).bind fun name lower => .after fun _ => .after fun found => ?_
  cases found with
  | true =>
      have read : Yields (fun parameters => parameters.all (fun parameter => isLowerCase parameter.1) = true)
          readParameters := .after readParametersLoop_yields
      exact read.bind fun parameters behind => .pure (by rw [Token.isLowerCase, lower, behind]; rfl)
  | false => exact .pure (by rw [Token.isLowerCase, lower]; rfl)

/-- The elements of a list are those that the reader of elements yields. -/
theorem parseList_yields {element : Type} {read : Scan element} {fine : element → Bool}
    (yields : Yields (fun value => fine value = true) read) (fuel : Nat) :
    Yields (fun values => values.all fine = true) (parseList read fuel) := by
  induction fuel with
  | zero => exact .pure rfl
  | succ fuel inductionHypothesis =>
      refine yields.bind fun first here => .after fun _ => .after fun more => ?_
      cases more with
      | true =>
          exact .after fun _ => inductionHypothesis.bind fun rest behind => .pure (by rw [List.all_cons, here, behind]; rfl)
      | false => exact .pure (by rw [List.all_cons, here]; rfl)

theorem parseAll_yields {element : Type} {read : Scan element} {fine : element → Bool}
    (yields : Yields (fun value => fine value = true) read) {string : Text} {values : List element}
    (parsed : parseAll read string = .ok values) : values.all fine = true := by
  rw [parseAll] at parsed
  split at parsed
  · cases parsed
    rfl
  · cases run : parseList read (string.length + 1) (Scanner.init string) with
    | error fault =>
        rw [run] at parsed
        cases parsed
    | ok pair =>
        rw [run] at parsed
        cases parsed
        exact parseList_yields yields _ _ _ _ run

namespace Field

/-- A value has the name that was asked for, and its words are in lower case. -/
theorem validate_spec {name value : Text} {field : Field} (valid : validate name value = .ok field) :
    field.name = name ∧ field.isLowerCase = true := by
  have wrapped {read : Type} {wrap : read → Field} {parsed : Except Fault read}
      (spec : ∀ value, parsed = .ok value → (wrap value).name = name ∧ (wrap value).isLowerCase = true)
      (made : wrap <$> parsed = .ok field) : field.name = name ∧ field.isLowerCase = true := by
    cases parsed with
    | error fault => cases made
    | ok value =>
        cases made
        exact spec value rfl
  have checked {parsed : Except Fault (List Text)} {validator : Text → Except Fault Unit}
      {wrap : List Text → Field} (spec : ∀ values, (wrap values).name = name ∧ (wrap values).isLowerCase = true)
      (made : (do
        let values ← parsed
        values.forM validator
        pure (wrap values)) = Except.ok field) : field.name = name ∧ field.isLowerCase = true := by
    obtain ⟨values, _, rest⟩ := ok_of_bind made
    obtain ⟨_, _, built⟩ := ok_of_bind rest
    cases built
    exact spec values
  have either {asked : Text} {this others : Except Fault Field} (made : (if name = asked then this else others) = .ok field)
      (here : asked = name → this = .ok field → field.name = name ∧ field.isLowerCase = true)
      (there : name ≠ asked → others = .ok field → field.name = name ∧ field.isLowerCase = true) :
      field.name = name ∧ field.isLowerCase = true := by
    split at made
    · rename_i same
      exact here same.symm made
    · rename_i different
      exact there different made
  rw [validate] at valid
  by_cases unknown : name ∉ knownNames
  · rw [dif_pos unknown] at valid
    refine wrapped ?_ valid
    exact fun values parsed => ⟨rfl, parseAll_yields (readString_yields value) parsed⟩
  rw [dif_neg unknown] at valid
  refine either valid (fun same => wrapped fun _ _ => ⟨same, rfl⟩) fun notLength valid => ?_
  refine either valid (fun same => wrapped fun codings parsed =>
    ⟨same, parseAll_yields (readTokenValue_yields value) parsed⟩) fun notTransfer valid => ?_
  refine either valid (fun same => wrapped fun codings parsed =>
    ⟨same, parseAll_yields (readTokenValue_yields value) parsed⟩) fun notTe valid => ?_
  refine either valid (fun same => wrapped fun names parsed =>
    ⟨same, parseAll_yields (readString_yields value) parsed⟩) fun notTrailers valid => ?_
  refine either valid (fun same => wrapped fun _ _ => ⟨same, rfl⟩) fun notHost valid => ?_
  refine either valid (fun same => wrapped fun _ _ => ⟨same, rfl⟩) fun notVia valid => ?_
  refine either valid (fun same => checked fun _ => ⟨same, rfl⟩) fun notConnection valid => ?_
  refine either valid (fun same made => ?_) fun notType valid => ?_
  · obtain ⟨mediaType, _, rest⟩ := ok_of_bind made
    obtain ⟨_, _, built⟩ := ok_of_bind rest
    cases built
    exact ⟨same, rfl⟩
  refine either valid (fun same => checked fun _ => ⟨same, rfl⟩) fun notEncoding valid => ?_
  refine either valid (fun same => wrapped fun _ _ => ⟨same, rfl⟩) fun notLocation valid => ?_
  have last : DATE = name := by
    rw [not_not, knownNames] at unknown
    simpa only [List.mem_cons, List.not_mem_nil, notLength, notTransfer, notTe, notTrailers, notHost, notVia,
      notConnection, notType, notEncoding, notLocation, false_or, or_false, eq_comm] using unknown
  refine wrapped ?_ valid
  exact fun _ _ => ⟨last, rfl⟩

theorem append_lower {target field joined : Field} (appended : target.append field = some joined)
    (first : target.isLowerCase = true) (second : field.isLowerCase = true) : joined.isLowerCase = true := by
  cases target <;> cases field <;> cases appended <;>
    first
    | rfl
    | (rw [isLowerCase] at first second ⊢
       rw [List.all_append, first, second]
       rfl)

end Field

namespace Headers

variable {headers later : Headers}

/-- The fields are in lower case. -/
def IsLower (headers : Headers) : Prop := ∀ field ∈ headers.fields, field.isLowerCase = true

theorem isLower_update {field : Field} (lower : headers.IsLower) (here : field.isLowerCase = true) :
    (headers.update field).IsLower := by
  intro other member
  rw [update] at member
  dsimp only at member
  split at member
  · obtain ⟨old, among, rfl⟩ := List.mem_map.1 member
    split
    · exact here
    · exact lower old among
  · obtain early | last := List.mem_append.1 member
    · exact lower other early
    · rw [List.mem_singleton.1 last]
      exact here

theorem isLower_add {name value : Text} (lower : headers.IsLower) (added : headers.add name value = .ok later) :
    later.IsLower := by
  rw [add] at added
  split at added
  · cases added
    exact lower
  · obtain ⟨field, read, rest⟩ := ok_of_bind added
    have cased := (Field.validate_spec read).2
    cases there : headers.find (Headers.lower name) with
    | none =>
        rw [there] at rest
        cases rest
        exact isLower_update lower cased
    | some target =>
        rw [there] at rest
        cases joined : target.append field with
        | none =>
            simp only [joined] at rest
            cases rest
        | some all =>
            simp only [joined] at rest
            cases rest
            exact isLower_update lower (Field.append_lower joined (lower target (List.mem_of_find?_eq_some there)) cased)

end Headers

/-- What is read from a stream is in lower case. -/
theorem isLower_receiveStreamHeaders {fuel : Nat} {is last : IStream} {headers later : Headers} (lower : headers.IsLower)
    (run : Request.receiveStreamHeaders fuel is headers = .ok (later, last)) : later.IsLower := by
  induction fuel generalizing is headers with
  | zero =>
      cases run
      exact lower
  | succ fuel inductionHypothesis =>
      rw [Request.receiveStreamHeaders] at run
      split at run
      · cases run
      · split at run
        · cases run
          exact lower
        · obtain ⟨next, added, rest⟩ := ok_of_bind run
          obtain ⟨_, _, added⟩ := ok_of_bind added
          exact inductionHypothesis (Headers.isLower_add lower added) rest

end SimpleNFast.Http
