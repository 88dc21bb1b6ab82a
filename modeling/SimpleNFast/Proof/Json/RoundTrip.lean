import SimpleNFast.Proof.Json.Layout
import SimpleNFast.Proof.Json.Ranges
import SimpleNFast.Proof.Json.Weights

set_option maxRecDepth 100000

namespace SimpleNFast.Json

/-- The plain layout of a value is the text of a tree, from which the value is read or a lighter one. -/
structure Mirrors (value : Value) (tree : Tree) : Prop where
  container : tree.isContainer = value.isContainer
  within : tree.Within .read
  text : ∀ indent, value.str false indent = .ok tree.text
  returns : value.Returns → tree.read = some value
  lighter : ∀ result, tree.read = some result →
    result.weight ≤ value.weight ∧ (¬ value.Returns → result.weight < value.weight)

def ElementsReturn (elements : List Value) : Prop :=
  Value.elementsAll Value.LeafReturns Value.Unescaped (· ≠ []) (· ≠ []) elements

def MembersReturn (members : List (Text × Value)) : Prop :=
  Value.membersAll Value.LeafReturns Value.Unescaped (· ≠ []) (· ≠ []) members

structure MirrorsElements (elements : List Value) (row : Elements) : Prop where
  within : row.Within .read
  text : ∀ isFirst indent, ∃ inner, Value.elementsStr false indent isFirst elements = .ok inner ∧
    inner ++ [byte ' '] = (if isFirst then [] else [byte ',']) ++ row.text
  returns : ElementsReturn elements → row.read = some elements
  lighter : ∀ results, row.read = some results → Value.elementsWeight results ≤ Value.elementsWeight elements ∧
    (¬ ElementsReturn elements → Value.elementsWeight results < Value.elementsWeight elements)

structure MirrorsMembers (members : List (Text × Value)) (row : Members) : Prop where
  within : row.Within .read
  text : ∀ isFirst indent, ∃ inner, Value.membersStr false indent isFirst members = .ok inner ∧
    inner ++ [byte ' '] = (if isFirst then [] else [byte ',']) ++ row.text
  returns : MembersReturn members → row.read = some members
  lighter : ∀ results, row.read = some results → Value.membersWeight results ≤ Value.membersWeight members ∧
    (¬ MembersReturn members → Value.membersWeight results < Value.membersWeight members)

/-- A literal that is written for a string of valid UTF-8. -/
theorem exists_body {string : Text} (valid : Utf8.IsValid string) :
    ∃ body, bodyOf Item.IsRead body ∧ stringEscape string = .ok body ∧
      Lexeme.string? body = (stringUnescape string).toOption := by
  obtain ⟨items, isRead, bytes, escaped⟩ := stringEscape_items valid
  refine ⟨items.flatMap Item.text, ⟨items, isRead, rfl⟩, escaped, ?_⟩
  rw [Lexeme.string?, stringUnescape_items isRead, bytes]
  rfl

/-- The token of an integer that is written. -/
theorem token_ofInt (value : Int64) :
    (Number.ofInt value.toInt).token = if value = 0 then none else some (.integer value) := by
  have natural := number_digits value.toInt.natAbs
  have integer : (Number.ofInt value.toInt).integer = value.toInt := by
    rw [Number.integer]
    change (if decide (value.toInt < 0) = true then -(number 10 (digits 10 value.toInt.natAbs) : Int)
      else (number 10 (digits 10 value.toInt.natAbs) : Int)) = _
    rw [natural]
    simp only [decide_eq_true_eq]
    split <;> omega
  have isRead : (Number.ofInt value.toInt).IsRead ↔ value ≠ 0 := by
    constructor
    · rintro ⟨zero, -⟩ rfl
      exact zero rfl rfl
    · intro nonzero
      refine ⟨fun zero => absurd ?_ nonzero, fun exponent given => by cases given⟩
      rw [show digits 10 value.toInt.natAbs = [byte '0'] from zero] at natural
      have none : number 10 [byte '0'] = 0 := rfl
      exact Int64.toInt_inj.mp (by rw [Int64.toInt_zero]; omega)
  have upper := value.toInt_lt
  have lower := value.le_toInt
  have isInteger : (Number.ofInt value.toInt).isInteger = true := rfl
  rw [Number.token]
  by_cases zero : value = 0
  · rw [if_pos zero, if_neg fun both => isRead.mp both zero]
  · rw [if_neg zero, if_pos (isRead.mpr zero), if_pos isInteger, stoll, Number.signedNumber_eq, integer,
      if_neg (by omega), Int64.ofInt_toInt]
    rfl

/-- A leaf that is read as itself. -/
theorem mirrors_scalar {value : Value} {lexeme : Lexeme} (scalar : value.isContainer = false)
    (within : lexeme.Within .read) (text : ∀ indent, value.str false indent = .ok lexeme.text) (read : (Tree.scalar lexeme).read = some value)
    (returns : value.Returns) : Mirrors value (.scalar lexeme) where
  container := scalar.symm
  within := within
  text := text
  returns _ := read
  lighter result same := by
    rw [read] at same
    cases same
    exact ⟨le_refl _, fun other => absurd returns other⟩

theorem mirrors_integer (value : Int64) : Mirrors (.integer value) (.scalar (.number (Number.ofInt value.toInt))) := by
  have read : (Tree.scalar (.number (Number.ofInt value.toInt))).read =
      if value = 0 then none else some (.integer value) := by
    change (Number.ofInt value.toInt).token.bind Token.value = _
    rw [token_ofInt]
    split
    · rfl
    · rfl
  refine ⟨rfl, trivial, fun indent => ?_, fun nonzero => ?_, fun result same => ?_⟩
  · rw [Value.str]
    exact congrArg Except.ok (Number.text_ofInt value.toInt).symm
  · rw [read, if_neg nonzero]
  · rw [read] at same
    by_cases zero : value = 0
    · rw [if_pos zero] at same
      cases same
    · rw [if_neg zero] at same
      cases same
      exact ⟨le_refl _, fun other => absurd zero other⟩

theorem mirrors_string {string body : Text} (readable : bodyOf Item.IsRead body)
    (escaped : stringEscape string = .ok body) (isString : Lexeme.string? body = (stringUnescape string).toOption) :
    Mirrors (.string string) (.scalar (.string body)) := by
  obtain ⟨same, shorter⟩ := stringUnescape_length string
  have read : (Tree.scalar (.string body)).read = (stringUnescape string).toOption.map .string := by
    change ((Lexeme.string? body).map Token.string).bind Token.value = _
    rw [isString]
    cases (stringUnescape string).toOption <;> rfl
  refine ⟨rfl, readable, fun indent => ?_, fun unescaped => ?_, fun result found => ?_⟩
  · rw [Value.str, escaped]
    rfl
  · rw [read, same unescaped]
    rfl
  · rw [read] at found
    cases ran : stringUnescape string with
    | ok content =>
        rw [ran] at found
        cases found
        exact shorter content ran
    | error fault =>
        rw [ran] at found
        cases found

/-- A key that is read from its literal. -/
theorem key_lighter {key body : Text} (isString : Lexeme.string? body = (stringUnescape key).toOption) :
    (Value.Unescaped key → Lexeme.key body = some key) ∧
      ∀ result, Lexeme.key body = some result →
        result.length ≤ key.length ∧ (¬ Value.Unescaped key → result.length < key.length) := by
  obtain ⟨same, shorter⟩ := stringUnescape_length key
  rw [Lexeme.key, isString]
  refine ⟨fun unescaped => ?_, fun result found => ?_⟩
  · rw [same unescaped, Except.toOption, Option.bind_some, same unescaped]
    rfl
  · obtain ⟨once, isOnce, isTwice⟩ := Option.bind_eq_some_iff.mp found
    cases first : stringUnescape key with
    | error fault =>
        rw [first] at isOnce
        cases isOnce
    | ok content =>
        rw [first] at isOnce
        cases isOnce
        cases second : stringUnescape once with
        | error fault =>
            rw [second] at isTwice
            cases isTwice
        | ok twice =>
            rw [second] at isTwice
            cases isTwice
            have less := shorter once first
            have more := ((stringUnescape_length once).2 result second).1
            exact ⟨by omega, fun backslash => by have := less.2 backslash; omega⟩

section Rows

variable {value : Value} {tree : Tree}

theorem mirrors_last (mirrors : Mirrors value tree) :
    MirrorsElements [value] (.last [byte ' '] tree [byte ' ']) where
  within := ⟨space_plain, mirrors.within, space_plain⟩
  text isFirst indent := by
    refine ⟨(if isFirst then [] else [byte ',']) ++ [byte ' '] ++ tree.text ++ [], ?_, ?_⟩
    · rw [elementsStr_cons, separator_plain, mirrors.text]
      rfl
    · simp [Elements.text]
  returns all := Elements.read_last_iff.mpr ⟨value, mirrors.returns all.1, rfl⟩
  lighter results read := by
    obtain ⟨result, isResult, rfl⟩ := Elements.read_last_iff.mp read
    obtain ⟨light, lighter⟩ := mirrors.lighter result isResult
    exact ⟨light, fun other => lighter fun all => other ⟨all, trivial⟩⟩

theorem mirrors_more (mirrors : Mirrors value tree) {elements : List Value} {row : Elements}
    (others : MirrorsElements elements row) :
    MirrorsElements (value :: elements) (.more [byte ' '] tree [] row) where
  within := ⟨⟨space_plain, mirrors.within, space_nil⟩, others.within⟩
  text isFirst indent := by
    obtain ⟨inner, isInner, joined⟩ := others.text false indent
    refine ⟨(if isFirst then [] else [byte ',']) ++ [byte ' '] ++ tree.text ++ inner, ?_, ?_⟩
    · rw [elementsStr_cons, separator_plain, mirrors.text, isInner]
      rfl
    · rw [List.append_assoc, joined]
      simp [Elements.text]
  returns all := Elements.read_more_iff.mpr ⟨value, elements, mirrors.returns all.1, others.returns all.2, rfl⟩
  lighter results read := by
    obtain ⟨result, rest, isResult, isRest, rfl⟩ := Elements.read_more_iff.mp read
    obtain ⟨light, lighter⟩ := mirrors.lighter result isResult
    obtain ⟨lightRest, lighterRest⟩ := others.lighter rest isRest
    simp only [Value.elementsWeight]
    refine ⟨by omega, fun other => ?_⟩
    by_cases returns : value.Returns
    · have := lighterRest fun all => other ⟨returns, all⟩
      omega
    · have := lighter returns
      omega

variable {key body : Text} (readable : bodyOf Item.IsRead body) (escaped : stringEscape key = .ok body)
  (isString : Lexeme.string? body = (stringUnescape key).toOption)
include readable escaped isString

theorem mirrors_lastMember (mirrors : Mirrors value tree) :
    MirrorsMembers [(key, value)] (.last [byte ' '] body [byte ' '] [byte ' '] tree [byte ' ']) where
  within := ⟨⟨space_plain, readable, space_plain, space_plain⟩, mirrors.within, space_plain⟩
  text isFirst indent := by
    refine ⟨(if isFirst then [] else [byte ',']) ++ [byte ' '] ++
      ([byte '"'] ++ body ++ SimpleNFast.text "\" : " ++ tree.text) ++ [], ?_, ?_⟩
    · rw [membersStr_cons, separator_plain, memberStr, escaped, mirrors.text]
      rfl
    · simp [Members.text, memberHead, Lexeme.quoted, SimpleNFast.text]
  returns all := Members.read_last_iff.mpr ⟨key, value, (key_lighter isString).1 all.1.1, mirrors.returns all.1.2, rfl⟩
  lighter results read := by
    obtain ⟨name, result, isName, isResult, rfl⟩ := Members.read_last_iff.mp read
    obtain ⟨short, shorter⟩ := (key_lighter isString).2 name isName
    obtain ⟨light, lighter⟩ := mirrors.lighter result isResult
    simp only [Value.membersWeight]
    refine ⟨by omega, fun other => ?_⟩
    by_cases unescaped : Value.Unescaped key
    · have := lighter fun returns => other ⟨⟨unescaped, returns⟩, trivial⟩
      omega
    · have := shorter unescaped
      omega

theorem mirrors_moreMembers (mirrors : Mirrors value tree) {members : List (Text × Value)} {row : Members}
    (others : MirrorsMembers members row) :
    MirrorsMembers ((key, value) :: members) (.more [byte ' '] body [byte ' '] [byte ' '] tree [] row) where
  within := ⟨⟨⟨space_plain, readable, space_plain, space_plain⟩, mirrors.within, space_nil⟩, others.within⟩
  text isFirst indent := by
    obtain ⟨inner, isInner, joined⟩ := others.text false indent
    refine ⟨(if isFirst then [] else [byte ',']) ++ [byte ' '] ++
      ([byte '"'] ++ body ++ SimpleNFast.text "\" : " ++ tree.text) ++ inner, ?_, ?_⟩
    · rw [membersStr_cons, separator_plain, memberStr, escaped, mirrors.text, isInner]
      rfl
    · rw [List.append_assoc, joined]
      simp [Members.text, memberHead, Lexeme.quoted, SimpleNFast.text]
  returns all := Members.read_more_iff.mpr
    ⟨key, value, members, (key_lighter isString).1 all.1.1, mirrors.returns all.1.2, others.returns all.2, rfl⟩
  lighter results read := by
    obtain ⟨name, result, rest, isName, isResult, isRest, rfl⟩ := Members.read_more_iff.mp read
    obtain ⟨short, shorter⟩ := (key_lighter isString).2 name isName
    obtain ⟨light, lighter⟩ := mirrors.lighter result isResult
    obtain ⟨lightRest, lighterRest⟩ := others.lighter rest isRest
    simp only [Value.membersWeight]
    refine ⟨by omega, fun other => ?_⟩
    by_cases unescaped : Value.Unescaped key
    · by_cases returns : value.Returns
      · have := lighterRest fun all => other ⟨⟨unescaped, returns⟩, all⟩
        omega
      · have := lighter returns
        omega
    · have := shorter unescaped
      omega

end Rows

/-- The brackets around the elements of an array. -/
theorem mirrors_array {elements : List Value} {row : Elements} (nonempty : elements ≠ [])
    (mirrors : MirrorsElements elements row) : Mirrors (.array elements) (.array row) where
  container := rfl
  within := mirrors.within
  text indent := by
    obtain ⟨inner, isInner, joined⟩ := mirrors.text true (castInt (indent + 2))
    rw [if_pos rfl, List.nil_append] at joined
    rw [Value.str, isInner, separator_plain, Tree.text, ← joined]
    exact congrArg Except.ok (by simp)
  returns all := by
    rw [Tree.read, mirrors.returns all.2]
    rfl
  lighter result read := by
    obtain ⟨results, isResults, rfl⟩ := Option.map_eq_some_iff.mp read
    obtain ⟨light, lighter⟩ := mirrors.lighter results isResults
    exact ⟨light, fun other => lighter fun all => other ⟨nonempty, all⟩⟩

/-- The brackets around the members of an object, of which the first one with a key stays. -/
theorem mirrors_object {members : List (Text × Value)} {row : Members} (nonempty : members ≠ [])
    (isMap : Value.IsMap members) (mirrors : MirrorsMembers members row) : Mirrors (.object members) (.object row) where
  container := rfl
  within := mirrors.within
  text indent := by
    obtain ⟨inner, isInner, joined⟩ := mirrors.text true (castInt (indent + 2))
    rw [if_pos rfl, List.nil_append] at joined
    rw [Value.str, isInner, separator_plain, Tree.text, ← joined]
    exact congrArg Except.ok (by simp)
  returns all := by
    rw [Tree.read, mirrors.returns all.2]
    exact congrArg (fun members => some (Value.object members)) (Value.collect_isMap members isMap)
  lighter result read := by
    obtain ⟨results, isResults, rfl⟩ := Option.map_eq_some_iff.mp read
    obtain ⟨light, lighter⟩ := mirrors.lighter results isResults
    have collected := Value.collect_weight_le results List.Pairwise.nil
    change Value.membersWeight (Value.collect [] results) ≤ Value.membersWeight members ∧
      (_ → Value.membersWeight (Value.collect [] results) < Value.membersWeight members)
    rw [Value.membersWeight, Nat.zero_add] at collected
    refine ⟨collected.trans light, fun other => collected.trans_lt (lighter fun all => other ⟨nonempty, all⟩)⟩

/-- A container without an element is not read. -/
theorem mirrors_empty {value : Value} {tree : Tree} (container : tree.isContainer = value.isContainer)
    (within : tree.Within .read) (text : ∀ indent, value.str false indent = .ok tree.text)
    (unread : tree.read = none) (never : ¬ value.Returns) : Mirrors value tree where
  container := container
  within := within
  text := text
  returns returns := absurd returns never
  lighter result read := by
    rw [unread] at read
    cases read

mutual

theorem exists_mirror : (value : Value) → value.IsPlain → ∃ tree, Mirrors value tree
  | .null, _ => ⟨.scalar .null, mirrors_scalar rfl trivial (fun _ => by rw [Value.str]; rfl) rfl trivial⟩
  | .boolean true, _ => ⟨.scalar .true, mirrors_scalar rfl trivial (fun _ => by rw [Value.str]; rfl) rfl trivial⟩
  | .boolean false, _ => ⟨.scalar .false, mirrors_scalar rfl trivial (fun _ => by rw [Value.str]; rfl) rfl trivial⟩
  | .integer value, _ => ⟨_, mirrors_integer value⟩
  | .real _, plain => absurd plain id
  | .string content, valid => by
      obtain ⟨body, readable, escaped, isString⟩ := exists_body valid
      exact ⟨_, mirrors_string readable escaped isString⟩
  | .array [], _ =>
      ⟨.emptyArray [byte ' '], mirrors_empty rfl space_plain (fun _ => by rw [Value.str]; rfl) rfl fun all =>
        all.1 rfl⟩
  | .object [], _ =>
      ⟨.emptyObject [byte ' '], mirrors_empty rfl space_plain (fun _ => by rw [Value.str]; rfl) rfl fun all =>
        all.1 rfl⟩
  | .array (value :: rest), plain => by
      obtain ⟨row, mirrors⟩ := exists_mirrorElements (value :: rest) (List.cons_ne_nil _ _) plain.2
      exact ⟨_, mirrors_array (List.cons_ne_nil _ _) mirrors⟩
  | .object (member :: rest), plain => by
      obtain ⟨row, mirrors⟩ := exists_mirrorMembers (member :: rest) (List.cons_ne_nil _ _) plain.2
      exact ⟨_, mirrors_object (List.cons_ne_nil _ _) plain.1 mirrors⟩

theorem exists_mirrorElements : (elements : List Value) → elements ≠ [] →
    Value.elementsAll Value.PlainLeaf Utf8.IsValid Value.IsMap (fun _ => True) elements →
    ∃ row, MirrorsElements elements row
  | [], nonempty, _ => absurd rfl nonempty
  | value :: rest, _, plain => by
      obtain ⟨tree, mirrors⟩ := exists_mirror value plain.1
      by_cases empty : rest = []
      · subst empty
        exact ⟨_, mirrors_last mirrors⟩
      · obtain ⟨row, others⟩ := exists_mirrorElements rest empty plain.2
        exact ⟨_, mirrors_more mirrors others⟩

theorem exists_mirrorMembers : (members : List (Text × Value)) → members ≠ [] →
    Value.membersAll Value.PlainLeaf Utf8.IsValid Value.IsMap (fun _ => True) members →
    ∃ row, MirrorsMembers members row
  | [], nonempty, _ => absurd rfl nonempty
  | (key, value) :: rest, _, plain => by
      obtain ⟨body, readable, escaped, isString⟩ := exists_body plain.1.1
      obtain ⟨tree, mirrors⟩ := exists_mirror value plain.1.2
      by_cases empty : rest = []
      · subst empty
        exact ⟨_, mirrors_lastMember readable escaped isString mirrors⟩
      · obtain ⟨row, others⟩ := exists_mirrorMembers rest empty plain.2
        exact ⟨_, mirrors_moreMembers readable escaped isString mirrors others⟩

end

/-- The plain layout is read as the value itself when there is no empty container, no zero and no backslash. -/
theorem fromString_plain (root : PlainRoot) :
    ∃ string, (∀ indent, root.value.str false indent = .ok string) ∧
      (fromString string = .ok root.value ↔ root.value.Returns) := by
  obtain ⟨value, container, plain⟩ := root
  obtain ⟨tree, mirrors⟩ := exists_mirror value plain
  have read := fromString_closed space_nil (mirrors.container.trans container) mirrors.within [] value
  rw [List.nil_append, List.append_nil] at read
  refine ⟨tree.text, mirrors.text, read.trans ⟨fun same => ?_, mirrors.returns⟩⟩
  by_contra other
  have lighter := (mirrors.lighter value same).2 other
  omega

theorem roundTrips_congr {value : Value} {pretty other : Bool} {indent otherIndent : Int} {left right : Text}
    (isLeft : value.str pretty indent = .ok left) (isRight : value.str other otherIndent = .ok right)
    (same : (fromString left).toOption = (fromString right).toOption) :
    value.RoundTrips pretty indent ↔ value.RoundTrips other otherIndent := by
  have read {string : Text} : fromString string = .ok value ↔ (fromString string).toOption = some value := by
    cases fromString string <;> simp [Except.toOption]
  simp only [Value.RoundTrips, isLeft, isRight, Except.ok.injEq, exists_eq_left']
  rw [read, read, same]

theorem not_roundTrips {value : Value} {pretty : Bool} {indent : Int}
    (failed : ∃ fault, value.str pretty indent = .error fault) : ¬ value.RoundTrips pretty indent := by
  rintro ⟨string, isString, -⟩
  obtain ⟨fault, failed⟩ := failed
  rw [failed] at isString
  cases isString

/-- The line of a closing bracket has no negative indentation. -/
theorem container_negative {value : Value} (container : value.isContainer = true) {indent : Int}
    (negative : indent < 0) : ∃ fault, value.str true indent = .error fault := by
  obtain ⟨fault, failed⟩ := separator_negative negative
  cases value with
  | object members =>
      rw [Value.str, failed]
      cases Value.membersStr true (castInt (indent + 2)) true members with
      | ok inner => exact ⟨fault, rfl⟩
      | error other => exact ⟨other, rfl⟩
  | array elements =>
      rw [Value.str, failed]
      cases Value.elementsStr true (castInt (indent + 2)) true elements with
      | ok inner => exact ⟨fault, rfl⟩
      | error other => exact ⟨other, rfl⟩
  | _ => cases container

theorem roundTrips_plain (root : PlainRoot) (indent : Int) : root.value.RoundTrips false indent ↔ root.value.Returns := by
  obtain ⟨string, isString, returns⟩ := fromString_plain root
  simp only [Value.RoundTrips, isString, Except.ok.injEq, exists_eq_left']
  exact returns

theorem roundTrips_pretty (root : PlainRoot) (indent : Int32) :
    root.value.RoundTrips true indent.toInt ↔
      root.value.Returns ∧ 0 ≤ indent.toInt ∧ root.value.FitsIndent indent.toInt := by
  have small : indent.toInt < 2 ^ 31 := indent.toInt_lt
  obtain ⟨string, isString, -⟩ := fromString_plain root
  by_cases nonneg : 0 ≤ indent.toInt
  · by_cases fits : root.value.FitsIndent indent.toInt
    · obtain ⟨left, right, isLeft, isRight, same⟩ | ⟨-, fault, failed⟩ := laid_reading nonneg small fits
      · rw [roundTrips_congr isLeft isRight same.value, roundTrips_plain]
        exact ⟨fun returns => ⟨returns, nonneg, fits⟩, fun all => all.1⟩
      · rw [isString] at failed
        cases failed
    · have failed := (laid_value root.value 0 nonneg small).overflow fits
      exact ⟨fun returns => absurd returns (not_roundTrips failed), fun all => absurd all.2.2 fits⟩
  · have failed := container_negative root.container (Int.not_le.mp nonneg)
    exact ⟨fun returns => absurd returns (not_roundTrips failed), fun all => absurd all.2.1 nonneg⟩

/-- A value comes back from its text when it has no zero, no backslash and no empty container, and its deepest line can be indented. -/
theorem roundTrips_iff (root : PlainRoot) (pretty : Bool) (indent : Int32) :
    root.value.RoundTrips pretty indent.toInt ↔
      root.value.Returns ∧ (pretty = true → 0 ≤ indent.toInt ∧ root.value.FitsIndent indent.toInt) := by
  cases pretty with
  | false => simpa using roundTrips_plain root indent.toInt
  | true => simpa using roundTrips_pretty root indent

def zeroRoot : PlainRoot where
  value := .array [.integer 0]
  container := rfl
  plain := ⟨trivial, trivial, trivial⟩

/-- The array of a zero is written and is not read. -/
theorem zero_not_roundTrips : ¬ zeroRoot.value.RoundTrips false 0 := by
  rw [roundTrips_plain]
  rintro ⟨-, nonzero, -⟩
  exact nonzero rfl

end SimpleNFast.Json
