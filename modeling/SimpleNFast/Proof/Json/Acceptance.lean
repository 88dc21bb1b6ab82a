import SimpleNFast.Proof.Json.Inversion

namespace SimpleNFast.Json

theorem Lexeme.text_length_pos (lexeme : Lexeme) : 0 < lexeme.text.length := by
  cases lexeme with
  | null => decide
  | true => decide
  | false => decide
  | number numeral =>
      obtain ⟨char, tail, isText, -⟩ := numeral.text_head
      change 0 < numeral.text.length
      rw [isText]
      simp
  | string body => simp [Lexeme.text, Lexeme.quoted]

mutual

theorem Tree.cost_le : (tree : Tree) → tree.cost ≤ 2 * tree.text.length
  | .scalar lexeme => by
      have positive := lexeme.text_length_pos
      rw [Tree.cost, Tree.text]
      omega
  | .emptyArray space => by
      simp only [Tree.cost, Tree.text, List.length_append, List.length_cons, List.length_nil]
      omega
  | .array elements => by
      have bound := elements.cost_le
      simp only [Tree.cost, Tree.text, List.length_append, List.length_cons, List.length_nil]
      omega
  | .emptyObject space => by
      simp only [Tree.cost, Tree.text, List.length_append, List.length_cons, List.length_nil]
      omega
  | .object members => by
      have bound := members.cost_le
      simp only [Tree.cost, Tree.text, List.length_append, List.length_cons, List.length_nil]
      omega

theorem Elements.cost_le : (elements : Elements) → elements.cost ≤ 2 * elements.text.length + 1
  | .last before value after => by
      have bound := value.cost_le
      simp only [Elements.cost, Elements.text, List.length_append]
      omega
  | .more before value after rest => by
      have bound := value.cost_le
      have others := rest.cost_le
      simp only [Elements.cost, Elements.text, List.length_append, List.length_cons]
      omega

theorem Members.cost_le : (members : Members) → members.cost ≤ 2 * members.text.length + 1
  | .last before key afterKey beforeValue value after => by
      have bound := value.cost_le
      simp only [Members.cost, Members.text, List.length_append]
      omega
  | .more before key afterKey beforeValue value after rest => by
      have bound := value.cost_le
      have others := rest.cost_le
      simp only [Members.cost, Members.text, List.length_append, List.length_cons]
      omega

end

/-- The decision about the root. -/
def parseRoot (fuel : Nat) (token : Token) : Lex Value :=
  match token with
  | .lcb => readMembers fuel []
  | .lb => readElements fuel []
  | _ => Lexer.parsingError (text "only object and array are allowed as the top level JSON!")

theorem parse_eq (fuel : Nat) : parse fuel = Lexer.get >>= parseRoot fuel := rfl

theorem Blind.parseRoot (fuel : Nat) (token : Token) : Blind (parseRoot fuel token) := by
  cases token with
  | lcb => exact (blindParser fuel).readMembers []
  | lb => exact (blindParser fuel).readElements []
  | _ => exact parsingError _

theorem fromString_ok_iff (string : Text) (value : Value) :
    fromString string = .ok value ↔ ∃ rest, outcome (parse (2 * string.length + 2)) string = .read value rest := by
  rw [fromString, outcome]
  obtain ⟨result, lexer⟩ := parse (2 * string.length + 2) (Lexer.init string)
  cases result with
  | ok result =>
      constructor
      · intro same
        cases same
        exact ⟨lexer.rest, rfl⟩
      · rintro ⟨rest, same⟩
        cases same
        rfl
  | error fault =>
      constructor
      · intro same
        cases same
      · rintro ⟨rest, same⟩
        cases fault <;> cases same

theorem outcome_parse_array {before : Text} (spaces : Grammar.read.space before) (fuel : Nat) (rest : Text) :
    outcome (parse fuel) (before ++ byte '[' :: rest) = outcome (readElements fuel []) rest := by
  rw [parse_eq]
  exact outcome_bind_read (outcome_get_mark spaces .lb rfl rest) (Blind.parseRoot fuel .lb)

theorem outcome_parse_object {before : Text} (spaces : Grammar.read.space before) (fuel : Nat) (rest : Text) :
    outcome (parse fuel) (before ++ byte '\x7b' :: rest) = outcome (readMembers fuel []) rest := by
  rw [parse_eq]
  exact outcome_bind_read (outcome_get_mark spaces .lcb rfl rest) (Blind.parseRoot fuel .lcb)

/-- The parser reads a root and stops after it. -/
theorem outcome_parse_root {before : Text} (spaces : Grammar.read.space before) {root : Tree}
    (container : root.isContainer = true) (within : root.Within .read) {fuel : Nat} (enough : root.cost ≤ fuel)
    (after : Text) : outcome (parse fuel) (before ++ (root.text ++ after)) = Outcome.ofOption root.read after := by
  cases root with
  | scalar lexeme => cases container
  | emptyArray space =>
      obtain ⟨more, rfl⟩ := Nat.exists_eq_add_of_le (show 2 ≤ fuel by rw [Tree.cost] at enough; omega)
      rw [Tree.text, List.cons_append, List.cons_append, List.append_assoc, List.singleton_append,
        outcome_parse_array spaces, Nat.add_comm, outcome_readElements_empty within]
      rfl
  | array elements =>
      rw [Tree.cost] at enough
      rw [Tree.text, List.cons_append, List.cons_append, List.append_assoc, List.singleton_append,
        outcome_parse_array spaces, Elements.outcome_eq elements within (by omega) [] after]
      rfl
  | emptyObject space =>
      obtain ⟨more, rfl⟩ := Nat.exists_eq_add_of_le (show 1 ≤ fuel by rw [Tree.cost] at enough; omega)
      rw [Tree.text, List.cons_append, List.cons_append, List.append_assoc, List.singleton_append,
        outcome_parse_object spaces, Nat.add_comm, outcome_readMembers_empty within]
      rfl
  | object members =>
      rw [Tree.cost] at enough
      rw [Tree.text, List.cons_append, List.cons_append, List.append_assoc, List.singleton_append,
        outcome_parse_object spaces, Members.outcome_eq members within (by omega) [] after]
      rfl

/-- A text with a closed root has the value of its tree. -/
theorem fromString_closed {before : Text} (spaces : Grammar.read.space before) {root : Tree}
    (container : root.isContainer = true) (within : root.Within .read) (after : Text) (value : Value) :
    fromString (before ++ (root.text ++ after)) = .ok value ↔ root.read = some value := by
  have cost := root.cost_le
  have enough : root.cost ≤ 2 * (before ++ (root.text ++ after)).length + 2 := by
    rw [List.length_append, List.length_append]
    omega
  rw [fromString_ok_iff, outcome_parse_root spaces container within enough]
  constructor
  · rintro ⟨rest, same⟩
    exact (Outcome.ofOption_read same).1
  · intro same
    exact ⟨after, by rw [same]; rfl⟩

/-- The fuel that the parser needs up to the end of the input. -/
def CutElements.cost : CutElements → Nat
  | .stop _ => 1
  | .more _ value _ rest => max value.cost rest.cost + 1

def CutMembers.cost : CutMembers → Nat
  | .stop _ => 1
  | .more _ _ _ _ value _ rest => max value.cost rest.cost + 1

theorem CutElements.cost_le (elements : CutElements) : elements.cost ≤ 2 * elements.text.length + 1 := by
  induction elements with
  | stop tail =>
      rw [CutElements.cost]
      omega
  | more before value after rest inductionHypothesis =>
      have bound := value.cost_le
      simp only [CutElements.cost, CutElements.text, List.length_append, List.length_cons]
      omega

theorem CutMembers.cost_le (members : CutMembers) : members.cost ≤ 2 * members.text.length + 1 := by
  induction members with
  | stop tail =>
      rw [CutMembers.cost]
      omega
  | more before key afterKey beforeValue value after rest inductionHypothesis =>
      have bound := value.cost_le
      simp only [CutMembers.cost, CutMembers.text, List.length_append, List.length_cons]
      omega

theorem CutElements.exists_read {elements : CutElements} (isRead : elements.IsRead) :
    ∃ values, elements.read = some values := by
  induction elements with
  | stop tail => exact ⟨[], rfl⟩
  | more before value after rest inductionHypothesis =>
      obtain ⟨-, readable, areRead⟩ := isRead
      obtain ⟨result, isValue⟩ := Option.isSome_iff_exists.mp readable
      obtain ⟨values, areValues⟩ := inductionHypothesis areRead
      refine ⟨result :: values, ?_⟩
      rw [CutElements.read, isValue, areValues]
      rfl

theorem CutMembers.exists_read {members : CutMembers} (isRead : members.IsRead) :
    ∃ values, members.read = some values := by
  induction members with
  | stop tail => exact ⟨[], rfl⟩
  | more before key afterKey beforeValue value after rest inductionHypothesis =>
      obtain ⟨-, ⟨keyed, readable⟩, areRead⟩ := isRead
      obtain ⟨name, isKey⟩ := Option.isSome_iff_exists.mp keyed
      obtain ⟨result, isValue⟩ := Option.isSome_iff_exists.mp readable
      obtain ⟨values, areValues⟩ := inductionHypothesis areRead
      refine ⟨(name, result) :: values, ?_⟩
      rw [CutMembers.read, isKey, isValue, areValues]
      rfl

theorem Elements.read_last_iff {before after : Text} {tree : Tree} {results : List Value} :
    (Elements.last before tree after).read = some results ↔ ∃ result, tree.read = some result ∧ results = [result] := by
  rw [Elements.read]
  cases tree.read <;> simp [eq_comm]

theorem Elements.read_more_iff {before after : Text} {tree : Tree} {rest : Elements} {results : List Value} :
    (Elements.more before tree after rest).read = some results ↔
      ∃ result others, tree.read = some result ∧ rest.read = some others ∧ results = result :: others := by
  rw [Elements.read]
  cases tree.read <;> cases rest.read <;> simp [eq_comm]

theorem Members.read_last_iff {before key afterKey beforeValue after : Text} {tree : Tree}
    {results : List (Text × Value)} :
    (Members.last before key afterKey beforeValue tree after).read = some results ↔
      ∃ name result, Lexeme.key key = some name ∧ tree.read = some result ∧ results = [(name, result)] := by
  rw [Members.read]
  cases Lexeme.key key <;> cases tree.read <;> simp [eq_comm]

theorem Members.read_more_iff {before key afterKey beforeValue after : Text} {tree : Tree} {rest : Members}
    {results : List (Text × Value)} :
    (Members.more before key afterKey beforeValue tree after rest).read = some results ↔
      ∃ name result others, Lexeme.key key = some name ∧ tree.read = some result ∧ rest.read = some others ∧
        results = (name, result) :: others := by
  rw [Members.read]
  cases Lexeme.key key <;> cases tree.read <;> cases rest.read <;> simp [eq_comm]

theorem CutElements.read_more_iff {before after : Text} {value : Tree} {rest : CutElements} {values : List Value} :
    (CutElements.more before value after rest).read = some values ↔
      ∃ result others, value.read = some result ∧ rest.read = some others ∧ values = result :: others := by
  rw [CutElements.read]
  cases value.read <;> cases rest.read <;> simp [eq_comm]

theorem CutMembers.read_more_iff {before key afterKey beforeValue after : Text} {value : Tree} {rest : CutMembers}
    {values : List (Text × Value)} :
    (CutMembers.more before key afterKey beforeValue value after rest).read = some values ↔
      ∃ name result others, Lexeme.key key = some name ∧ value.read = some result ∧ rest.read = some others ∧
        values = (name, result) :: others := by
  rw [CutMembers.read]
  cases Lexeme.key key <;> cases value.read <;> cases rest.read <;> simp [eq_comm]

/-- The end of the input closes an array. -/
theorem CutElements.outcome_eq {elements : CutElements} (isRead : elements.IsRead) {values : List Value}
    (areValues : elements.read = some values) {fuel : Nat} (enough : elements.cost ≤ fuel) (done : List Value) :
    outcome (readElements fuel done) elements.text = .read (.array (done ++ values)) [] := by
  induction elements generalizing fuel done values with
  | stop tail =>
      cases fuel with
      | zero => cases enough
      | succ fuel =>
          cases areValues
          rw [List.append_nil]
          exact outcome_bind_read ((ends_iff tail).mp isRead) (Blind.pure _)
  | more before value after rest inductionHypothesis =>
      cases fuel with
      | zero => cases enough
      | succ fuel =>
          obtain ⟨⟨spaces, within, spacesAfter⟩, -, areRead⟩ := isRead
          obtain ⟨result, others, isValue, areOthers, rfl⟩ := CutElements.read_more_iff.mp areValues
          have bound : max value.cost rest.cost ≤ fuel := Nat.le_of_succ_le_succ enough
          have ends := (follows_mark spacesAfter (.inl rfl) rest.text).endsTree value
          have ran := value.outcome_eq within spaces ends ((le_max_left _ _).trans bound) "array element expected"
          have notEof := Tree.get_ne_eof within spaces ends
          have ended := inductionHypothesis areRead areOthers ((le_max_right _ _).trans bound) (done ++ [result])
          rw [CutElements.text, List.append_assoc, List.append_assoc, outcome_readElements ran notEof, isValue]
          rw [List.append_assoc] at ended
          exact (outcome_elementEnd_more spacesAfter done result rest.text).trans ended

/-- The end of the input closes an object. -/
theorem CutMembers.outcome_eq {members : CutMembers} (isRead : members.IsRead) {values : List (Text × Value)}
    (areValues : members.read = some values) {fuel : Nat} (enough : members.cost ≤ fuel)
    (done : List (Text × Value)) :
    outcome (readMembers fuel done) members.text =
      .read (.object (values.foldl (fun members member => Value.insert members member.1 member.2) done)) [] := by
  induction members generalizing fuel done values with
  | stop tail =>
      cases fuel with
      | zero => cases enough
      | succ fuel =>
          cases areValues
          exact outcome_bind_read ((ends_iff tail).mp isRead) (Blind.pure _)
  | more before key afterKey beforeValue value after rest inductionHypothesis =>
      cases fuel with
      | zero => cases enough
      | succ fuel =>
          obtain ⟨⟨head, within, spacesAfter⟩, -, areRead⟩ := isRead
          obtain ⟨name, result, others, isKey, isValue, areOthers, rfl⟩ := CutMembers.read_more_iff.mp areValues
          have bound : max value.cost rest.cost ≤ fuel := Nat.le_of_succ_le_succ enough
          have ends := (follows_mark spacesAfter (.inl rfl) rest.text).endsTree value
          have ran := value.outcome_eq within head.2.2.2 ends ((le_max_left _ _).trans bound)
            "object member value expected"
          have ended := inductionHypothesis areRead areOthers ((le_max_right _ _).trans bound)
            (Value.insert done name result)
          rw [CutMembers.text, List.append_assoc, List.append_assoc, outcome_readMembers head ran, isKey, isValue]
          exact (outcome_memberEnd_more spacesAfter _ rest.text).trans ended

/-- A text is accepted with the value of its reading. -/
theorem fromString_reading {reading : Reading} (isRead : reading.IsRead) :
    ∃ value, reading.read = some value ∧ fromString reading.text = .ok value := by
  cases reading with
  | closed before root after =>
      obtain ⟨spaces, container, within, readable⟩ := isRead
      obtain ⟨value, isValue⟩ := Option.isSome_iff_exists.mp readable
      exact ⟨value, isValue, (fromString_closed spaces container within after value).mpr isValue⟩
  | cutArray before elements =>
      obtain ⟨spaces, areRead⟩ := isRead
      obtain ⟨values, areValues⟩ := elements.exists_read areRead
      have cost := elements.cost_le
      have enough : elements.cost ≤ 2 * (before ++ byte '[' :: elements.text).length + 2 := by
        rw [List.length_append, List.length_cons]
        omega
      refine ⟨.array values, by rw [Reading.read, areValues]; rfl, (fromString_ok_iff _ _).mpr ⟨[], ?_⟩⟩
      rw [Reading.text, outcome_parse_array spaces]
      exact elements.outcome_eq areRead areValues enough []
  | cutObject before members =>
      obtain ⟨spaces, areRead⟩ := isRead
      obtain ⟨values, areValues⟩ := members.exists_read areRead
      have cost := members.cost_le
      have enough : members.cost ≤ 2 * (before ++ byte '\x7b' :: members.text).length + 2 := by
        rw [List.length_append, List.length_cons]
        omega
      refine ⟨.object _, by rw [Reading.read, areValues]; rfl, (fromString_ok_iff _ _).mpr ⟨[], ?_⟩⟩
      rw [Reading.text, outcome_parse_object spaces]
      exact members.outcome_eq areRead areValues enough []

/-- The accepted texts are those that have a reading. -/
theorem accepted_iff (string : Text) :
    Accepted string ↔ ∃ reading : Reading, reading.IsRead ∧ reading.text = string := by
  constructor
  · rintro ⟨value, accepted⟩
    obtain ⟨rest, read⟩ := (fromString_ok_iff string value).mp accepted
    rw [parse_eq] at read
    obtain ⟨token, later, first, parsed⟩ := outcome_bind_cases (Blind.parseRoot _) read
    cases token with
    | lcb =>
        obtain ⟨before, spaces, rfl⟩ := get_mark_read first (byte '\x7b') rfl
        obtain ⟨members, values, within, areValues, -, rfl⟩ | ⟨members, areRead, rfl, -⟩ :=
          (inverted _).members parsed
        · refine ⟨.closed before (.object members) rest, ⟨spaces, rfl, within, ?_⟩, by simp [Reading.text, Tree.text]⟩
          rw [Tree.read, areValues]
          rfl
        · exact ⟨.cutObject before members, ⟨spaces, areRead⟩, rfl⟩
    | lb =>
        obtain ⟨before, spaces, rfl⟩ := get_mark_read first (byte '[') rfl
        obtain ⟨elements, values, within, areValues, -, rfl⟩ | ⟨elements, areRead, rfl, -⟩ :=
          (inverted _).elements parsed
        · refine ⟨.closed before (.array elements) rest, ⟨spaces, rfl, within, ?_⟩, by simp [Reading.text, Tree.text]⟩
          rw [Tree.read, areValues]
          rfl
        · exact ⟨.cutArray before elements, ⟨spaces, areRead⟩, rfl⟩
    | _ => cases parsed
  · rintro ⟨reading, isRead, rfl⟩
    obtain ⟨value, -, accepted⟩ := fromString_reading isRead
    exact ⟨value, accepted⟩

end SimpleNFast.Json
