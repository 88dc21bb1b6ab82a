import SimpleNFast.Proof.Json.Lockstep
import SimpleNFast.Proof.Json.Printing

set_option maxRecDepth 100000

namespace SimpleNFast.Json

/-- White space before a text does not change its first token. -/
theorem outcome_get_append {before : Text} (spaces : Grammar.read.space before) (string : Text) :
    outcome Lexer.get (before ++ string) = outcome Lexer.get string := by
  obtain ⟨inner, char, rest, rfl, all, stops⟩ | all := span_cases space string
  · have joined : ∀ octet ∈ before ++ inner, space octet = true :=
      fun octet member => (List.mem_append.mp member).elim (spaces octet) (all octet)
    rw [← List.append_assoc, outcome_get_skip joined stops, outcome_get_skip all stops]
  · have joined : ∀ octet ∈ before ++ string, space octet = true :=
      fun octet member => (List.mem_append.mp member).elim (spaces octet) (all octet)
    rw [outcome_get_spaces joined, outcome_get_spaces all]

namespace SameTokens

variable {first second : Text}

/-- Other white space. -/
theorem gap (same : SameTokens first second) {before after : Text} (spacesBefore : Grammar.read.space before)
    (spacesAfter : Grammar.read.space after) : SameTokens (before ++ first) (after ++ second) := by
  cases same with
  | eof readFirst readSecond =>
      refine .eof ?_ ?_
      · rwa [outcome_get_append spacesBefore]
      · rwa [outcome_get_append spacesAfter]
  | refused refusedFirst refusedSecond =>
      refine .refused ?_ ?_
      · rwa [outcome_get_append spacesBefore]
      · rwa [outcome_get_append spacesAfter]
  | token readFirst readSecond notEof rest =>
      refine .token ?_ ?_ notEof rest
      · rwa [outcome_get_append spacesBefore]
      · rwa [outcome_get_append spacesAfter]

theorem mark (same : SameTokens first second) (token : Token) {char : UInt8} (isMark : token.mark = some char) :
    SameTokens (char :: first) (char :: second) := by
  refine .token (outcome_get_mark space_nil token isMark first) (outcome_get_mark space_nil token isMark second) ?_ same
  rintro rfl
  cases isMark

/-- The same printed value before two texts. -/
theorem printed (same : SameTokens first second) {string : Text} {token : Option Token} (prints : Prints string token)
    (aheadFirst : Ahead first) (aheadSecond : Ahead second) : SameTokens (string ++ first) (string ++ second) := by
  have readFirst := prints first aheadFirst
  have readSecond := prints second aheadSecond
  cases token with
  | none => exact .refused readFirst readSecond
  | some token =>
      refine .token readFirst readSecond ?_ same
      rintro rfl
      have long := aheadFirst.2
      rw [get_eof readFirst] at long
      cases long

end SameTokens

theorem ahead_append {before : Text} (spaces : Grammar.read.space before) {char : UInt8}
    (isMark : char = byte ',' ∨ char = byte ']' ∨ char = byte '\x7d') {rest : Text}
    (long : 2 ≤ (before ++ char :: rest).length) : Ahead (before ++ char :: rest) :=
  ⟨follows_mark spaces isMark rest, long⟩

/-- Two layouts of a part with the same tokens before every two texts that have the same tokens. -/
def Aligned (closes : Prop) (pretty plain : Text) : Prop :=
  ∀ first second, closes ∨ (Ahead first ∧ Ahead second) → SameTokens first second →
    SameTokens (pretty ++ first) (plain ++ second)

/-- If the indentation fits, the layouts throw both or are aligned, and otherwise the pretty one throws. -/
structure Laid (fits closes : Prop) (pretty plain : Except Fault Text) : Prop where
  fitting : fits → (∃ left right, pretty = .ok left ∧ plain = .ok right ∧ Aligned closes left right) ∨
    ((∃ fault, pretty = .error fault) ∧ ∃ fault, plain = .error fault)
  overflow : ¬ fits → ∃ fault, pretty = .error fault

theorem Laid.same {fits closes : Prop} (always : fits) {string : Text}
    (aligned : Aligned closes string string) : Laid fits closes (.ok string) (.ok string) where
  fitting _ := .inl ⟨string, string, rfl, rfl, aligned⟩
  overflow never := absurd always never

section Separators

variable {indent : Int}

theorem separator_pretty (nonneg : 0 ≤ indent) :
    Value.separator true indent = .ok (byte '\n' :: List.replicate indent.toNat (byte ' ')) := by
  rw [Value.separator, if_pos rfl, Value.spaces, if_neg (by omega)]
  rfl

theorem separator_negative (negative : indent < 0) : ∃ fault, Value.separator true indent = .error fault := by
  rw [Value.separator, if_pos rfl, Value.spaces, if_pos negative]
  exact ⟨_, rfl⟩

theorem separator_plain : Value.separator false indent = .ok [byte ' '] := rfl

theorem space_pretty (count : Nat) : Grammar.read.space (byte '\n' :: List.replicate count (byte ' ')) := by
  intro octet member
  obtain rfl | member := List.mem_cons.mp member
  · decide
  · rw [List.eq_of_mem_replicate member]
    decide

theorem space_plain : Grammar.read.space [byte ' '] := by
  intro octet member
  rw [List.mem_singleton.mp member]
  decide

end Separators

/-- The brackets around the inner text of a container. -/
theorem laid_container {fits : Prop} {pretty plain : Except Fault Text} (inner : Laid fits False pretty plain)
    {indent other : Int} (nonneg : 0 ≤ indent) (first last : Token) {opening closing : UInt8}
    (isFirst : first.mark = some opening) (isLast : last.mark = some closing)
    (closes : closing = byte ']' ∨ closing = byte '\x7d') :
    Laid fits True
      (do let inner ← pretty
          let last ← Value.separator true indent
          pure ([opening] ++ inner ++ last ++ [closing]))
      (do let inner ← plain
          let last ← Value.separator false other
          pure ([opening] ++ inner ++ last ++ [closing])) where
  fitting fits := by
    obtain ⟨left, right, rfl, rfl, aligned⟩ | ⟨⟨fault, rfl⟩, other, rfl⟩ := inner.fitting fits
    · rw [separator_pretty nonneg, separator_plain]
      refine .inl ⟨_, _, rfl, rfl, fun firstRest secondRest _ same => ?_⟩
      have ended := (same.mark last isLast).gap (space_pretty indent.toNat) space_plain
      have ahead (rest : Text) {before : Text} (spaces : Grammar.read.space before) (some : before ≠ []) :
          Ahead (before ++ closing :: rest) := by
        refine ahead_append spaces (.inr closes) ?_
        have positive := List.length_pos_iff.mpr some
        rw [List.length_append, List.length_cons]
        omega
      have whole := (aligned _ _ (.inr ⟨ahead firstRest (space_pretty indent.toNat) (by simp),
        ahead secondRest space_plain (by simp)⟩) ended).mark first isFirst
      simpa only [List.append_assoc, List.singleton_append, List.cons_append, List.nil_append] using whole
    · exact .inr ⟨⟨_, rfl⟩, _, rfl⟩
  overflow never := by
    obtain ⟨fault, rfl⟩ := inner.overflow never
    exact ⟨fault, rfl⟩

/-- The text of further elements or members begins with a comma. -/
theorem ahead_comma {string rest : Text} (begins : string = [] ∨ ∃ tail, string = byte ',' :: tail)
    (ahead : Ahead rest) : Ahead (string ++ rest) := by
  obtain rfl | ⟨tail, rfl⟩ := begins
  · exact ahead
  · refine ahead_append space_nil (.inl rfl) ?_
    have long := ahead.2
    change 2 ≤ (tail ++ rest).length + 1
    rw [List.length_append]
    omega

/-- The comma before all elements or members but the first one. -/
theorem SameTokens.comma {first second : Text} (same : SameTokens first second) (isFirst : Bool) :
    SameTokens ((if isFirst then [] else [byte ',']) ++ first) ((if isFirst then [] else [byte ',']) ++ second) := by
  cases isFirst with
  | true => exact same
  | false => exact same.mark .comma rfl

/-- One element or member and the ones after it, with the separator before them. -/
def row (isFirst : Bool) (before head tail : Except Fault Text) : Except Fault Text := do
  let before ← before
  let head ← head
  let tail ← tail
  pure ((if isFirst then [] else [byte ',']) ++ before ++ head ++ tail)

/-- This is `object::str` for a member. -/
def memberStr (pretty : Bool) (indent : Int) (key : Text) (value : Value) : Except Fault Text := do
  let key ← stringEscape key
  let value ← value.str pretty indent
  pure ([byte '"'] ++ key ++ text "\" : " ++ value)

theorem elementsStr_cons (pretty : Bool) (indent : Int) (isFirst : Bool) (value : Value) (rest : List Value) :
    Value.elementsStr pretty indent isFirst (value :: rest) =
      row isFirst (Value.separator pretty indent) (value.str pretty indent)
        (Value.elementsStr pretty indent false rest) := by
  rw [Value.elementsStr]
  rfl

theorem membersStr_cons (pretty : Bool) (indent : Int) (isFirst : Bool) (key : Text) (value : Value)
    (rest : List (Text × Value)) :
    Value.membersStr pretty indent isFirst ((key, value) :: rest) =
      row isFirst (Value.separator pretty indent) (memberStr pretty indent key value)
        (Value.membersStr pretty indent false rest) := by
  rw [Value.membersStr, row, memberStr]
  simp only [bind_assoc, pure_bind, List.append_assoc]

section Rows

variable {isFirst : Bool} {before head tail : Except Fault Text}

theorem row_error (failed : (∃ fault, before = .error fault) ∨ (∃ fault, head = .error fault) ∨
      ∃ fault, tail = .error fault) : ∃ fault, row isFirst before head tail = .error fault := by
  match before, head, tail with
  | .error fault, _, _ => exact ⟨fault, rfl⟩
  | .ok _, .error fault, _ => exact ⟨fault, rfl⟩
  | .ok _, .ok _, .error fault => exact ⟨fault, rfl⟩
  | .ok _, .ok _, .ok _ =>
      obtain ⟨_, error⟩ | ⟨_, error⟩ | ⟨_, error⟩ := failed
      · cases error
      · cases error
      · cases error

theorem row_begins {string : Text} (ran : row false before head tail = .ok string) :
    ∃ tail, string = byte ',' :: tail := by
  match before, head, tail with
  | .error _, _, _ => cases ran
  | .ok _, .error _, _ => cases ran
  | .ok _, .ok _, .error _ => cases ran
  | .ok before, .ok head, .ok tail =>
      cases ran
      exact ⟨before ++ head ++ tail, rfl⟩

/-- The texts of further elements and members are empty or begin with a comma. -/
def Begins (tail : Except Fault Text) : Prop :=
  ∀ string, tail = .ok string → string = [] ∨ ∃ rest, string = byte ',' :: rest

theorem laid_row {headFits tailFits closes : Prop} {indent other : Int} (nonneg : 0 ≤ indent)
    {headPlain tailPlain : Except Fault Text} (isHead : Laid headFits closes head headPlain)
    (isTail : Laid tailFits False tail tailPlain) (begins : Begins tail) (beginsPlain : Begins tailPlain) :
    Laid (headFits ∧ tailFits) False (row isFirst (Value.separator true indent) head tail)
      (row isFirst (Value.separator false other) headPlain tailPlain) where
  fitting fits := by
    obtain ⟨headLeft, headRight, rfl, rfl, headAligned⟩ | ⟨failed, failedPlain⟩ := isHead.fitting fits.1
    · obtain ⟨tailLeft, tailRight, rfl, rfl, tailAligned⟩ | ⟨failed, failedPlain⟩ := isTail.fitting fits.2
      · rw [separator_pretty nonneg, separator_plain]
        refine .inl ⟨_, _, rfl, rfl, fun first second aheads same => ?_⟩
        obtain ⟨aheadFirst, aheadSecond⟩ := aheads.resolve_left id
        have later := headAligned _ _ (.inr ⟨ahead_comma (begins _ rfl) aheadFirst,
          ahead_comma (beginsPlain _ rfl) aheadSecond⟩) (tailAligned first second aheads same)
        have whole := (later.gap (space_pretty indent.toNat) space_plain).comma isFirst
        simpa only [List.append_assoc] using whole
      · exact .inr ⟨row_error (.inr (.inr failed)), row_error (.inr (.inr failedPlain))⟩
    · exact .inr ⟨row_error (.inr (.inl failed)), row_error (.inr (.inl failedPlain))⟩
  overflow never := by
    by_cases headFit : headFits
    · exact row_error (.inr (.inr (isTail.overflow fun tailFit => never ⟨headFit, tailFit⟩)))
    · exact row_error (.inr (.inl (isHead.overflow headFit)))

end Rows

theorem elementsStr_begins (pretty : Bool) (indent : Int) (elements : List Value) :
    Begins (Value.elementsStr pretty indent false elements) := by
  intro string ran
  cases elements with
  | nil =>
      cases ran
      exact .inl rfl
  | cons value rest =>
      rw [elementsStr_cons] at ran
      exact .inr (row_begins ran)

theorem membersStr_begins (pretty : Bool) (indent : Int) (members : List (Text × Value)) :
    Begins (Value.membersStr pretty indent false members) := by
  intro string ran
  cases members with
  | nil =>
      cases ran
      exact .inl rfl
  | cons member rest =>
      rw [membersStr_cons] at ran
      exact .inr (row_begins ran)

/-- A member is its key, a colon and its value. -/
theorem laid_member {fits closes : Prop} {indent other : Int} {key : Text} {value : Value}
    (laid : Laid fits closes (value.str true indent) (value.str false other)) :
    Laid fits closes (memberStr true indent key value) (memberStr false other key value) := by
  rw [memberStr, memberStr]
  match escaped : stringEscape key with
  | .error fault => exact ⟨fun _ => .inr ⟨⟨fault, rfl⟩, fault, rfl⟩, fun _ => ⟨fault, rfl⟩⟩
  | .ok key =>
      obtain ⟨token, prints⟩ := prints_string escaped
      refine ⟨fun fit => ?_, fun never => ?_⟩
      · obtain ⟨left, right, isLeft, isRight, aligned⟩ | ⟨⟨fault, failed⟩, other, failedPlain⟩ := laid.fitting fit
        · rw [isLeft, isRight]
          refine .inl ⟨_, _, rfl, rfl, fun first second aheads same => ?_⟩
          have colon := (((aligned first second aheads same).gap space_plain space_plain).mark .colon rfl).gap
            space_plain space_plain
          have ahead (rest : Text) : Ahead ([byte ' '] ++ byte ':' :: rest) := by
            refine ⟨⟨byte ' ', _, rfl, .inl (by decide)⟩, ?_⟩
            exact Nat.le_add_left 2 rest.length
          have whole := colon.printed prints (ahead _) (ahead _)
          simpa [text] using whole
        · rw [failed, failedPlain]
          exact .inr ⟨⟨fault, rfl⟩, other, rfl⟩
      · obtain ⟨fault, failed⟩ := laid.overflow never
        rw [failed]
        exact ⟨fault, rfl⟩

theorem Laid.mono {fits fits' closes closes' : Prop} {pretty plain : Except Fault Text}
    (laid : Laid fits closes pretty plain) (sameFits : fits' ↔ fits) (weaker : closes' → closes) :
    Laid fits' closes' pretty plain where
  fitting fit := by
    obtain ⟨left, right, isLeft, isRight, aligned⟩ | failed := laid.fitting (sameFits.mp fit)
    · exact .inl ⟨left, right, isLeft, isRight, fun first second aheads =>
        aligned first second (aheads.imp_left weaker)⟩
    · exact .inr failed
  overflow never := laid.overflow fun fit => never (sameFits.mpr fit)

theorem laid_nil {fits : Prop} (always : fits) : Laid fits False (.ok []) (.ok []) :=
  .same always fun _ _ _ same => same

/-- A printed value has no brackets and no indentation. -/
theorem laid_printed {fits : Prop} (always : fits) {string : Text} (printed : ∃ token, Prints string token) :
    Laid fits False (.ok string) (.ok string) := by
  obtain ⟨token, prints⟩ := printed
  exact .same always fun _ _ aheads same =>
    same.printed prints (aheads.resolve_left id).1 (aheads.resolve_left id).2

/-- The layouts of a container end with its bracket. -/
def Value.Closes : Value → Prop
  | .object _ => True
  | .array _ => True
  | _ => False

/-- A value that is no container fits on its line. -/
theorem fits_open {value : Value} (opens : ¬ value.Closes) {indent : Int} (small : indent < 2 ^ 31) :
    value.FitsIndent indent := by
  have flat : value.depth = 0 := by
    cases value with
    | object members => exact absurd trivial opens
    | array elements => exact absurd trivial opens
    | _ => simp only [Value.depth]
  rw [Value.FitsIndent, flat]
  omega

/-- The inner text of a container with an indentation that no longer fits throws, if there is any. -/
theorem laid_inner {indent : Int} (nonneg : 0 ≤ indent) (small : indent < 2 ^ 31) {count : Nat}
    {pretty : Int → Except Fault Text} {plain : Except Fault Text}
    (laid : ∀ inside, 0 ≤ inside → inside < 2 ^ 31 →
      Laid (inside + 2 * (count : Int) < 2 ^ 31 + 2) False (pretty inside) plain)
    (none : count = 0 → ∀ inside, pretty inside = .ok [] ∧ plain = .ok [])
    (some : 0 < count → ∀ inside < 0, ∃ fault, pretty inside = .error fault) :
    Laid (indent + 2 * (count : Int) < 2 ^ 31) False (pretty (castInt (indent + 2))) plain := by
  by_cases fit : indent + 2 < 2 ^ 31
  · rw [castInt_eq (by omega) fit]
    exact (laid (indent + 2) (by omega) fit).mono (by omega) id
  by_cases empty : count = 0
  · obtain ⟨isPretty, isPlain⟩ := none empty (castInt (indent + 2))
    rw [isPretty, isPlain, empty]
    exact laid_nil (by omega)
  · obtain ⟨fault, failed⟩ := some (by omega) _ (castInt_neg (show 2 ^ 31 ≤ indent + 2 by omega) (by omega))
    rw [failed]
    exact ⟨fun fits => absurd fits (by omega), fun _ => ⟨fault, rfl⟩⟩

mutual

/-- The two layouts of a value. -/
theorem laid_value : (value : Value) → ∀ {indent : Int} (other : Int), 0 ≤ indent → indent < 2 ^ 31 →
    Laid (value.FitsIndent indent) value.Closes (value.str true indent) (value.str false other)
  | .null, indent, _, _, small => by
      rw [Value.str, Value.str]
      exact laid_printed (fits_open id small) ⟨_, prints_null⟩
  | .boolean value, indent, _, _, small => by
      rw [Value.str, Value.str]
      exact laid_printed (fits_open id small) (prints_boolean value)
  | .integer value, indent, _, _, small => by
      rw [Value.str, Value.str]
      exact laid_printed (fits_open id small) (prints_integer value)
  | .real value, indent, _, _, small => by
      rw [Value.str, Value.str]
      exact laid_printed (fits_open id small) (prints_real value)
  | .string value, indent, _, _, small => by
      rw [Value.str, Value.str]
      match escaped : stringEscape value with
      | .ok escaped' => exact laid_printed (fits_open id small) (prints_string escaped)
      | .error fault => exact ⟨fun _ => .inr ⟨⟨fault, rfl⟩, fault, rfl⟩, fun _ => ⟨fault, rfl⟩⟩
  | .object members, indent, other, nonneg, small => by
      rw [Value.str, Value.str]
      refine laid_container ?_ nonneg .lcb .rcb rfl rfl (.inr rfl)
      rw [Value.FitsIndent, Value.depth]
      refine laid_inner nonneg small (fun inside => laid_members members true (castInt (other + 2))) ?_ ?_
      · intro empty inside
        cases members with
        | nil => exact ⟨rfl, rfl⟩
        | cons member rest =>
            rw [Value.membersDepth] at empty
            omega
      · intro positive inside negative
        cases members with
        | nil => cases positive
        | cons member rest =>
            rw [membersStr_cons]
            exact row_error (.inl (separator_negative negative))
  | .array elements, indent, other, nonneg, small => by
      rw [Value.str, Value.str]
      refine laid_container ?_ nonneg .lb .rb rfl rfl (.inl rfl)
      rw [Value.FitsIndent, Value.depth]
      refine laid_inner nonneg small (fun inside => laid_elements elements true (castInt (other + 2))) ?_ ?_
      · intro empty inside
        cases elements with
        | nil => exact ⟨rfl, rfl⟩
        | cons value rest =>
            rw [Value.elementsDepth] at empty
            omega
      · intro positive inside negative
        cases elements with
        | nil => cases positive
        | cons value rest =>
            rw [elementsStr_cons]
            exact row_error (.inl (separator_negative negative))

theorem laid_members : (members : List (Text × Value)) → ∀ (isFirst : Bool) (other : Int) {indent : Int}, 0 ≤ indent →
    indent < 2 ^ 31 → Laid (indent + 2 * (Value.membersDepth members : Int) < 2 ^ 31 + 2) False
      (Value.membersStr true indent isFirst members) (Value.membersStr false other isFirst members)
  | [], isFirst, other, indent, _, small => by
      rw [Value.membersStr, Value.membersStr]
      exact laid_nil (by rw [Value.membersDepth]; omega)
  | (key, value) :: rest, isFirst, other, indent, nonneg, small => by
      have head := laid_value value other nonneg small
      have tail := laid_members rest false other nonneg small
      rw [membersStr_cons, membersStr_cons]
      refine (laid_row nonneg (laid_member head) tail (membersStr_begins _ _ _) (membersStr_begins _ _ _)).mono ?_ id
      rw [Value.FitsIndent, Value.membersDepth]
      omega

theorem laid_elements : (elements : List Value) → ∀ (isFirst : Bool) (other : Int) {indent : Int}, 0 ≤ indent →
    indent < 2 ^ 31 → Laid (indent + 2 * (Value.elementsDepth elements : Int) < 2 ^ 31 + 2) False
      (Value.elementsStr true indent isFirst elements) (Value.elementsStr false other isFirst elements)
  | [], isFirst, other, indent, _, small => by
      rw [Value.elementsStr, Value.elementsStr]
      exact laid_nil (by rw [Value.elementsDepth]; omega)
  | value :: rest, isFirst, other, indent, nonneg, small => by
      have head := laid_value value other nonneg small
      have tail := laid_elements rest false other nonneg small
      rw [elementsStr_cons, elementsStr_cons]
      refine (laid_row nonneg head tail (elementsStr_begins _ _ _) (elementsStr_begins _ _ _)).mono ?_ id
      rw [Value.FitsIndent, Value.elementsDepth]
      omega

end

theorem SameReading.refl (string : Text) : SameReading string string := ⟨rfl, rfl⟩

/-- The layouts of a value that is no container are the same text. -/
theorem str_open {value : Value} (opens : ¬ value.Closes) (indent other : Int) :
    value.str true indent = value.str false other := by
  cases value with
  | object members => exact absurd trivial opens
  | array elements => exact absurd trivial opens
  | _ => rw [Value.str, Value.str]

/-- Where the indentation fits, both layouts throw, or both are texts that are read in the same way. -/
theorem laid_reading {value : Value} {indent : Int} (nonneg : 0 ≤ indent) (small : indent < 2 ^ 31)
    (fits : value.FitsIndent indent) :
    (∃ left right, value.str true indent = .ok left ∧ value.str false 0 = .ok right ∧ SameReading left right) ∨
      ((∃ fault, value.str true indent = .error fault) ∧ ∃ fault, value.str false 0 = .error fault) := by
  obtain ⟨left, right, isLeft, isRight, aligned⟩ | failed := (laid_value value 0 nonneg small).fitting fits
  · refine .inl ⟨left, right, isLeft, isRight, ?_⟩
    by_cases closes : value.Closes
    · have same := aligned [] [] (.inl closes) .nil
      rw [List.append_nil, List.append_nil] at same
      exact same.reading
    · rw [str_open closes indent 0, isRight] at isLeft
      cases isLeft
      exact .refl _
  · exact .inr failed

/-- The layout makes no difference where the plain one throws or the deepest line can be indented. -/
theorem layoutIndependent_iff (value : Value) (indent : Int32) (nonneg : 0 ≤ indent.toInt) :
    value.LayoutIndependent indent.toInt ↔
      (∃ fault, value.str false 0 = .error fault) ∨ value.FitsIndent indent.toInt := by
  have small : indent.toInt < 2 ^ 31 := indent.toInt_lt
  rw [Value.LayoutIndependent]
  by_cases fits : value.FitsIndent indent.toInt
  · simp only [fits, or_true, iff_true]
    obtain ⟨left, right, isLeft, isRight, same⟩ | ⟨⟨fault, failed⟩, other, failedPlain⟩ :=
      laid_reading nonneg small fits
    · rw [isLeft, isRight]
      exact same
    · rw [failed, failedPlain]
      trivial
  · obtain ⟨fault, failed⟩ := (laid_value value 0 nonneg small).overflow fits
    rw [failed]
    match plain : value.str false 0 with
    | .ok string => simp [fits]
    | .error other => simp

theorem layoutIndependent_nested :
    (Value.array [.object [(text "a", .integer 1)], .real ⟨true, .infinite⟩]).LayoutIndependent (Int32.toInt 4) ↔
      (∃ fault, (Value.array [.object [(text "a", .integer 1)], .real ⟨true, .infinite⟩]).str false 0 = .error fault) ∨
        (Value.array [.object [(text "a", .integer 1)], .real ⟨true, .infinite⟩]).FitsIndent (Int32.toInt 4) :=
  layoutIndependent_iff _ 4 (by decide)

/-- The indentation of the element is no `int`. -/
theorem deepIndent_not_layoutIndependent : ¬ (Value.array [.null]).LayoutIndependent 2147483646 := by
  have overflow : ¬ (Value.array [.null]).FitsIndent 2147483646 := by
    rw [Value.FitsIndent]
    decide
  obtain ⟨fault, failed⟩ :=
    (laid_value (.array [.null]) 0 (show (0 : Int) ≤ 2147483646 by decide) (by decide)).overflow overflow
  have plain : (Value.array [.null]).str false 0 = .ok (text "[ null ]") := by decide
  rw [Value.LayoutIndependent, failed, plain]
  exact id

end SimpleNFast.Json
