import SimpleNFast.Construction.Json.Escapes
import SimpleNFast.Proof.Json.Acceptance
import SimpleNFast.Proof.Json.Weights

set_option maxRecDepth 100000

namespace SimpleNFast.Json

/-- What was unescaped once is what is read when it has no backslash, and has more weight otherwise. -/
structure Outweighs (unescaped same : Prop) (once read : Nat) : Prop where
  same : unescaped → same
  light : read ≤ once
  lighter : ¬ unescaped → read < once

theorem Outweighs.iff_of_weight {unescaped same : Prop} {once read : Nat} (outweighs : Outweighs unescaped same once read)
    (weighed : same → once = read) : same ↔ unescaped := by
  refine ⟨fun isSame => ?_, outweighs.same⟩
  by_contra backslash
  have less := outweighs.lighter backslash
  have equal := weighed isSame
  omega

/-- Two parts of a value. -/
theorem Outweighs.both {unescaped same other otherSame all allSame : Prop} {once read once' read' : Nat}
    (first : Outweighs unescaped same once read) (second : Outweighs other otherSame once' read')
    (both : all ↔ unescaped ∧ other) (equal : same → otherSame → allSame) (more : Nat) :
    Outweighs all allSame (once + more + once') (read + more + read') where
  same isAll := equal (first.same (both.mp isAll).1) (second.same (both.mp isAll).2)
  light := by
    have less := first.light
    have lessOther := second.light
    omega
  lighter backslash := by
    have lessOther := second.light
    by_cases plain : unescaped
    · have less := first.light
      have lighter := second.lighter fun plainOther => backslash (both.mpr ⟨plain, plainOther⟩)
      omega
    · have lighter := first.lighter plain
      omega

def Thinned (once value : Value) : Prop := Outweighs once.IsUnescaped (value = once) once.weight value.weight

def ElementsUnescaped (elements : List Value) : Prop :=
  Value.elementsAll Value.LeafUnescaped Value.Unescaped (fun _ => True) (fun _ => True) elements

def MembersUnescaped (members : List (Text × Value)) : Prop :=
  Value.membersAll Value.LeafUnescaped Value.Unescaped (fun _ => True) (fun _ => True) members

def ThinnedElements (onces elements : List Value) : Prop :=
  Outweighs (ElementsUnescaped onces) (elements = onces) (Value.elementsWeight onces) (Value.elementsWeight elements)

/-- The key of a member is unescaped twice more. -/
structure ThinnedMember (once member : Text × Value) : Prop where
  key : Outweighs (Value.Unescaped once.1) (member.1 = once.1) once.1.length member.1.length
  image : Lexeme.string? once.1 = some member.1
  value : Thinned once.2 member.2

theorem exists_once {body string : Text} (isString : Lexeme.string? body = some string) :
    ∃ once, Lexeme.once body = some once ∧ stringUnescape once = .ok string := by
  rw [Lexeme.string?] at isString
  cases first : stringUnescape body with
  | error fault =>
      rw [first] at isString
      cases isString
  | ok once =>
      refine ⟨once, by rw [Lexeme.once, first]; rfl, ?_⟩
      rw [first] at isString
      cases second : stringUnescape once with
      | error fault =>
          change (stringUnescape once).toOption = some string at isString
          rw [second] at isString
          cases isString
      | ok result =>
          change (stringUnescape once).toOption = some string at isString
          rw [second] at isString
          cases isString
          rfl

/-- One unescaping of a literal gives the bytes of its parts. -/
theorem once_items {items : List Item} (isRead : ∀ item ∈ items, item.IsRead) :
    Lexeme.once (items.flatMap Item.text) = some (items.flatMap Item.bytes) := by
  rw [Lexeme.once, stringUnescape_items isRead]
  rfl

/-- The string that is read was unescaped once more. -/
theorem string_outweighs {once string : Text} (ran : stringUnescape once = .ok string) :
    Outweighs (Value.Unescaped once) (string = once) once.length string.length := by
  obtain ⟨same, shorter⟩ := stringUnescape_length once
  obtain ⟨light, lighter⟩ := shorter string ran
  refine ⟨fun unescaped => ?_, light, lighter⟩
  rw [same unescaped] at ran
  cases ran
  rfl

theorem key_outweighs {body name : Text} (isKey : Lexeme.key body = some name) :
    ∃ once, Lexeme.once body = some once ∧ Lexeme.string? once = some name ∧
      Outweighs (Value.Unescaped once) (name = once) once.length name.length := by
  obtain ⟨string, isString, isName⟩ := Option.bind_eq_some_iff.mp isKey
  obtain ⟨once, isOnce, ran⟩ := exists_once isString
  match last : stringUnescape string with
  | .error fault =>
      rw [last] at isName
      cases isName
  | .ok result =>
      rw [last] at isName
      cases isName
      have first := string_outweighs ran
      have second := string_outweighs last
      refine ⟨once, isOnce, ?_, fun unescaped => ?_, second.light.trans first.light, fun backslash => ?_⟩
      · rw [Lexeme.string?, ran]
        exact congrArg Except.toOption last
      · obtain rfl := first.same unescaped
        exact second.same unescaped
      · exact second.light.trans_lt (first.lighter backslash)

section Collected

/-- All members after an insertion. -/
theorem membersAll_insert {leaf : Value → Prop} {key : Text → Prop} {object : List (Text × Value) → Prop}
    {array : List Value → Prop} {name : Text} {value : Value} {members : List (Text × Value)}
    (absent : name ∉ members.map Prod.fst) :
    Value.membersAll leaf key object array (Value.insert members name value) ↔
      (key name ∧ value.All leaf key object array) ∧ Value.membersAll leaf key object array members := by
  induction members with
  | nil => simp [Value.insert, Value.membersAll]
  | cons member rest inductionHypothesis =>
      obtain ⟨first, old⟩ := member
      rw [List.map_cons, List.mem_cons, not_or] at absent
      rw [Value.insert]
      split
      · simp only [Value.membersAll]
      split
      · simp only [Value.membersAll, inductionHypothesis absent.2]
        tauto
      · rename_i notLess notMore
        exact absurd (Value.eq_of_not_keyLess notLess notMore) absent.1

/-- The invariant of the two maps while their members are added. -/
structure Collected (onces members : List (Text × Value)) : Prop where
  onceMap : Value.IsMap onces
  isMap : Value.IsMap members
  outweighs : Outweighs (MembersUnescaped onces) (members = onces) (Value.membersWeight onces)
    (Value.membersWeight members)
  keys : ∀ once ∈ onces.map Prod.fst, ∃ name, Lexeme.string? once = some name ∧ name ∈ members.map Prod.fst

theorem collected_nil : Collected [] [] where
  onceMap := .nil
  isMap := .nil
  outweighs := ⟨fun _ => rfl, le_refl _, fun backslash => absurd trivial backslash⟩
  keys once member := by cases member

/-- A key that is there already in the one map is there in the other one too. -/
theorem Collected.insert {onces members : List (Text × Value)} (collected : Collected onces members)
    {once member : Text × Value} (thinned : ThinnedMember once member) :
    Collected (Value.insert onces once.1 once.2) (Value.insert members member.1 member.2) := by
  obtain ⟨key, onceValue⟩ := once
  obtain ⟨name, value⟩ := member
  by_cases present : key ∈ onces.map Prod.fst
  · obtain ⟨other, image, presentName⟩ := collected.keys key present
    obtain rfl : other = name := Option.some_injective _ (image.symm.trans thinned.image)
    rw [Value.insert_present collected.onceMap present, Value.insert_present collected.isMap presentName]
    exact collected
  refine ⟨Value.insert_isMap collected.onceMap, Value.insert_isMap collected.isMap, ?_, fun found member => ?_⟩
  · have isKey : Outweighs (Value.Unescaped key) (name = key) key.length name.length := thinned.key
    have isValue : Outweighs onceValue.IsUnescaped (value = onceValue) onceValue.weight value.weight := thinned.value
    have added := isKey.both isValue Iff.rfl And.intro 0
    have all := @membersAll_insert Value.LeafUnescaped Value.Unescaped (fun _ => True) (fun _ => True) key onceValue
      onces present
    have weight := @Value.insert_weight key onceValue onces present
    by_cases presentName : name ∈ members.map Prod.fst
    · rw [Value.insert_present collected.isMap presentName, weight]
      have light := collected.outweighs.light
      refine ⟨fun unescaped => ?_, by omega, fun _ => by omega⟩
      obtain ⟨⟨plain, -⟩, others⟩ := all.mp unescaped
      rw [isKey.same plain, collected.outweighs.same others] at presentName
      exact absurd presentName present
    · rw [weight, @Value.insert_weight name value members presentName]
      have equal (same : members = onces) (others : name = key ∧ value = onceValue) :
          Value.insert members name value = Value.insert onces key onceValue := by
        rw [same, others.1, others.2]
      have both := collected.outweighs.both added (all.trans and_comm) equal 1
      refine ⟨both.same, ?_, fun backslash => ?_⟩
      · have light := both.light
        omega
      · have lighter := both.lighter backslash
        omega
  · obtain rfl | member := (Value.mem_keys_insert onces found).mp member
    · exact ⟨name, thinned.image, (Value.mem_keys_insert members name).mpr (.inl rfl)⟩
    · obtain ⟨other, image, presentOther⟩ := collected.keys found member
      exact ⟨other, image, (Value.mem_keys_insert members other).mpr (.inr presentOther)⟩

theorem Collected.collect {added addedMembers : List (Text × Value)}
    (thinned : List.Forall₂ ThinnedMember added addedMembers) {onces members : List (Text × Value)}
    (collected : Collected onces members) :
    Collected (Value.collect onces added) (Value.collect members addedMembers) := by
  induction thinned generalizing onces members with
  | nil => exact collected
  | cons first _ inductionHypothesis => exact inductionHypothesis (collected.insert first)

end Collected

section Rows

variable {once value : Value}

theorem thinnedElements_nil : ThinnedElements [] [] := ⟨fun _ => rfl, le_refl _, fun backslash => absurd trivial backslash⟩

theorem ThinnedElements.cons (thinned : Thinned once value) {onces elements : List Value}
    (others : ThinnedElements onces elements) : ThinnedElements (once :: onces) (value :: elements) :=
  Outweighs.both thinned others Iff.rfl (fun same sameOthers => by rw [same, sameOthers]) 0

theorem ThinnedElements.array {onces elements : List Value} (thinned : ThinnedElements onces elements) :
    Thinned (.array onces) (.array elements) where
  same unescaped := congrArg Value.array (thinned.same unescaped.2)
  light := thinned.light
  lighter backslash := thinned.lighter fun unescaped => backslash ⟨trivial, unescaped⟩

theorem thinned_object {onces members : List (Text × Value)} (thinned : List.Forall₂ ThinnedMember onces members) :
    Thinned (.object (Value.collect [] onces)) (.object (Value.collect [] members)) := by
  obtain ⟨-, -, outweighs, -⟩ := collected_nil.collect thinned
  exact ⟨fun unescaped => congrArg Value.object (outweighs.same unescaped.2), outweighs.light,
    fun backslash => outweighs.lighter fun unescaped => backslash ⟨trivial, unescaped⟩⟩

theorem thinned_leaf (plain : value.IsUnescaped) : Thinned value value :=
  ⟨fun _ => rfl, le_refl _, fun backslash => absurd plain backslash⟩

end Rows

/-- A value that is no string, from its token. -/
theorem unescaped_of_token {token : Token} (other : ∀ string, token ≠ .string string) {value : Value}
    (isValue : token.value = some value) : value.IsUnescaped := by
  cases token with
  | string string => exact absurd rfl (other string)
  | _ => cases isValue <;> trivial

/-- A number is no string. -/
theorem Number.token_ne_string (numeral : Number) : ∀ token, numeral.token = some token → ∀ string, token ≠ .string string := by
  intro token isToken string same
  subst same
  rw [Number.token] at isToken
  split at isToken
  · split at isToken
    · obtain ⟨value, -, same⟩ := Option.map_eq_some_iff.mp isToken
      cases same
    · obtain ⟨value, -, same⟩ := Option.map_eq_some_iff.mp isToken
      cases same
  · cases isToken

theorem scalar_outweighs (lexeme : Lexeme) {value : Value} (isValue : (Tree.scalar lexeme).read = some value) :
    ∃ once, (Tree.scalar lexeme).readOnce = some once ∧ Thinned once value := by
  cases lexeme with
  | string body =>
      obtain ⟨token, isToken, same⟩ := Option.bind_eq_some_iff.mp isValue
      obtain ⟨string, isString, rfl⟩ := Option.map_eq_some_iff.mp isToken
      cases same
      obtain ⟨once, isOnce, ran⟩ := exists_once isString
      obtain ⟨same, light, lighter⟩ := string_outweighs ran
      refine ⟨.string once, ?_, fun unescaped => congrArg Value.string (same unescaped), light, lighter⟩
      rw [Tree.readOnce, isOnce]
      rfl
  | number numeral =>
      obtain ⟨token, isToken, same⟩ := Option.bind_eq_some_iff.mp isValue
      exact ⟨value, isValue, thinned_leaf (unescaped_of_token (numeral.token_ne_string token isToken) same)⟩
  | null =>
      cases isValue
      exact ⟨_, rfl, thinned_leaf trivial⟩
  | true =>
      cases isValue
      exact ⟨_, rfl, thinned_leaf trivial⟩
  | false =>
      cases isValue
      exact ⟨_, rfl, thinned_leaf trivial⟩

mutual

/-- Each tree that is read has a value in which every literal is unescaped once. -/
theorem Tree.outweighs : (tree : Tree) → ∀ {value : Value}, tree.read = some value →
    ∃ once, tree.readOnce = some once ∧ Thinned once value
  | .scalar lexeme, value, isValue => scalar_outweighs lexeme isValue
  | .emptyArray _, value, isValue => by cases isValue
  | .emptyObject _, value, isValue => by cases isValue
  | .array elements, value, isValue => by
      obtain ⟨values, areValues, rfl⟩ := Option.map_eq_some_iff.mp isValue
      obtain ⟨onces, areOnces, thinned⟩ := elements.outweighs areValues
      refine ⟨.array onces, ?_, thinned.array⟩
      rw [Tree.readOnce, areOnces]
      rfl
  | .object members, value, isValue => by
      obtain ⟨values, areValues, rfl⟩ := Option.map_eq_some_iff.mp isValue
      obtain ⟨onces, areOnces, thinned⟩ := members.outweighs areValues
      refine ⟨_, ?_, thinned_object thinned⟩
      rw [Tree.readOnce, areOnces]
      rfl

theorem Elements.outweighs : (elements : Elements) → ∀ {values : List Value}, elements.read = some values →
    ∃ onces, elements.readOnce = some onces ∧ ThinnedElements onces values
  | .last _ tree _, values, areValues => by
      obtain ⟨value, isValue, rfl⟩ := Elements.read_last_iff.mp areValues
      obtain ⟨once, isOnce, thinned⟩ := tree.outweighs isValue
      refine ⟨[once], ?_, thinnedElements_nil.cons thinned⟩
      rw [Elements.readOnce, isOnce]
      rfl
  | .more _ tree _ rest, values, areValues => by
      obtain ⟨value, others, isValue, areOthers, rfl⟩ := Elements.read_more_iff.mp areValues
      obtain ⟨once, isOnce, thinned⟩ := tree.outweighs isValue
      obtain ⟨onces, areOnces, thinnedOthers⟩ := rest.outweighs areOthers
      refine ⟨once :: onces, ?_, thinnedOthers.cons thinned⟩
      rw [Elements.readOnce, isOnce, areOnces]
      rfl

theorem Members.outweighs : (members : Members) → ∀ {values : List (Text × Value)}, members.read = some values →
    ∃ onces, members.readOnce = some onces ∧ List.Forall₂ ThinnedMember onces values
  | .last _ key _ _ tree _, values, areValues => by
      obtain ⟨name, value, isName, isValue, rfl⟩ := Members.read_last_iff.mp areValues
      obtain ⟨onceName, isOnceName, image, thinnedName⟩ := key_outweighs isName
      obtain ⟨once, isOnce, thinned⟩ := tree.outweighs isValue
      refine ⟨[(onceName, once)], ?_, .cons ⟨thinnedName, image, thinned⟩ .nil⟩
      rw [Members.readOnce, isOnceName, isOnce]
      rfl
  | .more _ key _ _ tree _ rest, values, areValues => by
      obtain ⟨name, value, others, isName, isValue, areOthers, rfl⟩ := Members.read_more_iff.mp areValues
      obtain ⟨onceName, isOnceName, image, thinnedName⟩ := key_outweighs isName
      obtain ⟨once, isOnce, thinned⟩ := tree.outweighs isValue
      obtain ⟨onces, areOnces, thinnedOthers⟩ := rest.outweighs areOthers
      refine ⟨(onceName, once) :: onces, ?_, .cons ⟨thinnedName, image, thinned⟩ thinnedOthers⟩
      rw [Members.readOnce, isOnceName, isOnce, areOnces]
      rfl

end

theorem CutElements.outweighs (elements : CutElements) {values : List Value} (areValues : elements.read = some values) :
    ∃ onces, elements.readOnce = some onces ∧ ThinnedElements onces values := by
  induction elements generalizing values with
  | stop tail =>
      cases areValues
      exact ⟨[], rfl, thinnedElements_nil⟩
  | more before tree after rest inductionHypothesis =>
      obtain ⟨value, others, isValue, areOthers, rfl⟩ := CutElements.read_more_iff.mp areValues
      obtain ⟨once, isOnce, thinned⟩ := tree.outweighs isValue
      obtain ⟨onces, areOnces, thinnedOthers⟩ := inductionHypothesis areOthers
      refine ⟨once :: onces, ?_, thinnedOthers.cons thinned⟩
      rw [CutElements.readOnce, isOnce, areOnces]
      rfl

theorem CutMembers.outweighs (members : CutMembers) {values : List (Text × Value)}
    (areValues : members.read = some values) :
    ∃ onces, members.readOnce = some onces ∧ List.Forall₂ ThinnedMember onces values := by
  induction members generalizing values with
  | stop tail =>
      cases areValues
      exact ⟨[], rfl, .nil⟩
  | more before key afterKey beforeValue tree after rest inductionHypothesis =>
      obtain ⟨name, value, others, isName, isValue, areOthers, rfl⟩ := CutMembers.read_more_iff.mp areValues
      obtain ⟨onceName, isOnceName, image, thinnedName⟩ := key_outweighs isName
      obtain ⟨once, isOnce, thinned⟩ := tree.outweighs isValue
      obtain ⟨onces, areOnces, thinnedOthers⟩ := inductionHypothesis areOthers
      refine ⟨(onceName, once) :: onces, ?_, .cons ⟨thinnedName, image, thinned⟩ thinnedOthers⟩
      rw [CutMembers.readOnce, isOnceName, isOnce, areOnces]
      rfl

theorem Reading.outweighs (reading : Reading) {value : Value} (isValue : reading.read = some value) :
    ∃ once, reading.readOnce = some once ∧ Thinned once value := by
  cases reading with
  | closed before root after => exact root.outweighs isValue
  | cutArray before elements =>
      obtain ⟨values, areValues, rfl⟩ := Option.map_eq_some_iff.mp isValue
      obtain ⟨onces, areOnces, thinned⟩ := elements.outweighs areValues
      refine ⟨.array onces, ?_, thinned.array⟩
      rw [Reading.readOnce, areOnces]
      rfl
  | cutObject before members =>
      obtain ⟨values, areValues, rfl⟩ := Option.map_eq_some_iff.mp isValue
      obtain ⟨onces, areOnces, thinned⟩ := members.outweighs areValues
      refine ⟨_, ?_, thinned_object thinned⟩
      rw [Reading.readOnce, areOnces]
      rfl

/-- The literals of an accepted text are unescaped once when no literal has a backslash after that. -/
theorem readOnce_iff (reading : Reading) (value : Value) (isRead : reading.IsRead)
    (accepted : fromString reading.text = .ok value) :
    reading.readOnce = some value ↔ ∃ once, reading.readOnce = some once ∧ once.IsUnescaped := by
  obtain ⟨result, isValue, ran⟩ := fromString_reading isRead
  rw [ran] at accepted
  cases accepted
  obtain ⟨once, isOnce, thinned⟩ := reading.outweighs isValue
  have same : value = once ↔ once.IsUnescaped := thinned.iff_of_weight fun same => by rw [same]
  rw [isOnce]
  simp only [Option.some.injEq, exists_eq_left']
  rw [← same]
  exact eq_comm

/-- The text of an object with one string. -/
def oneNameText : Reading := .closed [] (.object (.last [] (text "a") [] [] (.scalar (.string (text "b"))) [])) []

theorem readOnce_oneName :
    oneNameText.readOnce = some (.object [(text "a", .string (text "b"))]) ↔
      ∃ once, oneNameText.readOnce = some once ∧ once.IsUnescaped := by
  have body (char : UInt8) (plain : char ≠ byte '"' ∧ char ≠ byte '\\') : bodyOf Item.IsRead [char] :=
    ⟨[.char char], List.forall_mem_singleton.mpr plain, rfl⟩
  have within : (Tree.object (.last [] (text "a") [] [] (.scalar (.string (text "b"))) [])).Within .read :=
    ⟨⟨space_nil, body _ (by decide), space_nil, space_nil⟩, body _ (by decide), space_nil⟩
  exact readOnce_iff oneNameText _ ⟨space_nil, rfl, within, rfl⟩
    ((fromString_closed space_nil rfl within [] _).mpr rfl)

/-- The text of an array whose string is a backslash and a letter. -/
def backslashText : Reading := .closed [] (.array (.last [] (.scalar (.string (text "\\\\n"))) [])) []

/-- The backslash that a literal stands for is unescaped again. -/
theorem backslash_not_readOnce :
    backslashText.IsRead ∧ backslashText.Flawless ∧ backslashText.text = text "[\"\\\\n\"]" ∧
      fromString backslashText.text = .ok (.array [.string [byte '\n']]) ∧
      backslashText.readOnce = some (.array [.string [byte '\\', byte 'n']]) ∧
      backslashText.readOnce ≠ some (.array [.string [byte '\n']]) := by
  have parts {part : Item → Prop} (escape : part (.escape (byte '\\'))) (char : part (.char (byte 'n'))) :
      bodyOf part (text "\\\\n") :=
    ⟨[.escape (byte '\\'), .char (byte 'n')], List.forall_mem_cons.mpr ⟨escape, List.forall_mem_singleton.mpr char⟩, rfl⟩
  have nothing : Grammar.rfc.space [] := fun _ member => by cases member
  have within : (Tree.array (.last [] (.scalar (.string (text "\\\\n"))) [])).Within .read :=
    ⟨space_nil, parts rfl ⟨by decide, by decide⟩, space_nil⟩
  have flawless : backslashText.Flawless :=
    ⟨nothing, ⟨nothing, parts rfl ⟨by decide, by decide, by decide⟩, nothing⟩, nothing⟩
  have once : backslashText.readOnce = some (.array [.string [byte '\\', byte 'n']]) := rfl
  refine ⟨⟨space_nil, rfl, within, rfl⟩, flawless, rfl, (fromString_closed space_nil rfl within [] _).mpr rfl, once, ?_⟩
  rw [once]
  intro same
  injection same with same
  injection same with same
  injection same with same
  injection same with same
  cases same

end SimpleNFast.Json
