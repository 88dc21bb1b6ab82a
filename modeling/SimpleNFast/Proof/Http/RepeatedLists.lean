import SimpleNFast.Proof.Http.HeaderMap
import SimpleNFast.Proof.Http.ListReading

namespace SimpleNFast.Http

variable {name key a b : Text} {stored : BaseValue}

/-- Two lists with a comma between them are one list. -/
theorem ListText.append {element : Type} {written : Text → element → Prop} {values more : List element} {left right : Text}
    (first : ListText written a values) (blankLeft : isBlank left = true) (blankRight : isBlank right = true)
    (second : ListText written b more) :
    ListText written (a ++ (left ++ byte ',' :: (right ++ b))) (values ++ more) := by
  induction first with
  | last value => exact .more value blankLeft blankRight second
  | @more front before after rest value values first blankBefore blankAfter others joined =>
      have same : front ++ (before ++ byte ',' :: (after ++ rest)) ++ (left ++ byte ',' :: (right ++ b)) =
          front ++ (before ++ byte ',' :: (after ++ (rest ++ (left ++ byte ',' :: (right ++ b))))) := by
        simp only [List.append_assoc, List.cons_append]
      rw [same]
      exact .more first blankBefore blankAfter joined

theorem joined_shape (frontA listA backA frontB listB backB : Text) :
    frontA ++ (listA ++ backA) ++ text ", " ++ (frontB ++ (listB ++ backB)) =
      frontA ++ (listA ++ (backA ++ byte ',' :: (byte ' ' :: frontB ++ listB)) ++ backB) := by
  simp only [List.append_assoc, List.cons_append]
  rfl

theorem blank_cons {space : Text} (blank : isBlank space = true) : isBlank (byte ' ' :: space) = true := by
  rw [isBlank, List.all_cons, Bool.and_eq_true]
  exact ⟨by decide, blank⟩

/-- The class of a list of words. -/
def wordsOf (name : Text) (words : List Text) : HeaderValue :=
  if name = CONNECTION then .connections words
  else if name = CONTENT_ENCODING then .encodings words
  else .strings words

theorem validate_tokens (parameters : hasParameters key = true) (valid : BaseValue.validate key a = .ok stored) :
    ∃ codings, parseTokens a = .ok codings ∧ stored = ⟨.tokens codings, a⟩ := by
  rw [hasParameters, Bool.or_eq_true, beq_iff_eq, beq_iff_eq] at parameters
  unfold BaseValue.validate at valid
  cases parsed : parseTokens a with
  | error fault =>
      obtain rfl | rfl := parameters
      · rw [Field.validate_transferEncoding, parsed] at valid
        cases valid
      · rw [Field.validate_te, parsed] at valid
        cases valid
  | ok codings =>
      refine ⟨codings, rfl, ?_⟩
      obtain rfl | rfl := parameters
      · rw [Field.validate_transferEncoding, parsed] at valid
        cases valid
        rfl
      · rw [Field.validate_te, parsed] at valid
        cases valid
        rfl

/-- A list that passes its validator is kept as it was read. -/
theorem eq_of_validator {validator : Text → Except Fault Unit} {wrap : List Text → Field} {field : Field}
    (valid : (do
      let words ← parseStrings a
      words.forM validator
      pure (wrap words)) = .ok field) : ∃ words, parseStrings a = .ok words ∧ field = wrap words := by
  cases parsed : parseStrings a with
  | error fault =>
      rw [parsed] at valid
      cases valid
  | ok words =>
      cases checked : words.forM validator with
      | error fault => simp [parsed, checked, Bind.bind, Except.bind] at valid
      | ok =>
          simp only [parsed, checked, Bind.bind, Except.bind] at valid
          cases valid
          exact ⟨words, rfl, rfl⟩

theorem validate_words (words : hasWords key = true) (valid : BaseValue.validate key a = .ok stored) :
    ∃ found, parseStrings a = .ok found ∧ stored = ⟨wordsOf key found, a⟩ := by
  rw [hasWords, Bool.or_eq_true, Bool.or_eq_true, Bool.or_eq_true, beq_iff_eq, beq_iff_eq, beq_iff_eq,
    Bool.not_eq_true', List.contains_eq_mem, decide_eq_false_iff_not] at words
  unfold BaseValue.validate at valid
  cases read : Field.validate key a with
  | error fault =>
      rw [read] at valid
      cases valid
  | ok field =>
      rw [read] at valid
      cases valid
      obtain ((rfl | rfl) | rfl) | unknown := words
      · rw [Field.validate_connection] at read
        obtain ⟨found, parsed, rfl⟩ := eq_of_validator read
        exact ⟨found, parsed, rfl⟩
      · rw [Field.validate_contentEncoding] at read
        obtain ⟨found, parsed, rfl⟩ := eq_of_validator read
        exact ⟨found, parsed, rfl⟩
      · rw [Field.validate_trailers] at read
        cases parsed : parseStrings a with
        | error fault =>
            rw [parsed] at read
            cases read
        | ok found =>
            rw [parsed] at read
            cases read
            exact ⟨found, rfl, rfl⟩
      · rw [Field.validate_other unknown] at read
        cases parsed : parseStrings a with
        | error fault =>
            rw [parsed] at read
            cases read
        | ok found =>
            rw [parsed] at read
            cases read
            have connection : key ≠ CONNECTION := by
              rintro rfl
              exact unknown (by decide)
            have encoding : key ≠ CONTENT_ENCODING := by
              rintro rfl
              exact unknown (by decide)
            refine ⟨found, rfl, ?_⟩
            rw [wordsOf, if_neg connection, if_neg encoding]
            rfl

/-- The value of two lists together is the first value with the second one added to it. -/
theorem validate_append {first second : BaseValue} (wellA : WellFormedList key a) (wellB : WellFormedList key b)
    (validA : BaseValue.validate key a = .ok first) (validB : BaseValue.validate key b = .ok second)
    (valid : BaseValue.validate key (a ++ text ", " ++ b) = .ok stored) :
    first.value.isSeq = true ∧ second.value.isSeq = true ∧ first.append second = stored := by
  have apart : ¬ (hasParameters key = true ∧ hasWords key = true) := by
    rintro ⟨parameters, words⟩
    rw [hasParameters, Bool.or_eq_true, beq_iff_eq, beq_iff_eq] at parameters
    obtain rfl | rfl := parameters
    · exact absurd words (by decide)
    · exact absurd words (by decide)
  obtain ⟨parameters, frontA, restA, backA, values, rfl, blankFrontA, blankBackA, listA⟩ |
    ⟨words, frontA, restA, backA, values, rfl, blankFrontA, blankBackA, listA⟩ := wellA
  · obtain ⟨-, frontB, restB, backB, more, rfl, blankFrontB, blankBackB, listB⟩ | ⟨words, -⟩ := wellB
    · obtain ⟨readA, parsedA, rfl⟩ := validate_tokens parameters validA
      obtain ⟨readB, parsedB, rfl⟩ := validate_tokens parameters validB
      obtain ⟨read, parsed, rfl⟩ := validate_tokens parameters valid
      refine ⟨rfl, rfl, ?_⟩
      obtain ⟨char, others, begins, -⟩ := listA.begins (readTokenValue_elements [])
      have filled : (frontA ++ (restA ++ backA)).isEmpty = false := by simp [begins]
      rw [joined_shape] at parsed
      rw [(parseTokens_leads listA blankFrontA blankBackA parsedA).1,
        (parseTokens_leads listB blankFrontB blankBackB parsedB).1,
        (parseTokens_leads (listA.append blankBackA (blank_cons blankFrontB) listB) blankFrontA blankBackB parsed).1,
        BaseValue.append, BaseValue.joinRaw, filled, if_neg Bool.false_ne_true]
    · exact absurd ⟨parameters, words⟩ apart
  · obtain ⟨parameters, -⟩ | ⟨-, frontB, restB, backB, more, rfl, blankFrontB, blankBackB, listB⟩ := wellB
    · exact absurd ⟨parameters, words⟩ apart
    · obtain ⟨char, others, begins, -⟩ := listA.begins (readString_elements [])
      have filled : (frontA ++ (restA ++ backA)).isEmpty = false := by simp [begins]
      obtain ⟨readA, parsedA, rfl⟩ := validate_words words validA
      obtain ⟨readB, parsedB, rfl⟩ := validate_words words validB
      obtain ⟨read, parsed, rfl⟩ := validate_words words valid
      rw [joined_shape] at parsed
      rw [parseStrings_leads listA blankFrontA blankBackA parsedA, parseStrings_leads listB blankFrontB blankBackB parsedB,
        parseStrings_leads (listA.append blankBackA (blank_cons blankFrontB) listB) blankFrontA blankBackB parsed]
      unfold wordsOf
      split
      · refine ⟨rfl, rfl, ?_⟩
        rw [BaseValue.append, BaseValue.joinRaw, filled, if_neg Bool.false_ne_true]
      · split
        · refine ⟨rfl, rfl, ?_⟩
          rw [BaseValue.append, BaseValue.joinRaw, filled, if_neg Bool.false_ne_true]
        · refine ⟨rfl, rfl, ?_⟩
          rw [BaseValue.append, BaseValue.joinRaw, filled, if_neg Bool.false_ne_true]

/-- The first value of a name that is accepted is the only entry. -/
theorem add_empty (filled : name ≠ []) {value : Text} (accepted : (HeaderMap.empty.add name value).1 = .ok ()) :
    ∃ stored, BaseValue.validate (Headers.lower name) value = .ok stored ∧
      HeaderMap.empty.add name value = (.ok (), ⟨[(Headers.lower name, some stored)]⟩) := by
  have opened : name.isEmpty = false := List.isEmpty_eq_false_iff.2 filled
  unfold HeaderMap.add at accepted ⊢
  rw [opened, if_neg Bool.false_ne_true] at accepted ⊢
  dsimp only at accepted ⊢
  cases valid : BaseValue.validate (Headers.lower name) value with
  | error fault =>
      rw [valid] at accepted
      cases accepted
  | ok stored => exact ⟨stored, rfl, rfl⟩

/-- A list over two lines means what the joined list in one line means. -/
theorem add_list_split (name a b : Text) (wellA : WellFormedList (Headers.lower name) a)
    (wellB : WellFormedList (Headers.lower name) b) (acceptedA : (HeaderMap.empty.add name a).1 = .ok ())
    (acceptedB : (HeaderMap.empty.add name b).1 = .ok ())
    (accepted : (HeaderMap.empty.add name (a ++ text ", " ++ b)).1 = .ok ()) :
    (HeaderMap.empty.add name a).2.add name b = HeaderMap.empty.add name (a ++ text ", " ++ b) := by
  by_cases filled : name = []
  · have nothing (map : HeaderMap) (value : Text) : map.add [] value = (.ok (), map) := by
      rw [HeaderMap.add, List.isEmpty_nil, if_pos rfl]
    rw [filled, nothing, nothing, nothing]
  · obtain ⟨first, validA, addedA⟩ := add_empty filled acceptedA
    obtain ⟨second, validB, -⟩ := add_empty filled acceptedB
    obtain ⟨stored, valid, added⟩ := add_empty filled accepted
    obtain ⟨seqA, seqB, same⟩ := validate_append wellA wellB validA validB valid
    have opened : name.isEmpty = false := List.isEmpty_eq_false_iff.2 filled
    have found : HeaderMap.find ⟨[(Headers.lower name, some first)]⟩ (Headers.lower name) = some (some first) := by
      rw [HeaderMap.find, List.find?_cons_of_pos (by simp)]
      rfl
    rw [addedA, added, HeaderMap.add, opened, if_neg Bool.false_ne_true]
    dsimp only
    rw [validB]
    dsimp only
    rw [found]
    dsimp only
    rw [Option.any_some, seqA, seqB, Bool.and_self, if_pos rfl, Option.map_some, same, HeaderMap.assign, beq_self_eq_true,
      if_pos rfl]

instance splitList_accepted :
    Fact ((HeaderMap.empty.add (text "Accept") (text "one")).1 = .ok () ∧
      (HeaderMap.empty.add (text "Accept") (text "Two ,three")).1 = .ok () ∧
      (HeaderMap.empty.add (text "Accept") (text "one" ++ text ", " ++ text "Two ,three")).1 = .ok ()) :=
  ⟨by decide +kernel⟩

theorem add_list_split_accept :
    (HeaderMap.empty.add (text "Accept") (text "one")).2.add (text "Accept") (text "Two ,three") =
      HeaderMap.empty.add (text "Accept") (text "one" ++ text ", " ++ text "Two ,three") :=
  add_list_split (text "Accept") (text "one") (text "Two ,three")
    (.inr ⟨by decide, [], text "one", [], _, rfl, rfl, rfl, .last (.word (by decide))⟩)
    (.inr ⟨by decide, [], text "Two ,three", [], _, rfl, rfl, rfl,
      @ListText.more _ _ (text "Two") [byte ' '] [] (text "three") _ _ (.word (by decide)) (by decide) rfl
        (.last (.word (by decide)))⟩)
    splitList_accepted.out.1 splitList_accepted.out.2.1 splitList_accepted.out.2.2

end SimpleNFast.Http
