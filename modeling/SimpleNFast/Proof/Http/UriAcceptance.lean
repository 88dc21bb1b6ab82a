import SimpleNFast.Proof.Http.UriWriting

set_option maxRecDepth 100000

namespace SimpleNFast.Http

open Components

/-- A coded text is decoded by the loop that keeps its literal characters. -/
theorem Coded.decoded {literal keeps : Int → Bool} (less : ∀ char, literal (toInt char) = true → keeps (toInt char) = true)
    (percent : keeps (toInt (byte '%')) = false) {string : Text} (coded : Coded literal string) :
    ∃ decoded, decodeKeeping keeps string = some decoded := by
  induction coded with
  | nothing => exact ⟨[], rfl⟩
  | @plain char rest accepted _ inductionHypothesis =>
      obtain ⟨decoded, found⟩ := inductionHypothesis
      exact ⟨char :: decoded, by rw [decodeKeeping_kept (less char accepted), found]; rfl⟩
  | @escape first second rest high low _ inductionHypothesis =>
      obtain ⟨decoded, found⟩ := inductionHypothesis
      have escaped : uriPercentEncoded (byte '%' :: first :: second :: rest) = true := by
        simp [uriPercentEncoded, high, low]
      exact ⟨toByte (number 16 [first, second]) :: decoded, by
        rw [decodeKeeping_escape percent, if_pos escaped, found]; rfl⟩

/-- A coded text has literal characters, percent signs and digits only. -/
theorem Coded.chars {literal : Int → Bool} {string : Text} (coded : Coded literal string) :
    ∀ char ∈ string, literal (toInt char) = true ∨ char = byte '%' ∨ isXdigit (toInt char) = true := by
  induction coded with
  | nothing => simp
  | plain accepted _ inductionHypothesis =>
      rw [List.forall_mem_cons]
      exact ⟨.inl accepted, inductionHypothesis⟩
  | escape high low _ inductionHypothesis =>
      rw [List.forall_mem_cons, List.forall_mem_cons, List.forall_mem_cons]
      exact ⟨.inr (.inl rfl), .inr (.inr high), .inr (.inr low), inductionHypothesis⟩

namespace UriPath

theorem validLoop_literal {char : UInt8} (literal : isPathChar (toInt char) = true) (other : char ≠ byte '/')
    (rest : Text) (last : Int) : validLoop (char :: rest) last = validLoop rest (toInt char) := by
  have kept : ∀ char, isPathChar (toInt char) = true → char ≠ byte '/' →
      (uriUnreservedCharacter (toInt char) || uriSubcomponentDelimiter (toInt char) ||
        toInt char ∈ "@:".toList.map code) = true := by
    apply octet_forall
    decide
  rw [validLoop.eq_def]
  simp only [kept char literal other, if_true]

theorem validLoop_escape {first second : UInt8} (high : isXdigit (toInt first) = true)
    (low : isXdigit (toInt second) = true) (rest : Text) (last : Int) :
    validLoop (byte '%' :: first :: second :: rest) last = validLoop rest (toInt second) := by
  have other : (uriUnreservedCharacter (toInt (byte '%')) || uriSubcomponentDelimiter (toInt (byte '%')) ||
      toInt (byte '%') ∈ "@:".toList.map code) = false := by decide
  have slash : (byte '%' == byte '/') = false := by decide
  have escaped : uriPercentEncoded (byte '%' :: first :: second :: rest) = true := by
    simp [uriPercentEncoded, high, low]
  rw [validLoop.eq_def]
  simp only [other, slash, escaped, Bool.false_and, Bool.true_and, Bool.false_eq_true, if_false]

/-- A coded path without two slashes in a row is valid. -/
theorem validLoop_coded {path : Text} (coded : Coded isPathChar path) (single : ¬ text "//" <:+: path) (last : Int)
    (begins : last = code '/' → path.head? ≠ some (byte '/')) : validLoop path last = true := by
  induction coded generalizing last with
  | nothing => rfl
  | @plain char rest accepted _ inductionHypothesis =>
      have behind : ¬ text "//" <:+: rest := fun inside => single (inside.trans (List.suffix_cons char rest).isInfix)
      by_cases slash : char = byte '/'
      · subst slash
        rw [validLoop_slash fun same => begins same rfl]
        refine inductionHypothesis behind _ fun _ again => single ?_
        cases rest with
        | nil => cases again
        | cons second rest =>
            rw [List.head?_cons, Option.some.injEq] at again
            subst again
            exact (List.prefix_append (text "//") rest).isInfix
      · rw [validLoop_literal accepted slash]
        refine inductionHypothesis behind _ fun same _ => slash ?_
        have exact : ∀ char, toInt char = code '/' → char = byte '/' := by
          apply octet_forall
          decide
        exact exact char same
  | @escape first second rest high low _ inductionHypothesis =>
      have behind : ¬ text "//" <:+: rest := fun inside => by
        refine single (inside.trans ?_)
        exact ⟨[byte '%', first, second], [], by simp⟩
      rw [validLoop_escape high low]
      refine inductionHypothesis behind _ fun same => ?_
      rw [same] at low
      exact absurd low (by decide)

theorem isValid_coded {path : Text} (coded : Coded isPathChar path) (single : ¬ text "//" <:+: path) :
    isValid path = true := by
  rw [isValid, validLoop_coded coded single (-1) (fun same => absurd same (by decide)), Bool.or_true]

end UriPath

theorem isPathChar_keeps : ∀ char, isPathChar (toInt char) = true → UriPath.keeps (toInt char) = true := by
  apply octet_forall
  decide

theorem isUserChar_keeps : ∀ char, isUserChar (toInt char) = true → UriUserinfo.keeps (toInt char) = true := by
  apply octet_forall
  decide

theorem isQueryChar_keeps : ∀ char, isQueryChar (toInt char) = true → componentKeeps (toInt char) = true := by
  apply octet_forall
  decide

/-- The text of a host is a host. -/
theorem HostText.named {host : Text} (valid : HostText host) : ∃ decoded, UriHost.Named host decoded := by
  cases valid with
  | address accepted => exact ⟨_, .address rfl accepted rfl⟩
  | name filled coded =>
      obtain ⟨decoded, found⟩ := coded.decoded (fun _ accepted => accepted) (by decide)
      exact ⟨decoded, .regular filled found⟩

/-- A valid authority gives the parts of a URI. -/
theorem ReferenceAuthority.gives (authority : ReferenceAuthority) : ∃ uri, authority.parts.Gives uri := by
  obtain ⟨host, named⟩ := authority.host.named
  obtain ⟨userinfo, user⟩ : ∃ decoded, authority.parts.userinfo = none ∧ decoded = [] ∨
      ∃ userinfo, authority.parts.userinfo = some userinfo ∧ UriUserinfo.isValid userinfo = true ∧
        UriUserinfo.set userinfo = .ok decoded := by
    cases some : authority.parts.userinfo with
    | none => exact ⟨[], .inl ⟨rfl, rfl⟩⟩
    | some userinfo =>
        obtain ⟨filled, coded⟩ := authority.userinfo userinfo some
        obtain ⟨decoded, found⟩ := coded.decoded isUserChar_keeps (by decide)
        have valid : UriUserinfo.isValid userinfo = true := by
          rw [UriUserinfo.isValid, Bool.and_eq_true, Bool.not_eq_true', List.isEmpty_eq_false_iff, validKeeping_eq, found]
          exact ⟨filled, rfl⟩
        exact ⟨decoded, .inr ⟨userinfo, rfl, valid, decodeOrThrow_ok.2 found⟩⟩
  obtain ⟨port, digits⟩ : ∃ given, authority.parts.port = none ∧ given = [] ∨
      ∃ port, authority.parts.port = some port ∧ UriPort.set port = .ok given := by
    cases some : authority.parts.port with
    | none => exact ⟨[], .inl ⟨rfl, rfl⟩⟩
    | some port =>
        obtain ⟨filled, all, lower, upper⟩ := authority.port port some
        exact ⟨port, .inr ⟨port, rfl, UriPort.set_ok.2 ⟨⟨⟨filled, all⟩, lower, upper⟩, rfl⟩⟩⟩
  exact ⟨{ Uri.empty with userinfo, host, port }, user, UriHost.set_iff.2 named, digits⟩

namespace Reference

variable (reference : Reference)

theorem word_set {word : Text} (valid : SchemeWord word) : UriScheme.set word = .ok word := by
  cases valid with
  | @word first rest letter others =>
      have all : (rest.all fun char =>
          isAlpha (toInt char) || isDigit (toInt char) || toInt char ∈ "+-.".toList.map code) = true := by
        rw [List.all_eq_true]
        intro char member
        rw [Bool.or_eq_true, Bool.or_eq_true, decide_eq_true_eq, or_assoc]
        exact others char member
      rw [UriScheme.set, if_pos]
      rw [UriScheme.isValid, letter, all]
      rfl

theorem query_apart {component : Text} (coded : Coded isQueryChar component) :
    ∀ char ∈ component, inQuery char = true := by
  have apart : ∀ char, isQueryChar (toInt char) = true ∨ char = byte '%' ∨ isXdigit (toInt char) = true →
      inQuery char = true := by
    apply octet_forall
    decide
  exact fun char member => apart char (coded.chars char member)

theorem path_apart {path : Text} (coded : Coded isPathChar path) : ∀ char ∈ path, inPath char = true := by
  have apart : ∀ char, isPathChar (toInt char) = true ∨ char = byte '%' ∨ isXdigit (toInt char) = true →
      inPath char = true := by
    apply octet_forall
    decide
  exact fun char member => apart char (coded.chars char member)

theorem apart_reference : Uri.Apart reference.path reference.query where
  path := path_apart reference.coded
  query chars some := query_apart (reference.queried chars some).2

theorem tail_ends : reference.tail = [] ∨ ∃ stop more, reference.tail = stop :: more ∧ inPath stop = false :=
  Uri.tailText_ends reference.query reference.fragment

theorem marked_coded {component : Option Text} (valid : ∀ chars ∈ component, chars ≠ [] ∧ Coded isQueryChar chars) :
    ∃ decoded, Uri.Marked component decoded := by
  cases component with
  | none => exact ⟨[], Uri.marked_none.2 rfl⟩
  | some component =>
      obtain ⟨filled, coded⟩ := valid component rfl
      obtain ⟨decoded, found⟩ := coded.decoded isQueryChar_keeps (by decide)
      exact ⟨decoded, Uri.marked_some.2 ⟨filled, found⟩⟩

/-- The path, the query and the fragment of a reference are valid. -/
theorem tail_reference : ∃ decoded query fragment,
    Uri.TailRead ⟨none, none, reference.path, reference.query, reference.fragment⟩ decoded query fragment := by
  obtain ⟨decoded, found⟩ := reference.coded.decoded isPathChar_keeps (by decide)
  obtain ⟨query, first⟩ := marked_coded reference.queried
  obtain ⟨fragment, second⟩ := marked_coded reference.named
  exact ⟨decoded, query, fragment, UriPath.isValid_coded reference.coded reference.single, found, first, second⟩

/-- The scheme of a reference with its colon. -/
def schemeText : Option Text → Text
  | none => []
  | some scheme => scheme ++ [byte ':']

/-- The text behind the scheme. -/
def hierarchy : Text :=
  marked (text "//") (reference.authority.map fun authority => authority.parts.text) ++
    (reference.path ++ reference.tail)

theorem string_hierarchy : reference.string = schemeText reference.scheme ++ reference.hierarchy := by
  rw [string, hierarchy]
  simp only [List.append_assoc]
  rfl

/-- What follows the scheme of a reference is accepted. -/
theorem readHierarchy_reference {uri : Uri} (bare : Uri.Bare uri) (unset : uri.userinfo = [] ∧ uri.port = []) :
    ∃ later, Uri.readHierarchy uri reference.hierarchy = .ok later := by
  obtain ⟨decoded, query, fragment, tail⟩ := reference.tail_reference
  rw [hierarchy]
  cases present : reference.authority with
  | none => exact ⟨_, Uri.readHierarchy_path bare reference.apart_reference reference.single tail⟩
  | some authority =>
      obtain ⟨given, gives⟩ := authority.gives
      exact ⟨_, Uri.readHierarchy_authority bare reference.apart_reference reference.single tail unset gives
        (reference.rooted (by rw [present]; rfl))⟩

/-- A string begins like a scheme when a colon comes before any slash. -/
theorem beginsWithScheme_colon (string : Text) :
    Uri.beginsWithScheme string = true ↔ byte ':' ∈ string.takeWhile (· != byte '/') := by
  rw [Uri.beginsWithScheme_iff]
  constructor
  · rintro ⟨word, rest, rfl, -, slash⟩
    have all : ∀ char ∈ word, (char != byte '/') = true := by
      intro char member
      rw [bne_iff_ne]
      rintro rfl
      exact slash member
    rw [List.takeWhile_append_of_pos all, List.takeWhile_cons, if_pos (by decide)]
    simp
  · intro colon
    obtain ⟨word, rest, shape, none⟩ := List.eq_append_cons_of_mem colon
    have whole := @List.takeWhile_append_dropWhile _ (· != byte '/') string
    refine ⟨word, rest ++ string.dropWhile (· != byte '/'), ?_, none, fun member => ?_⟩
    · conv_lhs => rw [← whole, shape]
      simp
    · have inside : byte '/' ∈ string.takeWhile (· != byte '/') := by
        rw [shape]
        exact List.mem_append_left _ member
      have other := List.all_eq_true.1 List.all_takeWhile _ inside
      exact absurd other (by decide)

theorem takeWhile_path {path tail : Text} :
    byte '/' ∈ path ∧ (path ++ tail).takeWhile (· != byte '/') = path.takeWhile (· != byte '/') ∨
      byte '/' ∉ path ∧ (path ++ tail).takeWhile (· != byte '/') = path ++ tail.takeWhile (· != byte '/') := by
  by_cases slash : byte '/' ∈ path
  · obtain ⟨word, rest, rfl, none⟩ := List.eq_append_cons_of_mem slash
    rw [List.append_assoc, List.cons_append, Uri.takeWhile_before none, Uri.takeWhile_before none]
    exact .inl ⟨slash, rfl⟩
  · refine .inr ⟨slash, List.takeWhile_append_of_pos fun char member => ?_⟩
    rw [bne_iff_ne]
    rintro rfl
    exact slash member

/-- A reference without a scheme is taken for one with a scheme exactly when it is misleading. -/
theorem noScheme_iff (none : reference.scheme = none) : Uri.NoScheme reference.string ↔ ¬ reference.Misleading := by
  rw [string_hierarchy, none, schemeText, List.nil_append, hierarchy, Uri.NoScheme, Bool.and_eq_false_iff]
  cases present : reference.authority with
  | some authority =>
      refine iff_of_true (.inl rfl) fun misleading => ?_
      have absent := misleading.authority
      rw [present] at absent
      cases absent
  | none =>
      have apart := reference.apart none (by rw [present]; rfl)
      change (reference.path ++ reference.tail).head?.any inAuthority = false ∨
        Uri.beginsWithScheme (reference.path ++ reference.tail) = false ↔ _
      rw [← Bool.not_eq_true (Uri.beginsWithScheme _), beginsWithScheme_colon]
      cases path : reference.path with
      | nil =>
          refine iff_of_true (.inl ?_) fun misleading => misleading.filled path
          have less : ∀ char, inPath char = false → inAuthority char = false := by
            apply octet_forall
            decide
          obtain empty | ⟨stop, more, shape, refused⟩ := reference.tail_ends
          · rw [empty]
            rfl
          · rw [shape]
            exact less stop refused
      | cons first others =>
          rw [path] at apart
          have inside := path_apart reference.coded first (by rw [path]; exact List.mem_cons_self)
          obtain ⟨slash, taken⟩ | ⟨slash, taken⟩ := @takeWhile_path (first :: others) reference.tail
          · rw [taken]
            refine iff_of_true (.inr apart) fun misleading => misleading.segment ?_
            rw [path]
            exact slash
          · have accepted : inAuthority first = true := by
              have more : ∀ char, inPath char = true → char ≠ byte '/' → inAuthority char = true := by
                apply octet_forall
                decide
              exact more first inside fun same => slash (by rw [same]; exact List.mem_cons_self)
            rw [Uri.takeWhile_other slash] at apart
            rw [taken, List.mem_append, not_or, List.cons_append, List.head?_cons, Option.any_some, accepted]
            constructor
            · rintro (wrong | ⟨-, absent⟩) misleading
              · cases wrong
              · exact absent misleading.colon
            · intro plain
              refine .inr ⟨apart, fun colon => plain ⟨none, by rw [present]; rfl, ?_, ?_, colon⟩⟩
              · rw [path]
                exact List.cons_ne_nil _ _
              · rw [path]
                exact slash

/-- A misleading reference has no valid scheme. -/
theorem misleading_refused (misleading : reference.Misleading) (uri : Uri) : Uri.read reference.string ≠ .ok uri := by
  intro read
  have absent : reference.authority = none := by
    cases shape : reference.authority with
    | none => rfl
    | some authority =>
        have none := misleading.authority
        rw [shape] at none
        cases none
  have whole : reference.string = reference.path ++ reference.tail := by
    rw [string_hierarchy, misleading.scheme, schemeText, List.nil_append, hierarchy, absent]
    rfl
  have begins : (reference.string.head?.any inAuthority && Uri.beginsWithScheme reference.string) = true := by
    rw [← Bool.not_eq_false]
    exact fun plain => (reference.noScheme_iff misleading.scheme).1 plain misleading
  rw [Uri.read, if_pos begins] at read
  obtain ⟨scheme, set, -⟩ := ok_of_bind read
  have letters := (scheme_word set).2.2
  obtain empty | ⟨stop, more, shape, refused⟩ := reference.tail_ends
  · have colon := misleading.colon
    rw [empty] at colon
    cases colon
  · have marks : ∀ char, inPath char = false → inScheme char = false ∧ (char != byte ':') = true := by
      apply octet_forall
      decide
    have colon : byte ':' ∉ reference.path := by
      have plain := reference.apart misleading.scheme misleading.authority
      rwa [Uri.takeWhile_other misleading.segment] at plain
    have taken : stop ∈ reference.string.takeWhile (· != byte ':') := by
      have all : ∀ char ∈ reference.path, (char != byte ':') = true := by
        intro char member
        rw [bne_iff_ne]
        rintro rfl
        exact colon member
      rw [whole, shape, List.takeWhile_append_of_pos all, List.takeWhile_cons, if_pos (marks stop refused).2]
      simp
    exact absurd (letters stop taken) (by rw [(marks stop refused).1]; decide)

/-- A reference is accepted exactly when it is not misleading. -/
theorem parse_reference_iff (reference : Reference) :
    (∃ uri, Uri.parse reference.string = .ok uri) ↔ ¬ reference.Misleading := by
  simp only [Uri.parse_read]
  cases scheme : reference.scheme with
  | none =>
      constructor
      · rintro ⟨uri, read⟩ misleading
        exact reference.misleading_refused misleading uri read
      · intro plain
        obtain ⟨later, read⟩ := reference.readHierarchy_reference Uri.bare_empty ⟨rfl, rfl⟩
        refine ⟨later, ?_⟩
        rw [Uri.read_plain ((reference.noScheme_iff scheme).2 plain), string_hierarchy, scheme, schemeText,
          List.nil_append, read]
  | some word =>
      refine iff_of_true ?_ fun misleading => ?_
      · have set := word_set (reference.word word scheme)
        have shape : reference.string = word ++ byte ':' :: reference.hierarchy := by
          rw [string_hierarchy, scheme, schemeText, List.append_assoc, List.singleton_append]
        obtain ⟨later, read⟩ := reference.readHierarchy_reference
          (Uri.bare_empty.frame word [] [] []) ⟨rfl, rfl⟩
        exact ⟨later, by rw [shape, Uri.read_scheme set]; exact read⟩
      · rw [misleading.scheme] at scheme
        cases scheme

/-- A single segment with a query that is a colon. -/
def colonQuery : Reference where
  scheme := none
  authority := none
  path := text "a"
  query := some (text ":")
  fragment := none
  word := by simp
  coded := .plain (by decide) .nothing
  single := by decide
  rooted := by simp
  apart := by decide
  queried chars some := by
    cases some
    exact ⟨by decide, .plain (by decide) .nothing⟩
  named := by simp

/-- A colon in a query is taken for the end of a scheme. -/
theorem parse_reference_colon : ¬ ∀ reference : Reference, ∃ uri, Uri.parse reference.string = .ok uri := by
  intro holds
  obtain ⟨uri, accepted⟩ := holds colonQuery
  rw [Uri.parse_read] at accepted
  exact colonQuery.misleading_refused ⟨rfl, rfl, by decide, by decide, by decide⟩ uri accepted

end Reference

end SimpleNFast.Http
