import SimpleNFast.Proof.Http.UriParts

set_option maxRecDepth 100000

namespace SimpleNFast.Http

namespace Components

theorem scheme_apart : ∀ char, (isAlpha (toInt char) || isDigit (toInt char) || toInt char ∈ "+-.".toList.map code) = true →
    inScheme char = true := by
  apply octet_forall
  decide

theorem alpha_apart : ∀ char, isAlpha (toInt char) = true → inScheme char = true := by
  apply octet_forall
  decide

/-- A valid scheme is not empty, and it has no mark. -/
theorem scheme_word {word scheme : Text} (set : UriScheme.set word = .ok scheme) :
    word = scheme ∧ word ≠ [] ∧ ∀ char ∈ word, inScheme char = true := by
  rw [UriScheme.set] at set
  split at set
  · rename_i valid
    cases set
    cases word with
    | nil => cases valid
    | cons first rest =>
        rw [UriScheme.isValid, Bool.and_eq_true, List.all_eq_true] at valid
        refine ⟨rfl, List.cons_ne_nil _ _, ?_⟩
        rw [List.forall_mem_cons]
        exact ⟨alpha_apart first valid.1, fun char member => scheme_apart char (valid.2 char member)⟩
  · cases set

theorem split_word {word rest : Text} (filled : word ≠ []) (plain : ∀ char ∈ word, inScheme char = true) :
    split (word ++ byte ':' :: rest) = ofHierarchy (some word) rest := by
  have taken : (word ++ byte ':' :: rest).takeWhile inScheme = word := takeWhile_stop plain (by decide) rest
  have behind : (word ++ byte ':' :: rest).dropWhile inScheme = byte ':' :: rest := by
    rw [← Uri.drop_takeWhile, taken, List.drop_left]
  obtain ⟨first, more, rfl⟩ := List.exists_cons_of_ne_nil filled
  rw [split, taken, behind]
  simp

/-- The parser sees a scheme wherever a string has one. -/
theorem split_plain {string : Text} (plain : Uri.NoScheme string) : split string = ofHierarchy none string := by
  rw [split]
  have whole := @List.takeWhile_append_dropWhile _ inScheme string
  split
  · rename_i first word mark rest taken behind
    split
    · rename_i colon
      rw [beq_iff_eq] at colon
      subst colon
      have inside : ∀ char ∈ first :: word, inScheme char = true := by
        intro char member
        rw [← taken] at member
        exact List.all_eq_true.1 List.all_takeWhile char member
      rw [taken, behind] at whole
      have apart : ∀ char, inScheme char = true → char ≠ byte ':' ∧ char ≠ byte '/' ∧ inAuthority char = true := by
        apply octet_forall
        decide
      have begins : Uri.beginsWithScheme string = true :=
        (Uri.beginsWithScheme_iff string).2 ⟨first :: word, rest, whole.symm,
          fun member => (apart _ (inside _ member)).1 rfl, fun member => (apart _ (inside _ member)).2.1 rfl⟩
      have accepted := (apart first (inside first List.mem_cons_self)).2.2
      rw [Uri.NoScheme, begins, ← whole, List.cons_append, List.head?_cons, Option.any_some, accepted] at plain
      cases plain
    · rfl
  · rfl

/-- The parser reads the hierarchy behind the scheme of the string. -/
theorem split_read {string : Text} {uri : Uri} (read : Uri.read string = .ok uri) :
    ∃ scheme rest, split string = ofHierarchy scheme rest ∧
      Uri.readHierarchy { Uri.empty with scheme := scheme.getD [] } rest = .ok uri := by
  rw [Uri.read] at read
  split at read
  · rename_i begins
    rw [Bool.and_eq_true] at begins
    obtain ⟨word, rest, rfl, colon, -⟩ := (Uri.beginsWithScheme_iff string).1 begins.2
    obtain ⟨scheme, set, read⟩ := ok_of_bind read
    rw [Uri.takeWhile_before colon] at set
    rw [Uri.dropWhile_before colon] at read
    obtain ⟨rfl, filled, plain⟩ := scheme_word set
    exact ⟨some word, rest, split_word filled plain, read⟩
  · rename_i plain
    exact ⟨none, string, split_plain (by simpa [Uri.NoScheme] using plain), read⟩

end Components

/-- A text before a slash or the end adds characters to what is decoded. -/
theorem decodeKeeping_longer {keeps : Int → Bool} {before after whole decoded : Text} (filled : before ≠ [])
    (ends : after = [] ∨ after.head? = some (byte '/'))
    (first : decodeKeeping keeps (before ++ after) = some whole) (second : decodeKeeping keeps after = some decoded) :
    decoded.length < whole.length := by
  induction length : before.length using Nat.strong_induction_on generalizing before whole with
  | _ bound inductionHypothesis =>
      obtain ⟨char, before, rfl⟩ := List.exists_cons_of_ne_nil filled
      have behind {rest more : Text} (shorter : rest.length < bound)
          (found : decodeKeeping keeps (rest ++ after) = some more) : decoded.length ≤ more.length := by
        by_cases none : rest = []
        · subst none
          rw [List.nil_append, second] at found
          cases found
          exact le_rfl
        · exact (inductionHypothesis rest.length shorter none found rfl).le
      have shorter : before.length < bound := by rw [← length, List.length_cons]; exact Nat.lt_succ_self _
      rw [List.cons_append] at first
      cases kept : keeps (toInt char) with
      | true =>
          rw [decodeKeeping_kept kept] at first
          obtain ⟨more, found, rfl⟩ := Option.map_eq_some_iff.1 first
          exact Nat.lt_succ_of_le (behind shorter found)
      | false =>
          have outside {digit : UInt8} (hexadecimal : isXdigit (toInt digit) = true) : digit ≠ byte '/' := by
            rintro rfl
            exact absurd hexadecimal (by decide)
          have escape {one two : UInt8} {rest : Text} (found : decodeKeeping keeps (char :: one :: two :: rest) = some whole) :
              isXdigit (toInt one) = true ∧ isXdigit (toInt two) = true ∧
                ∃ more, decodeKeeping keeps rest = some more ∧ whole.length = more.length + 1 := by
            rw [decodeKeeping_escape kept] at found
            split at found
            · rename_i escaped
              simp only [uriPercentEncoded, Bool.and_eq_true] at escaped
              obtain ⟨more, read, rfl⟩ := Option.map_eq_some_iff.1 found
              exact ⟨escaped.1.2, escaped.2, more, read, rfl⟩
            · cases found
          cases before with
          | nil =>
              cases after with
              | nil =>
                  rw [List.append_nil, decodeKeeping.eq_def] at first
                  simp [kept] at first
              | cons slash after =>
                  cases after with
                  | nil =>
                      rw [List.nil_append, decodeKeeping.eq_def] at first
                      simp [kept] at first
                  | cons one after =>
                      obtain ⟨digit, -, -⟩ := escape first
                      obtain none | same := ends
                      · cases none
                      · exact absurd (Option.some.inj same) (outside digit)
          | cons one before =>
              cases before with
              | nil =>
                  cases after with
                  | nil =>
                      rw [List.append_nil, decodeKeeping.eq_def] at first
                      simp [kept] at first
                  | cons slash after =>
                      obtain ⟨-, digit, -⟩ := escape first
                      obtain none | same := ends
                      · cases none
                      · exact absurd (Option.some.inj same) (outside digit)
              | cons two before =>
                  obtain ⟨-, -, more, found, longer⟩ := escape first
                  have bound := behind (by simp only [List.length_cons] at shorter; omega) found
                  omega

namespace Uri

open Components

variable {uri later : Uri} {rest : Text}

theorem takeWhile_all {few many : UInt8 → Bool} (less : ∀ char, few char = true → many char = true) (rest : Text) :
    rest.takeWhile many = rest.takeWhile few ++ (rest.dropWhile few).takeWhile many := by
  conv_lhs => rw [← @List.takeWhile_append_dropWhile _ few rest]
  exact List.takeWhile_append_of_pos fun char member => less char (List.all_eq_true.1 List.all_takeWhile char member)

/-- The path that is read last is the end of the path of the string. -/
theorem readAuthorities_path {count : Nat} (bare : Bare uri) (enough : rest.length < count)
    (read : readAuthorities count uri rest = .ok later) :
    ∃ taken path decoded, rest.takeWhile inPath = taken ++ path ∧
      (taken = [] ∨ path = [] ∨ path.head? = some (byte '/')) ∧ (text "//" <+: rest → taken ≠ []) ∧
      decodeKeeping UriPath.keeps path = some decoded ∧ later.path = UriPath.normal decoded := by
  induction count generalizing uri rest with
  | zero => exact absurd enough (Nat.not_lt_zero _)
  | succ count inductionHypothesis =>
      rw [readAuthorities] at read
      by_cases begins : text "//" <+: rest
      · obtain ⟨rest, rfl⟩ := begins
        rw [cut_some] at read
        obtain ⟨named, authority, read⟩ := ok_of_bind read
        obtain ⟨userinfo, host, port, rfl⟩ := readAuthority_frame authority
        have shorter := List.length_dropWhile_le inAuthority rest
        rw [List.length_append] at enough
        have long : (text "//").length = 2 := by decide
        obtain ⟨taken, path, decoded, shape, ends, -, found, same⟩ :=
          inductionHypothesis (bare.frame uri.scheme userinfo host port) (by omega) read
        have less : ∀ char, inAuthority char = true → inPath char = true := by
          apply octet_forall
          decide
        have slashes : (text "//").all inPath = true := by decide
        have whole : (text "//" ++ rest).takeWhile inPath =
            text "//" ++ rest.takeWhile inAuthority ++ taken ++ path := by
          rw [List.takeWhile_append_of_pos (List.all_eq_true.1 slashes), takeWhile_all less rest, shape,
            List.append_assoc, List.append_assoc]
        refine ⟨text "//" ++ rest.takeWhile inAuthority ++ taken, path, decoded, whole, .inr ?_, fun _ => ?_, found, same⟩
        · obtain rfl | after := ends
          · rw [List.nil_append] at shape
            obtain none | ⟨first, more, behind, refused⟩ := dropWhile_cases inAuthority rest
            · rw [none] at shape
              exact .inl shape.symm
            · rw [behind, List.takeWhile_cons] at shape
              cases accepted : inPath first with
              | false =>
                  rw [accepted, if_neg Bool.false_ne_true] at shape
                  exact .inl shape.symm
              | true =>
                  have slash : ∀ char, inPath char = true → inAuthority char = false → char = byte '/' := by
                    apply octet_forall
                    decide
                  rw [accepted, if_pos rfl] at shape
                  rw [← shape, slash first accepted refused]
                  exact .inr rfl
          · exact after
        · intro none
          exact absurd (congrArg List.length none) (by simp only [List.length_append, List.length_nil]; omega)
      · have single : (text "//").isPrefixOf rest = false := by
          rw [Bool.eq_false_iff, Ne, List.isPrefixOf_iff_prefix]
          exact begins
        rw [cut_none single] at read
        obtain ⟨decoded, query, fragment, tail, rfl⟩ := (readTail_ok bare).1 read
        exact ⟨[], _, decoded, rfl, .inl rfl, fun prefixed => absurd prefixed begins, tail.path, rfl⟩

theorem readHierarchy_single (single : ¬ text "//" <+: rest) : readHierarchy uri rest = readTail uri (ofTail rest) := by
  have other : (text "//").isPrefixOf rest = false := by
    rw [Bool.eq_false_iff, Ne, List.isPrefixOf_iff_prefix]
    exact single
  rw [readHierarchy, readAuthorities, cut_none other]

theorem readHierarchy_double (uri : Uri) (rest : Text) :
    readHierarchy uri (text "//" ++ rest) = (readAuthority uri (rest.takeWhile inAuthority)).bind fun named =>
      readAuthorities (rest.length + 2) named (rest.dropWhile inAuthority) := by
  have long : (text "//" ++ rest).length = rest.length + 2 := by
    rw [List.length_append, Nat.add_comm]
    rfl
  rw [readHierarchy, readAuthorities, cut_some, long]
  rfl

theorem ofHierarchy_single (scheme : Option Text) (single : ¬ text "//" <+: rest) :
    ofHierarchy scheme rest = { ofTail rest with scheme, authority := none } := by
  have other : (text "//").isPrefixOf rest = false := by
    rw [Bool.eq_false_iff, Ne, List.isPrefixOf_iff_prefix]
    exact single
  rw [ofHierarchy, cut_none other]

theorem ofHierarchy_double (scheme : Option Text) (rest : Text) :
    ofHierarchy scheme (text "//" ++ rest) =
      { ofTail (rest.dropWhile inAuthority) with scheme, authority := some (rest.takeWhile inAuthority) } := by
  rw [ofHierarchy, cut_some]

theorem behindBracket_before {before : Text} (none : byte ']' ∉ before) (rest : Text) :
    behindBracket (before ++ byte ']' :: rest) = rest := by
  rw [behindBracket, dropWhile_before none]
  rfl

theorem behindBracket_none {authority : Text} (none : byte ']' ∉ authority) : behindBracket authority = [] := by
  rw [behindBracket, ← drop_takeWhile, takeWhile_other none, List.drop_length, List.drop_nil]

theorem userText_bracket {parts : AuthorityParts} (gives : parts.Gives uri) : byte ']' ∉ userText parts.userinfo := by
  obtain ⟨none, -⟩ | ⟨userinfo, some, -, set⟩ := gives.userinfo
  · rw [none]
    exact List.not_mem_nil
  · have apart : ∀ char, UriUserinfo.keeps (toInt char) = true ∨ char = byte '%' ∨ isXdigit (toInt char) = true →
        char ≠ byte ']' := by
      apply octet_forall
      decide
    rw [some, userText, List.mem_append, List.mem_singleton, not_or]
    exact ⟨fun member => apart _ (decodeKeeping_chars (decodeOrThrow_ok.1 set) _ member) rfl, by decide⟩

theorem portText_bracket {parts : AuthorityParts} (gives : parts.Gives uri) : byte ']' ∉ portText parts.port := by
  obtain ⟨none, -⟩ | ⟨port, some, set⟩ := gives.port
  · rw [none]
    exact List.not_mem_nil
  · have other : ∀ char, isDigit (toInt char) = true → char ≠ byte ']' := by
      apply octet_forall
      decide
    rw [some, portText, List.mem_cons, not_or]
    exact ⟨by decide, fun member => other _ ((UriPort.set_ok.1 set).1.1.2 _ member) rfl⟩

/-- Behind the bracket of an authority comes what follows its host, and a host without brackets has none. -/
theorem behindBracket_parts {parts : AuthorityParts} (gives : parts.Gives uri) (extra : Text) :
    parts.host.head? = some (byte '[') ∧ behindBracket (parts.text ++ extra) = portText parts.port ++ extra ∨
      parts.host.head? ≠ some (byte '[') ∧ behindBracket parts.text = [] := by
  rw [parts_text]
  obtain ⟨shape, accepted, -⟩ | ⟨filled, decoded⟩ := UriHost.set_iff.1 gives.host
  · rename_i inner
    left
    have whole : userText parts.userinfo ++ (parts.host ++ portText parts.port) ++ extra =
        (userText parts.userinfo ++ byte '[' :: inner) ++ byte ']' :: (portText parts.port ++ extra) := by
      rw [shape]
      simp
    refine ⟨by rw [shape]; rfl, ?_⟩
    rw [whole, behindBracket_before]
    rw [List.mem_append, List.mem_cons, not_or, not_or]
    exact ⟨userText_bracket gives, by decide, fun member => (address_apart _ (inetPton6_chars accepted _ member)).2.1 rfl⟩
  · right
    refine ⟨UriHost.regular_begins decoded, behindBracket_none ?_⟩
    rw [List.mem_append, List.mem_append, not_or, not_or]
    exact ⟨userText_bracket gives, fun member => (regular_apart _ (decodeKeeping_chars decoded _ member)).2.2.1 rfl,
      portText_bracket gives⟩

/-- An authority that is read consists of its parts when a bracket ends it or a port follows the bracket. -/
theorem authority_iff (unset : uri.userinfo = [] ∧ uri.port = []) {authority : Text}
    (read : readAuthority uri authority = .ok later) :
    (∃ parts : AuthorityParts, authority = parts.text ∧ parts.Gives later) ↔
      (behindBracket authority = [] ∨ (behindBracket authority).head? = some (byte ':')) := by
  constructor
  · rintro ⟨parts, rfl, gives⟩
    have ends := behindBracket_parts gives []
    rw [List.append_nil, List.append_nil] at ends
    obtain ⟨-, behind⟩ | ⟨-, behind⟩ := ends
    · rw [behind]
      exact portText_ends parts.port
    · exact .inl behind
  · intro ends
    obtain ⟨parts, extra, rfl, gives, rest⟩ := readAuthority_parts unset read
    obtain rfl | ⟨bracket, none, other⟩ := rest
    · exact ⟨parts, List.append_nil _, gives⟩
    · obtain ⟨-, behind⟩ | ⟨different, -⟩ := behindBracket_parts gives extra
      · rw [behind, none, portText, List.nil_append] at ends
        obtain rfl | colon := ends
        · exact ⟨parts, List.append_nil _, gives⟩
        · exact absurd colon other
      · exact absurd bracket different

/-- A string that is accepted is divided as RFC 3986 divides it exactly when its authority and its path are apart. -/
theorem split_gives_iff (string : Text) (uri : Uri) (accepted : Uri.parse string = .ok uri) :
    (Components.split string).Gives uri ↔ (Components.split string).Separate := by
  rw [parse_read] at accepted
  obtain ⟨scheme, rest, shape, read⟩ := split_read accepted
  rw [shape]
  by_cases double : text "//" <+: rest
  · obtain ⟨rest, rfl⟩ := double
    rw [readHierarchy_double] at read
    obtain ⟨named, authority, read⟩ := ok_of_bind read
    obtain ⟨userinfo, host, port, rfl⟩ := readAuthority_frame authority
    rw [ofHierarchy_double]
    by_cases again : text "//" <+: rest.dropWhile inAuthority
    · -- A path that begins with two slashes is taken for another authority, so it is not the path of the URI.
      have shorter := List.length_dropWhile_le inAuthority rest
      refine iff_of_false (fun gives => ?_) fun separate => ?_
      · obtain ⟨taken, path, decoded, parts, ends, filled, found, same⟩ :=
          readAuthorities_path (bare_empty.frame (scheme.getD []) userinfo host port) (by omega) read
        obtain ⟨whole, first, equal⟩ := gives.path
        have longer := decodeKeeping_longer (filled again) (ends.resolve_left (filled again)) (by
          rw [← parts]
          exact first) found
        rw [same] at equal
        exact absurd (congrArg (fun path => path.path.length) equal) longer.ne
      · obtain ⟨more, behind⟩ := again
        have begins := separate.path
        change (text "//").isPrefixOf ((rest.dropWhile inAuthority).takeWhile inPath) = false at begins
        have slashes : (text "//").all inPath = true := by decide
        rw [← behind, List.takeWhile_append_of_pos (List.all_eq_true.1 slashes),
          List.isPrefixOf_iff_prefix.2 (List.prefix_append _ _)] at begins
        cases begins
    · have single : (text "//").isPrefixOf (rest.dropWhile inAuthority) = false := by
        rw [Bool.eq_false_iff, Ne, List.isPrefixOf_iff_prefix]
        exact again
      rw [readAuthorities, cut_none single] at read
      obtain ⟨decoded, query, fragment, tail, rfl⟩ :=
        (readTail_ok (bare_empty.frame (scheme.getD []) userinfo host port)).1 read
      have first : ¬ text "//" <+: (rest.dropWhile inAuthority).takeWhile inPath := fun begins =>
        again (begins.trans ( List.takeWhile_prefix _))
      have path : (text "//").isPrefixOf ((rest.dropWhile inAuthority).takeWhile inPath) = false := by
        rw [Bool.eq_false_iff, Ne, List.isPrefixOf_iff_prefix]
        exact first
      have parts := authority_iff ⟨rfl, rfl⟩ authority
      constructor
      · intro gives
        refine ⟨path, ?_⟩
        rintro given ⟨⟩
        obtain ⟨found, same, user⟩ := gives.authority
        exact parts.1 ⟨found, same, ⟨user.userinfo, user.host, user.port⟩⟩
      · intro separate
        obtain ⟨found, same, user⟩ := parts.2 (separate.authority _ rfl)
        exact ⟨rfl, ⟨found, same, ⟨user.userinfo, user.host, user.port⟩⟩, ⟨decoded, tail.path, rfl⟩, tail.query.2,
          tail.fragment.2⟩
  · rw [readHierarchy_single double] at read
    obtain ⟨decoded, query, fragment, tail, rfl⟩ :=
      (readTail_ok (bare_empty.frame (scheme.getD []) [] [] [])).1 read
    rw [ofHierarchy_single scheme double]
    refine iff_of_true ?_ ⟨?_, fun _ given => by cases given⟩
    · exact ⟨rfl, ⟨rfl, rfl, rfl⟩, ⟨decoded, tail.path, rfl⟩, tail.query.2, tail.fragment.2⟩
    · rw [Bool.eq_false_iff, Ne, List.isPrefixOf_iff_prefix]
      exact fun begins => double (begins.trans ( List.takeWhile_prefix _))

theorem split_gives_host :
    (Components.split (text "//a")).Gives { Uri.empty with host := text "a" } ↔ (Components.split (text "//a")).Separate :=
  split_gives_iff (text "//a") { Uri.empty with host := text "a" } (by decide)

/-- A path that begins with two slashes changes the host. -/
theorem split_gives_path : ¬ ∀ string uri, Uri.parse string = .ok uri → (Components.split string).Gives uri := by
  intro holds
  have parsed : Uri.parse (text "//a//b") = .ok { Uri.empty with host := text "b" } := by decide
  obtain ⟨decoded, found, same⟩ := (holds _ _ parsed).path
  have path : decodeKeeping UriPath.keeps (Components.split (text "//a//b")).path = some (text "//b") := by decide
  rw [path, Option.some.injEq] at found
  have text : decoded = [] := (congrArg UriPath.path same).symm
  rw [text] at found
  cases found

end Uri

end SimpleNFast.Http
