import SimpleNFast.Proof.Http.UriEncoding
import SimpleNFast.Proof.Http.UriJoining

set_option maxRecDepth 100000

namespace SimpleNFast.Http

/-- A text without a percent sign is decoded to itself. -/
theorem decodeKeeping_plain {keeps : Int → Bool} {string decoded : Text} (plain : byte '%' ∉ string)
    (found : decodeKeeping keeps string = some decoded) :
    decoded = string ∧ ∀ char ∈ string, keeps (toInt char) = true := by
  fun_induction decodeKeeping keeps string generalizing decoded with
  | case1 =>
      cases found
      exact ⟨rfl, by simp⟩
  | case2 char rest kept inductionHypothesis =>
      obtain ⟨tail, read, rfl⟩ := Option.map_eq_some_iff.1 found
      rw [List.mem_cons, not_or] at plain
      obtain ⟨rfl, all⟩ := inductionHypothesis plain.2 read
      exact ⟨rfl, List.forall_mem_cons.2 ⟨kept, all⟩⟩
  | case3 char kept first second rest escaped inductionHypothesis =>
      simp only [uriPercentEncoded, Bool.and_eq_true, beq_iff_eq] at escaped
      rw [escaped.1.1] at plain
      exact absurd List.mem_cons_self plain
  | case4 => cases found
  | case5 => cases found

namespace UriPath

variable {path : Text}

/-- A path that is written in its decoded form. -/
structure Literal (path : Text) : Prop where
  chars : ∀ char ∈ path, keeps (toInt char) = true
  single : ¬ text "//" <:+: path

/-- A valid path without a percent sign has no slash after a slash. -/
theorem validLoop_plain {path : Text} {last : Int} (plain : byte '%' ∉ path) (valid : validLoop path last = true) :
    ¬ text "//" <:+: path ∧ (last = code '/' → path.head? ≠ some (byte '/')) := by
  induction path generalizing last with
  | nil => exact ⟨by decide, fun _ => by decide⟩
  | cons char path inductionHypothesis =>
      rw [List.mem_cons, not_or] at plain
      rw [slashes_cons, List.head?_cons, Ne, Option.some.injEq, not_or]
      rw [validLoop.eq_def] at valid
      dsimp only at valid
      split at valid
      · rename_i kept
        have other : ∀ char, (uriUnreservedCharacter (toInt char) || uriSubcomponentDelimiter (toInt char) ||
            toInt char ∈ "@:".toList.map code) = true → char ≠ byte '/' := by
          apply octet_forall
          decide
        exact ⟨⟨fun slash => other char kept slash.1, (inductionHypothesis plain.2 valid).1⟩, fun _ => other char kept⟩
      split at valid
      · rename_i slash
        rw [Bool.and_eq_true, beq_iff_eq, bne_iff_ne] at slash
        obtain ⟨rfl, different⟩ := slash
        obtain ⟨single, next⟩ := inductionHypothesis plain.2 valid
        exact ⟨⟨fun double => next (by decide) double.2, single⟩, fun same => absurd same different⟩
      split at valid
      · rw [Bool.and_eq_true] at valid
        simp only [uriPercentEncoded, Bool.and_eq_true, beq_iff_eq] at valid
        exact absurd valid.1.1.1.symm plain.1
      · cases valid

theorem isValid_plain {path : Text} (plain : byte '%' ∉ path) (valid : isValid path = true) : ¬ text "//" <:+: path := by
  rw [isValid, Bool.or_eq_true, Bool.or_eq_true, List.isEmpty_iff, beq_iff_eq] at valid
  obtain (rfl | rfl) | valid := valid
  · decide
  · decide
  · exact (validLoop_plain plain valid).1

/-- Only the last part of a path can be empty when there is no slash after a slash. -/
theorem parts_filled {last : Text} {others : List Text} (single : ¬ text "//" <:+: path)
    (begins : path.head? ≠ some (byte '/')) (shape : parts path = others ++ [last]) : ∀ part ∈ others, part ≠ [] := by
  induction others generalizing path with
  | nil => simp
  | cons first others inductionHypothesis =>
      by_cases member : byte '/' ∈ path
      · obtain ⟨segment, more, rfl, whole⟩ := List.eq_append_cons_of_mem member
        rw [parts_cons whole, List.cons_append, List.cons.injEq] at shape
        obtain ⟨rfl, shape⟩ := shape
        have doubled : text "//" = [byte '/', byte '/'] := rfl
        have next : more.head? ≠ some (byte '/') := by
          intro slash
          obtain ⟨rest, rfl⟩ : ∃ rest, more = byte '/' :: rest := by
            cases more with
            | nil => cases slash
            | cons char rest => exact ⟨rest, by simpa using slash⟩
          exact single ⟨segment, rest, by rw [doubled, List.append_assoc]; rfl⟩
        have inner : ¬ text "//" <:+: more := fun inside =>
          single (inside.trans ((List.suffix_cons _ _).isInfix.trans (List.suffix_append _ _).isInfix))
        rw [List.forall_mem_cons]
        refine ⟨fun none => ?_, inductionHypothesis inner next shape⟩
        subst none
        exact begins rfl
      · rw [parts_of_plain member, List.cons_append, List.cons.injEq] at shape
        exact absurd shape.2.symm (List.append_ne_nil_of_right_ne_nil _ (List.cons_ne_nil _ _))

theorem relative_parts (single : ¬ text "//" <:+: path) (begins : path.head? ≠ some (byte '/')) :
    ∃ others last, parts path = others ++ [last] ∧ (∀ segment ∈ others, Whole segment) ∧ byte '/' ∉ last := by
  obtain ⟨others, last, shape⟩ := parts_last path
  have filled := parts_filled single begins shape
  have whole := parts_whole path
  rw [shape] at whole
  exact ⟨others, last, shape, fun segment member => ⟨filled segment member, whole segment (by simp [member])⟩,
    whole last (by simp)⟩

theorem absolute_parts (single : ¬ text "//" <:+: path) (begins : path.head? = some (byte '/')) :
    ∃ rest others last, path = byte '/' :: rest ∧ parts rest = others ++ [last] ∧
      (∀ segment ∈ others, Whole segment) ∧ byte '/' ∉ last := by
  cases path with
  | nil => cases begins
  | cons first rest =>
      cases begins
      rw [slashes_cons, not_or] at single
      obtain ⟨others, last, shape, proper, whole⟩ := relative_parts single.2 fun slash => single.1 ⟨rfl, slash⟩
      exact ⟨rest, others, last, rfl, shape, proper, whole⟩

theorem filled_whole (path : Text) : ∀ segment ∈ UriPath.filled path, Whole segment := by
  intro segment member
  rw [UriPath.filled, List.mem_filter] at member
  exact ⟨by simpa using member.2, parts_whole path segment member.1⟩

theorem normal_whole (path : Text) : ∀ segment ∈ (normal path).segments, Whole segment := by
  rw [normal]
  dsimp only
  split
  · exact fun segment member => (remaining_inside path segment member).toWhole
  · exact filled_whole path

theorem normal_inside (path : Text) :
    (normal path).slashAtStart = true → ∀ segment ∈ (normal path).segments, Inside segment := by
  rw [normal]
  intro slash
  dsimp only at slash
  simp only [slash, if_true]
  exact remaining_inside path

theorem items_sublist (found : List Text) : (Move.items (found.map move)).Sublist found := by
  induction found with
  | nil => exact .slnil
  | cons first found inductionHypothesis =>
      rw [List.map_cons]
      cases named : move first with
      | stay => exact inductionHypothesis.cons first
      | up => exact inductionHypothesis.cons first
      | down item =>
          have same : item = first := by
            rw [move] at named
            split at named
            · cases named
            · split at named
              · cases named
              · exact (Move.down.inj named).symm
          subst same
          exact inductionHypothesis.cons_cons item

/-- The segments of a path are some of its parts. -/
theorem normal_sublist (path : Text) : (normal path).segments.Sublist (parts path) := by
  rw [normal]
  dsimp only
  split
  · exact (Move.left_sublist _).trans (items_sublist _)
  · exact List.filter_sublist

/-- The path of a URI has segments exactly when it is not empty. -/
theorem normal_component (path : Text) : (normal path).component = [] ↔ (normal path).segments = [] := by
  change segmentsToPath (normal path).segments (normal path).slashAtStart (normal path).slashAtEnd = [] ↔ _
  constructor
  · intro none
    by_contra filled
    have same := filled_segmentsToPath filled (normal_whole path) (normal path).slashAtStart (normal path).slashAtEnd
    rw [none] at same
    exact filled same.symm
  · intro none
    rw [none]
    rfl

theorem normal_segments (begins : path = [] ∨ path.head? = some (byte '/')) :
    (normal path).segments = remaining path := by
  obtain rfl | begins := begins
  · decide
  · have flag : (path.head? == some (byte '/')) = true := beq_iff_eq.2 begins
    rw [normal, flag]
    rfl

end UriPath

namespace Uri

open Components

/-- A URI that a string without percent signs gives. -/
structure Literal (uri : Uri) : Prop where
  scheme : uri.scheme = [] ∨ UriScheme.isValid uri.scheme = true
  userinfo : ∀ char ∈ uri.userinfo, UriUserinfo.keeps (toInt char) = true
  host : uri.host = [] ∧ uri.userinfo = [] ∧ uri.port = [] ∨ UriHost.Named uri.host uri.host
  port : uri.port = [] ∨ UriPort.Ranged uri.port
  normal : uri.path = UriPath.normal uri.path.path
  path : UriPath.Literal uri.path.path
  rooted : uri.host ≠ [] → uri.path.path = [] ∨ uri.path.path.head? = some (byte '/')
  query : ∀ char ∈ uri.query, componentKeeps (toInt char) = true
  fragment : ∀ char ∈ uri.fragment, componentKeeps (toInt char) = true

variable {uri later : Uri}

theorem literal_scheme {scheme : Text} (valid : scheme = [] ∨ UriScheme.isValid scheme = true) :
    Literal { empty with scheme } where
  scheme := valid
  userinfo := by simp [empty]
  host := .inl ⟨rfl, rfl, rfl⟩
  port := .inl rfl
  normal := rfl
  path := ⟨by simp [empty, UriPath.empty], fun inside => absurd inside (by change ¬ text "//" <:+: []; decide)⟩
  rooted := fun filled => absurd rfl filled
  query := by simp [empty]
  fragment := by simp [empty]

/-- A named host of a text without a percent sign is that text. -/
theorem named_plain {part host : Text} (plain : byte '%' ∉ part) (named : UriHost.Named part host) :
    host = part ∧ UriHost.Named host host := by
  cases named with
  | address shape accepted same =>
      subst same
      exact ⟨rfl, .address shape accepted rfl⟩
  | regular filled decoded =>
      obtain ⟨rfl, -⟩ := decodeKeeping_plain plain decoded
      exact ⟨rfl, .regular filled decoded⟩

theorem named_filled {part host : Text} (named : UriHost.Named part host) : part ≠ [] := by
  cases named with
  | address shape =>
      rw [shape]
      exact List.cons_ne_nil _ _
  | regular filled => exact filled

theorem readAddress_plain {authority rest : Text} (plain : byte '%' ∉ rest)
    (read : readAddress uri authority rest = .ok later) :
    ∃ host port, UriHost.Named host host ∧ (port = uri.port ∨ UriPort.Ranged port) ∧ later = { uri with host, port } := by
  obtain ⟨⟨host, after⟩, found, behind⟩ := ok_of_bind read
  obtain ⟨decoded, set, last⟩ := ok_of_bind behind
  obtain ⟨rfl, -⟩ := readHost_parts found
  rw [List.mem_append, not_or] at plain
  obtain ⟨rfl, named⟩ := named_plain plain.1 (UriHost.set_iff.1 set)
  obtain ⟨port, -, ranged, rfl⟩ | ⟨-, rfl⟩ := readPort_ok.1 last
  · exact ⟨decoded, port, named, .inr ranged, rfl⟩
  · exact ⟨decoded, uri.port, named, .inl rfl, rfl⟩

/-- An authority sets a host. -/
theorem readAuthority_literal (literal : Literal uri) (fresh : uri.path = .empty) {authority : Text}
    (plain : byte '%' ∉ authority) (read : readAuthority uri authority = .ok later) :
    Literal later ∧ later.host ≠ [] := by
  have unrooted : uri.path.path = [] := by
    rw [fresh]
    rfl
  have ranged {port : Text} (cases : port = uri.port ∨ UriPort.Ranged port) : port = [] ∨ UriPort.Ranged port := by
    obtain rfl | inside := cases
    · exact literal.port
    · exact .inr inside
  rw [readAuthority] at read
  split at read
  · obtain ⟨named, user, address⟩ := ok_of_bind read
    obtain ⟨userinfo, -, set, rfl⟩ := readUserinfo_ok.1 user
    have before : byte '%' ∉ authority.takeWhile (· != byte '@') := fun member =>
      plain ((List.takeWhile_prefix _).subset member)
    have behind : byte '%' ∉ (authority.dropWhile (· != byte '@')).drop 1 := fun member =>
      plain (((List.drop_suffix _ _).trans (List.dropWhile_suffix _)).subset member)
    obtain ⟨rfl, chars⟩ := decodeKeeping_plain before (decodeOrThrow_ok.1 set)
    obtain ⟨host, port, found, digits, rfl⟩ := readAddress_plain behind address
    exact ⟨{ literal with userinfo := chars, host := .inr found, port := ranged digits, rooted := fun _ => .inl unrooted },
      named_filled found⟩
  · obtain ⟨host, port, found, digits, rfl⟩ := readAddress_plain plain read
    exact ⟨{ literal with host := .inr found, port := ranged digits, rooted := fun _ => .inl unrooted },
      named_filled found⟩

theorem marked_plain {component : Option Text} {decoded : Text} (plain : ∀ chars ∈ component, byte '%' ∉ chars)
    (marked : Marked component decoded) :
    decoded = component.getD [] ∧ ∀ char ∈ decoded, componentKeeps (toInt char) = true := by
  cases component with
  | none =>
      rw [marked_none.1 marked]
      exact ⟨rfl, by simp⟩
  | some component =>
      obtain ⟨rfl, chars⟩ := decodeKeeping_plain (plain component rfl) (marked_some.1 marked).2
      exact ⟨rfl, chars⟩

theorem ofTail_plain {rest : Text} (plain : byte '%' ∉ rest) :
    byte '%' ∉ (ofTail rest).path ∧ (∀ chars ∈ (ofTail rest).query, byte '%' ∉ chars) ∧
      ∀ chars ∈ (ofTail rest).fragment, byte '%' ∉ chars := by
  have cut_plain {mark rest : Text} {accepts : UInt8 → Bool} (plain : byte '%' ∉ rest) :
      (∀ chars ∈ (cut mark accepts rest).1, byte '%' ∉ chars) ∧ byte '%' ∉ (cut mark accepts rest).2 := by
    rw [cut]
    split
    · refine ⟨fun chars same => ?_, fun member => ?_⟩
      · cases same
        exact fun member => plain ((List.drop_suffix _ _).subset ((List.takeWhile_prefix _).subset member))
      · exact plain (((List.dropWhile_suffix _).trans (List.drop_suffix _ _)).subset member)
    · exact ⟨by simp, plain⟩
  have behind : byte '%' ∉ rest.dropWhile inPath := fun member => plain ((List.dropWhile_suffix _).subset member)
  exact ⟨fun member => plain ((List.takeWhile_prefix _).subset member), (cut_plain behind).1,
    (cut_plain (cut_plain behind).2).1⟩

theorem readTail_literal (literal : Literal uri) (bare : Bare uri) {rest : Text} (plain : byte '%' ∉ rest)
    (ends : uri.host ≠ [] → ∀ char ∈ rest.head?, inAuthority char = false)
    (read : readTail uri (ofTail rest) = .ok later) : Literal later := by
  obtain ⟨decoded, query, fragment, tail, rfl⟩ := (readTail_ok bare).1 read
  obtain ⟨path, question, hash⟩ := ofTail_plain plain
  obtain ⟨rfl, chars⟩ := decodeKeeping_plain path tail.path
  refine { literal with
    normal := rfl
    path := ⟨chars, UriPath.isValid_plain path tail.valid⟩
    rooted := fun filled => ?_
    query := (marked_plain question tail.query).2
    fragment := (marked_plain hash tail.fragment).2 }
  change rest.takeWhile inPath = [] ∨ (rest.takeWhile inPath).head? = some (byte '/')
  cases rest with
  | nil => exact .inl rfl
  | cons first rest =>
      have refused := ends filled first rfl
      have slash : ∀ char, inAuthority char = false → inPath char = true → char = byte '/' := by
        apply octet_forall
        decide
      rw [List.takeWhile_cons]
      cases accepted : inPath first with
      | false => exact .inl rfl
      | true => exact .inr (congrArg some (slash first refused accepted))

/-- The authorities of a string give a host, and they leave the scheme. -/
theorem readAuthorities_literal {count : Nat} {rest : Text} (literal : Literal uri) (bare : Bare uri)
    (plain : byte '%' ∉ rest) (ends : uri.host ≠ [] → ∀ char ∈ rest.head?, inAuthority char = false)
    (enough : rest.length < count) (read : readAuthorities count uri rest = .ok later) :
    Literal later ∧ later.scheme = uri.scheme ∧ (later.host = [] → uri.host = [] ∧ ¬ text "//" <+: rest) := by
  induction count generalizing uri rest with
  | zero => exact absurd enough (Nat.not_lt_zero _)
  | succ count inductionHypothesis =>
      rw [readAuthorities] at read
      by_cases begins : text "//" <+: rest
      · obtain ⟨rest, rfl⟩ := begins
        rw [cut_some] at read
        obtain ⟨named, authority, read⟩ := ok_of_bind read
        have inner : byte '%' ∉ rest := fun member => plain (List.mem_append_right _ member)
        have taken : byte '%' ∉ rest.takeWhile inAuthority := fun member =>
          inner ((List.takeWhile_prefix _).subset member)
        have behind : byte '%' ∉ rest.dropWhile inAuthority := fun member =>
          inner ((List.dropWhile_suffix _).subset member)
        obtain ⟨given, filled⟩ := readAuthority_literal literal bare.path taken authority
        obtain ⟨userinfo, host, port, rfl⟩ := readAuthority_frame authority
        have shorter := List.length_dropWhile_le inAuthority rest
        have long : (text "//").length = 2 := by decide
        rw [List.length_append] at enough
        obtain ⟨last, scheme, kept⟩ := inductionHypothesis given (bare.frame uri.scheme userinfo host port) behind
          (fun _ char same => by
            obtain none | ⟨first, more, shape, refused⟩ := dropWhile_cases inAuthority rest
            · rw [none] at same
              cases same
            · rw [shape] at same
              cases same
              exact refused) (by omega) read
        exact ⟨last, scheme, fun none => absurd (kept none).1 filled⟩
      · have single : (text "//").isPrefixOf rest = false := by
          rw [Bool.eq_false_iff, Ne, List.isPrefixOf_iff_prefix]
          exact begins
        rw [cut_none single] at read
        have last := readTail_literal literal bare plain ends read
        obtain ⟨decoded, query, fragment, -, rfl⟩ := (readTail_ok bare).1 read
        exact ⟨last, rfl, fun none => ⟨none, begins⟩⟩

theorem readHierarchy_literal {scheme rest : Text} (valid : scheme = [] ∨ UriScheme.isValid scheme = true)
    (plain : byte '%' ∉ rest) (read : readHierarchy { empty with scheme } rest = .ok uri) :
    Literal uri ∧ uri.scheme = scheme ∧ (uri.host = [] → ¬ text "//" <+: rest) := by
  obtain ⟨literal, same, host⟩ := readAuthorities_literal (literal_scheme valid) (bare_empty.frame scheme [] [] []) plain
    (fun filled => absurd rfl filled) (Nat.lt_succ_self _) read
  exact ⟨literal, same, fun none => (host none).2⟩

/-- A string without percent signs gives a URI in its decoded form, and one without a scheme and a host is only a tail. -/
theorem read_parts {string : Text} (plain : byte '%' ∉ string) (read : Uri.read string = .ok uri) :
    Literal uri ∧ (uri.scheme = [] → NoScheme string ∧ (uri.host = [] → ¬ text "//" <+: string)) := by
  rw [Uri.read] at read
  split at read
  · obtain ⟨scheme, set, read⟩ := ok_of_bind read
    obtain ⟨same, filled, -⟩ := scheme_word set
    have valid : UriScheme.isValid scheme = true := by
      rw [UriScheme.set] at set
      split at set
      · rename_i valid
        cases set
        exact valid
      · cases set
    obtain ⟨literal, named, -⟩ := readHierarchy_literal (.inr valid)
      (fun member => plain (((List.drop_suffix _ _).trans (List.dropWhile_suffix _)).subset member)) read
    refine ⟨literal, fun none => absurd none ?_⟩
    rw [named, ← same]
    exact filled
  · rename_i other
    obtain ⟨literal, -, host⟩ := readHierarchy_literal (.inl rfl) plain read
    exact ⟨literal, fun _ => ⟨by simpa [NoScheme] using other, host⟩⟩

theorem read_literal {string : Text} (plain : byte '%' ∉ string) (read : Uri.read string = .ok uri) : Literal uri :=
  (read_parts plain read).1

end Uri

end SimpleNFast.Http
