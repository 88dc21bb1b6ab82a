import SimpleNFast.Proof.Http.UriLiterals

set_option maxRecDepth 100000

namespace SimpleNFast.Http

namespace UriPath

variable {path : Text} {segments : List Text}

/-- A path that is written from its segments has no slash after a slash. -/
theorem single_segmentsToPath (whole : ∀ segment ∈ segments, Whole segment) (slashAtStart slashAtEnd : Bool) :
    ¬ text "//" <:+: segmentsToPath segments slashAtStart slashAtEnd := by
  by_cases filled : segments = []
  · subst filled
    exact (by decide : ¬ text "//" <:+: [])
  rintro ⟨before, after, shape⟩
  have doubled : before ++ text "//" ++ after = before ++ byte '/' :: ([] ++ byte '/' :: after) := by
    rw [List.append_assoc]
    rfl
  have found := parts_segmentsToPath filled whole slashAtStart slashAtEnd
  rw [← shape, doubled, parts_between, parts_between] at found
  obtain ⟨others, last, behind⟩ := parts_last after
  obtain ⟨first, more, ahead⟩ := List.exists_cons_of_ne_nil (parts_ne_nil before)
  -- The empty part between the two slashes is neither the first nor the last one.
  have inner : ([] : Text) ∈ ((if slashAtStart then [[]] else []) ++ segments ++
      (if slashAtEnd then [[]] else [])).tail.dropLast := by
    have ending : more ++ ([[]] ++ (others ++ [last])) = (more ++ [] :: others) ++ [last] := by simp
    have single : parts [] = [[]] := rfl
    rw [← found, ahead, behind, single, List.cons_append, List.tail_cons, ending, List.dropLast_concat]
    exact List.mem_append_right _ List.mem_cons_self
  have outer : ([] : Text) ∉ segments := fun member => (whole [] member).filled rfl
  obtain ⟨start, rest, rfl⟩ := List.exists_cons_of_ne_nil filled
  cases slashAtStart <;> cases slashAtEnd <;>
    simp only [Bool.false_eq_true, if_false, if_true, List.nil_append, List.append_nil, List.cons_append,
      List.tail_cons] at inner
  · exact outer (List.mem_cons_of_mem _ ((List.dropLast_subset _) inner))
  · rw [List.dropLast_concat] at inner
    exact outer (List.mem_cons_of_mem _ inner)
  · exact outer ((List.dropLast_subset _) inner)
  · rw [← List.cons_append, List.dropLast_concat] at inner
    exact outer inner

/-- A relative path keeps its text. -/
theorem component_relative (single : ¬ text "//" <:+: path) (begins : path.head? ≠ some (byte '/')) :
    (normal path).component = path := by
  by_cases empty : path = []
  · subst empty
    rfl
  obtain ⟨others, last, shape, proper, -⟩ := relative_parts single begins
  have all : others.filter (fun part => !part.isEmpty) = others := by
    rw [List.filter_eq_self]
    intro segment member
    simpa using (proper segment member).filled
  have joined := join_parts path
  rw [normal, beq_eq_false_iff_ne.2 begins]
  change segmentsToPath (UriPath.filled path) false (path.getLast? == some (byte '/')) = path
  rw [getLast_parts shape empty, UriPath.filled, shape, List.filter_append, all]
  rw [shape] at joined
  cases last with
  | nil =>
      have some : others ≠ [] := by
        rintro rfl
        exact empty joined.symm
      rw [join_last some] at joined
      change segmentsToPath (others ++ []) false true = path
      rw [List.append_nil, segmentsToPath_join some, if_neg Bool.false_ne_true, if_pos rfl, List.nil_append, joined]
  | cons char last =>
      change segmentsToPath (others ++ [char :: last]) false false = path
      rw [segmentsToPath_join (by simp), if_neg Bool.false_ne_true, List.nil_append, List.append_nil, joined]

/-- The printed path of a URI is its own normal form. -/
theorem normal_component_again (path : Text) :
    (normal (normal path).component).component = (normal path).component ∧
      (normal (normal path).component).segments = (normal path).segments := by
  by_cases none : (normal path).segments = []
  · rw [(normal_component path).2 none, none]
    exact ⟨rfl, by decide⟩
  · have again := normal_segmentsToPath none (normal_whole path) (normal path).slashAtStart (normal path).slashAtEnd
      (normal_inside path)
    have shape : (normal path).component =
        segmentsToPath (normal path).segments (normal path).slashAtStart (normal path).slashAtEnd := rfl
    rw [shape, again]
    exact ⟨rfl, rfl⟩

theorem component_single (path : Text) : ¬ text "//" <:+: (normal path).component :=
  single_segmentsToPath (normal_whole path) _ _

/-- The printed path of an absolute one is empty or begins with a slash. -/
theorem component_rooted (begins : path = [] ∨ path.head? = some (byte '/')) :
    (normal path).component = [] ∨ (normal path).component.head? = some (byte '/') := by
  obtain rfl | begins := begins
  · exact .inl rfl
  by_cases none : (normal path).segments = []
  · exact .inl ((normal_component path).2 none)
  · right
    have slash : (normal path).slashAtStart = true := by
      rw [normal, beq_iff_eq.2 begins]
    have head := head_segmentsToPath none (normal_whole path) (normal path).slashAtStart (normal path).slashAtEnd
    rw [slash, beq_iff_eq] at head
    change (segmentsToPath (normal path).segments (normal path).slashAtStart (normal path).slashAtEnd).head? = _
    rw [slash]
    exact head

theorem component_chars (chars : ∀ char ∈ path, keeps (toInt char) = true) :
    ∀ char ∈ (normal path).component, keeps (toInt char) = true :=
  segmentsToPath_chars (by decide)
    (fun _ member char within => chars char (parts_chars ((normal_sublist path).subset member) within)) _ _

end UriPath

namespace Uri

open Components Reference UriPath

variable {uri : Uri}

/-- A component that is present when it is not empty. -/
def present (component : Text) : Option Text := if component = [] then none else some component

theorem marked_present (mark component : Text) :
    marked mark (present component) = if component = [] then [] else mark ++ component := by
  rw [present]
  split <;> rfl

theorem present_plain {component : Text} (kept : ∀ char ∈ component, componentKeeps (toInt char) = true) :
    Marked (present component) component := by
  rw [present]
  split
  · rename_i none
    rw [none]
    exact marked_none.2 rfl
  · rename_i some
    exact marked_some.2 ⟨some, decodeKeeping_all kept⟩

/-- The scheme in lower case is a scheme. -/
theorem isValid_lower {scheme : Text} (valid : UriScheme.isValid scheme = true) :
    UriScheme.isValid (scheme.map lowerByte) = true := by
  have letter : ∀ char, isAlpha (toInt (lowerByte char)) = isAlpha (toInt char) := by
    apply octet_forall
    decide
  have other : ∀ char, (isAlpha (toInt (lowerByte char)) || isDigit (toInt (lowerByte char)) ||
      toInt (lowerByte char) ∈ "+-.".toList.map code) =
        (isAlpha (toInt char) || isDigit (toInt char) || toInt char ∈ "+-.".toList.map code) := by
    apply octet_forall
    decide
  cases scheme with
  | nil => cases valid
  | cons first rest =>
      rw [UriScheme.isValid, Bool.and_eq_true, List.all_eq_true] at valid
      rw [List.map_cons, UriScheme.isValid, letter, valid.1, Bool.true_and, List.all_eq_true, List.forall_mem_map]
      exact fun char member => (other char).trans (valid.2 char member)

/-- A host that is its own name is printed in lower case, and that is a name again. -/
theorem named_lower {host : Text} (named : UriHost.Named host host) :
    UriHost.encode host = host.map lowerByte ∧ UriHost.Named (host.map lowerByte) (host.map lowerByte) := by
  cases named with
  | @address inner shape accepted same =>
      have lower : host.map lowerByte = byte '[' :: (inner.map lowerByte ++ [byte ']']) := by
        rw [shape, List.map_cons, List.map_append]
        rfl
      refine ⟨?_, .address lower (by rw [inetPton6_lower]; exact accepted) rfl⟩
      rw [lower, shape]
      exact (ComponentKind.encode_address accepted).2
  | regular filled decoded =>
      have all := ((decodeKeeping_length decoded).2 le_rfl).2
      have kept : ∀ char, UriHost.isRegular (toInt char) = true →
          UriHost.isRegular (toInt (lowerByte char)) = true ∧ UriHost.keeps (toInt (lowerByte char)) = true := by
        apply octet_forall
        decide
      refine ⟨?_, .regular (by simpa using filled) (decodeKeeping_all (List.forall_mem_map.2 fun char member =>
        (kept char (all char member)).1))⟩
      rw [UriHost.encode_lower]
      exact encodeKeeping_all (List.forall_mem_map.2 fun char member => (kept char (all char member)).2)

/-- The URI that the printed form of another one gives. -/
def reprinted (uri : Uri) : Uri :=
  ⟨uri.scheme.map lowerByte, uri.userinfo, uri.host.map lowerByte, uri.port, UriPath.normal uri.path.component, uri.query,
    uri.fragment⟩

/-- The authority of the printed form. -/
def printedParts (uri : Uri) : AuthorityParts := ⟨present uri.userinfo, uri.host.map lowerByte, present uri.port⟩

section Printed

variable (literal : uri.Literal)
include literal

theorem path_kept : ∀ char ∈ uri.path.component, UriPath.keeps (toInt char) = true := by
  rw [literal.normal]
  exact component_chars literal.path.chars

/-- The printed form consists of the components in lower case or as they are. -/
theorem str_text :
    uri.str = (if uri.scheme = [] then [] else uri.scheme.map lowerByte ++ [byte ':']) ++
      ((if uri.host = [] then [] else text "//" ++ (printedParts uri).text) ++
        (uri.path.component ++ tailText (present uri.query) (present uri.fragment))) := by
  have path : UriPath.encode uri.path.component = uri.path.component := encodeKeeping_all (path_kept literal)
  have query : encodeKeeping componentKeeps uri.query = uri.query := encodeKeeping_all literal.query
  have fragment : encodeKeeping componentKeeps uri.fragment = uri.fragment := encodeKeeping_all literal.fragment
  have userinfo : UriUserinfo.encode uri.userinfo = uri.userinfo := encodeKeeping_all literal.userinfo
  have scheme : UriScheme.encode uri.scheme = uri.scheme.map lowerByte := rfl
  have host : UriHost.encode uri.host = uri.host.map lowerByte := by
    obtain ⟨none, -⟩ | named := literal.host
    · rw [none]
      rfl
    · exact (named_lower named).1
  have user : userText (present uri.userinfo) = if uri.userinfo = [] then [] else uri.userinfo ++ [byte '@'] := by
    rw [present]
    split <;> rfl
  have digits : portText (present uri.port) = if uri.port = [] then [] else byte ':' :: uri.port := by
    rw [present]
    split <;> rfl
  rw [str, path, query, fragment, userinfo, scheme, host, tailText, marked_present, marked_present, parts_text,
    printedParts, user, digits]
  simp only [List.isEmpty_iff, List.append_assoc]
  rfl

theorem printedParts_gives (filled : uri.host ≠ []) : (printedParts uri).Gives (reprinted uri) := by
  have named := literal.host.resolve_left fun none => filled none.1
  refine ⟨?_, UriHost.set_iff.2 (named_lower named).2, ?_⟩
  · rw [printedParts, present]
    by_cases none : uri.userinfo = []
    · exact .inl ⟨if_pos none, none⟩
    · have decoded := decodeKeeping_all literal.userinfo
      have valid : UriUserinfo.isValid uri.userinfo = true := by
        rw [UriUserinfo.isValid, Bool.and_eq_true, Bool.not_eq_true', List.isEmpty_eq_false_iff, validKeeping_eq, decoded]
        exact ⟨none, rfl⟩
      exact .inr ⟨uri.userinfo, if_neg none, valid, decodeOrThrow_ok.2 decoded⟩
  · rw [printedParts, present]
    by_cases none : uri.port = []
    · exact .inl ⟨if_pos none, none⟩
    · exact .inr ⟨uri.port, if_neg none, UriPort.set_ok.2 ⟨literal.port.resolve_left none, rfl⟩⟩

theorem printed_apart : Apart uri.path.component (present uri.query) where
  path := by
    have apart : ∀ char, UriPath.keeps (toInt char) = true → inPath char = true := by
      apply octet_forall
      decide
    exact fun char member => apart char (path_kept literal char member)
  query := by
    have apart : ∀ char, componentKeeps (toInt char) = true → inQuery char = true := by
      apply octet_forall
      decide
    rw [present]
    split
    · simp
    · intro chars same char member
      cases same
      exact apart char (literal.query char member)

theorem printed_tail :
    TailRead ⟨none, none, uri.path.component, present uri.query, present uri.fragment⟩ uri.path.component uri.query
      uri.fragment where
  valid := by
    have kept := path_kept literal
    have single : ¬ text "//" <:+: uri.path.component := by
      rw [literal.normal]
      exact component_single _
    rw [← encodeKeeping_all kept]
    exact isValid_encode (fun char member => .inl (kept char member)) single
  path := decodeKeeping_all (path_kept literal)
  query := present_plain literal.query
  fragment := present_plain literal.fragment

/-- What follows the scheme in the printed form is read. -/
theorem readHierarchy_printed {given : Uri} (bare : Bare given) (unset : given.userinfo = [] ∧ given.port = [])
    (alone : given.host = []) :
    readHierarchy given ((if uri.host = [] then [] else text "//" ++ (printedParts uri).text) ++
        (uri.path.component ++ tailText (present uri.query) (present uri.fragment))) =
      .ok { reprinted uri with scheme := given.scheme } := by
  have single : ¬ text "//" <:+: uri.path.component := by
    rw [literal.normal]
    exact component_single _
  by_cases filled : uri.host = []
  · obtain ⟨-, userinfo, port⟩ := literal.host.resolve_right fun named => named_filled named filled
    rw [if_pos filled, List.nil_append, readHierarchy_path bare (printed_apart literal) single (printed_tail literal),
      reprinted, userinfo, filled, port, unset.1, unset.2, alone]
    rfl
  · have rooted := component_rooted (literal.rooted filled)
    rw [if_neg filled, readHierarchy_authority bare (printed_apart literal) single (printed_tail literal) unset
      (printedParts_gives literal filled) (by rw [literal.normal]; exact rooted)]
    rfl

end Printed

/-- A text is its path, its query and its fragment with their marks. -/
theorem ofTail_whole (string : Text) :
    string = (ofTail string).path ++ tailText (ofTail string).query (ofTail string).fragment := by
  have whole : string = string.takeWhile inPath ++ string.dropWhile inPath := List.takeWhile_append_dropWhile.symm
  have hash (rest : Text) (ends : rest = [] ∨ ∃ more, rest = byte '#' :: more) :
      rest = marked (text "#") (cut (text "#") (fun _ => true) rest).1 := by
    obtain rfl | ⟨more, rfl⟩ := ends
    · rfl
    · rw [cut_hash]
      rfl
  have ended (rest : Text) : rest.dropWhile inQuery = [] ∨ ∃ more, rest.dropWhile inQuery = byte '#' :: more := by
    obtain none | ⟨first, more, shape, refused⟩ := dropWhile_cases inQuery rest
    · exact .inl none
    · have mark : first = byte '#' := by simpa [inQuery] using refused
      exact .inr ⟨more, by rw [shape, mark]⟩
  have tail : string.dropWhile inPath = tailText (ofTail string).query (ofTail string).fragment := by
    change _ = marked (text "?") (cut (text "?") inQuery (string.dropWhile inPath)).1 ++
      marked (text "#") (cut (text "#") (fun _ => true) (cut (text "?") inQuery (string.dropWhile inPath)).2).1
    obtain none | ⟨first, more, shape, refused⟩ := dropWhile_cases inPath string
    · rw [none]
      rfl
    · rw [shape]
      by_cases question : first = byte '?'
      · rw [question, cut_question, ← hash _ (ended more)]
        exact congrArg _ List.takeWhile_append_dropWhile.symm
      · have mark : first = byte '#' := by
          have cases : ∀ char, inPath char = false → char = byte '?' ∨ char = byte '#' := by
            apply octet_forall
            decide
          exact (cases first refused).resolve_left question
        rw [mark, cut_none rfl, ← hash _ (.inr ⟨more, rfl⟩)]
        rfl
  conv_lhs => rw [whole, tail]
  rfl

theorem marked_again {component : Option Text} {decoded : Text} (plain : ∀ chars ∈ component, byte '%' ∉ chars)
    (marked : Marked component decoded) : component = present decoded := by
  obtain ⟨same, -⟩ := marked_plain plain marked
  cases component with
  | none =>
      rw [same]
      rfl
  | some component =>
      cases same
      rw [present, Option.getD_some, if_neg (marked_some.1 marked).1]

/-- A relative path without a scheme and a host is printed as the string that gave it. -/
theorem str_relative {string : Text} (plain : byte '%' ∉ string) (read : Uri.read string = .ok uri)
    (scheme : uri.scheme = []) (host : uri.host = []) (begins : uri.path.path.head? ≠ some (byte '/')) :
    uri.str = string ∧ reprinted uri = uri := by
  obtain ⟨literal, bare⟩ := read_parts plain read
  obtain ⟨noScheme, single⟩ := bare scheme
  have component : uri.path.component = uri.path.path := by
    rw [literal.normal]
    exact component_relative literal.path.single begins
  rw [read_plain noScheme, readHierarchy_single (single host)] at read
  obtain ⟨decoded, query, fragment, tail, same⟩ := (readTail_ok bare_empty).1 read
  obtain ⟨path, question, hash⟩ := ofTail_plain plain
  obtain ⟨raw, -⟩ := decodeKeeping_plain path tail.path
  have userinfo : uri.userinfo = [] ∧ uri.port = [] := by
    rw [same]
    exact ⟨rfl, rfl⟩
  have parts : uri.path.path = (ofTail string).path ∧ uri.query = query ∧ uri.fragment = fragment := by
    rw [same, ← raw]
    exact ⟨rfl, rfl, rfl⟩
  constructor
  · rw [str_text literal, if_pos scheme, if_pos host, List.nil_append, List.nil_append, component, parts.1, parts.2.1,
      parts.2.2, ← marked_again question tail.query, ← marked_again hash tail.fragment]
    exact (ofTail_whole string).symm
  · rw [reprinted, component, ← literal.normal, scheme, host]
    obtain ⟨first, second, third, fourth, fifth, sixth, seventh⟩ := uri
    cases scheme
    cases host
    rfl

/-- The printed form of a URI is read again. -/
theorem read_str {string : Text} (plain : byte '%' ∉ string) (read : Uri.read string = .ok uri) :
    Uri.read uri.str = .ok (reprinted uri) := by
  have literal := read_literal plain read
  by_cases scheme : uri.scheme = []
  · have same : ({ reprinted uri with scheme := empty.scheme } : Uri) = reprinted uri := by
      rw [reprinted, scheme]
      rfl
    have printed (noScheme : NoScheme uri.str) : Uri.read uri.str = .ok (reprinted uri) := by
      rw [read_plain noScheme, str_text literal, if_pos scheme, List.nil_append,
        readHierarchy_printed literal bare_empty ⟨rfl, rfl⟩ rfl]
      exact congrArg Except.ok same
    by_cases relative : uri.host = [] ∧ uri.path.path.head? ≠ some (byte '/')
    · obtain ⟨whole, again⟩ := str_relative plain read scheme relative.1 relative.2
      rw [whole, again, read]
    · refine printed ?_
      have refused : uri.str.head?.any inAuthority = false := by
        rw [str_text literal, if_pos scheme, List.nil_append]
        by_cases host : uri.host = []
        · rw [not_and, not_not] at relative
          have rooted : uri.path.component = [] ∨ uri.path.component.head? = some (byte '/') := by
            rw [literal.normal]
            exact component_rooted (.inr (relative host))
          rw [if_pos host, List.nil_append]
          obtain empty | ⟨stop, more, shape, refused⟩ := rooted_text rooted
          · rw [empty]
            rfl
          · rw [shape]
            exact refused
        · rw [if_neg host]
          rfl
      rw [NoScheme, refused, Bool.false_and]
  · have valid := isValid_lower (literal.scheme.resolve_left scheme)
    have set : UriScheme.set (uri.scheme.map lowerByte) = .ok (uri.scheme.map lowerByte) := by
      rw [UriScheme.set, if_pos valid]
    rw [str_text literal, if_neg scheme, List.append_assoc, List.singleton_append, read_scheme set]
    exact readHierarchy_printed literal (bare_empty.frame (uri.scheme.map lowerByte) [] [] []) ⟨rfl, rfl⟩ rfl

/-- The URI of the printed form is printed in the same way. -/
theorem reprinted_again (literal : uri.Literal) : Alike uri (reprinted uri) ∧ (reprinted uri).str = uri.str := by
  have path := normal_component_again uri.path.path
  rw [← literal.normal] at path
  have alike : Alike uri (reprinted uri) :=
    ⟨map_lower_lower uri.scheme, rfl, map_lower_lower uri.host, rfl, path.1, path.2, rfl, rfl⟩
  have scheme : UriScheme.encode (reprinted uri).scheme = UriScheme.encode uri.scheme := alike.scheme
  have host : UriHost.encode (reprinted uri).host = UriHost.encode uri.host := by
    rw [UriHost.encode_lower, alike.host, ← UriHost.encode_lower]
  have schemeless : (reprinted uri).scheme.isEmpty = uri.scheme.isEmpty := List.isEmpty_map
  have hostless : (reprinted uri).host.isEmpty = uri.host.isEmpty := List.isEmpty_map
  refine ⟨alike, ?_⟩
  rw [str, str, scheme, host, schemeless, hostless, alike.get]
  rfl

/-- The printed form of a URI gives it again, up to the case of its scheme and its host. -/
theorem parse_str (string : Text) (uri : Uri) (plain : byte '%' ∉ string) (parsed : Uri.parse string = .ok uri) :
    ∃ again, Uri.parse uri.str = .ok again ∧ Alike uri again ∧ again.str = uri.str := by
  rw [parse_read] at parsed
  refine ⟨reprinted uri, ?_, reprinted_again (read_literal plain parsed)⟩
  rw [parse_read]
  exact read_str plain parsed

theorem parse_str_dots : ∃ again, Uri.parse (str { Uri.empty with path := .normal (text "/.") }) = .ok again ∧
    Alike { Uri.empty with path := .normal (text "/.") } again ∧
    again.str = str { Uri.empty with path := .normal (text "/.") } :=
  parse_str (text "/.") { Uri.empty with path := .normal (text "/.") } (by decide) (by decide)

end Uri

end SimpleNFast.Http
