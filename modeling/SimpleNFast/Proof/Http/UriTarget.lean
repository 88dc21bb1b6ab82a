import SimpleNFast.Proof.Http.UriPaths

set_option maxRecDepth 100000

namespace SimpleNFast.Http

namespace Uri

variable {before rest : Text} {uri : Uri} {seen : Bool}

theorem charAt_append (before : Text) (char : UInt8) (rest : Text) :
    charAt (before ++ char :: rest) before.length = char := by
  simp [charAt]

theorem charAt_length (string : Text) : charAt string string.length = 0 := by simp [charAt]

/-- The loop ends with the string. -/
theorem parseLoop_length (string : Text) (fuel : Nat) (uri : Uri) (seen : Bool) :
    parseLoop string fuel uri string.length seen = .ok uri := by
  cases fuel with
  | zero => rfl
  | succ fuel =>
      rw [parseLoop, if_neg (Nat.lt_irrefl _)]
      rfl

/-- Each pass reads one component. -/
theorem parseLoop_step {string : Text} {fuel index : Nat} (inside : index < string.length) :
    parseLoop string (fuel + 1) uri index seen =
      (parseComponent uri string index seen).bind fun next => parseLoop string fuel next.2.1 next.1 next.2.2 := by
  rw [parseLoop, if_pos inside]
  rfl

/-- The text of a query or of a fragment behind its mark. -/
def part (mark : Char) (component : Text) : Text :=
  if component.isEmpty then [] else byte mark :: encodeKeeping componentKeeps component

theorem encode_ne_nil {keeps : Int → Bool} {component : Text} (some : component ≠ []) :
    encodeKeeping keeps component ≠ [] := by
  obtain ⟨char, others, rfl⟩ := List.exists_cons_of_ne_nil some
  rw [encodeKeeping, List.flatMap_cons]
  split
  · simp
  · simp [percentEncode]

theorem parseComponent_fragment (before : Text) {fragment : Text} (filled : fragment ≠ []) (uri : Uri) (seen : Bool) :
    parseComponent uri (before ++ byte '#' :: fragment) before.length seen =
      match decodeKeeping componentKeeps fragment with
      | some decoded => .ok ((before ++ byte '#' :: fragment).length, { uri with fragment := decoded }, seen)
      | none => .error (.badUri (text "invalid fragment: " ++ fragment)) := by
  have present : fragment.isEmpty = false := by simpa using filled
  have slash : (byte '#' == byte '/') = false := by decide
  have question : (byte '#' == byte '?') = false := by decide
  rw [parseComponent, charAt_append, parseFragment, charAt_append, drop_behind]
  simp only [present, slash, question, validKeeping_eq, decodeOrThrow, bne_self_eq_false, beq_self_eq_true,
    Bool.false_eq_true, if_false, if_true, Bool.false_or]
  cases decodeKeeping componentKeeps fragment with
  | none => rfl
  | some decoded => rfl

/-- A query ends before a hash or with the string. -/
inductive QueryEnds : Text → Prop where
  | nothing : QueryEnds []
  | hash (rest : Text) : QueryEnds (byte '#' :: rest)

theorem parseComponent_query (before : Text) {query tail : Text} (filled : query ≠ []) (plain : byte '#' ∉ query)
    (ends : QueryEnds tail) (uri : Uri) (seen : Bool) :
    parseComponent uri (before ++ byte '?' :: (query ++ tail)) before.length seen =
      match decodeKeeping componentKeeps query with
      | some decoded => .ok ((before ++ byte '?' :: query).length, { uri with query := decoded }, seen)
      | none => .error (.badUri (text "invalid query: " ++ query)) := by
  have present : query.isEmpty = false := by simpa using filled
  have slash : (byte '?' == byte '/') = false := by decide
  have all : ∀ char ∈ query, (char != byte '#') = true := by
    intro char member
    rw [bne_iff_ne]
    rintro rfl
    exact plain member
  have taken : (query ++ tail).takeWhile (· != byte '#') = query := by
    cases ends with
    | nothing => rw [List.takeWhile_append_of_pos all, List.takeWhile_nil, List.append_nil]
    | hash rest => exact takeWhile_stop all (by decide) rest
  rw [parseComponent, charAt_append, parseQuery, charAt_append, drop_behind]
  simp only [taken, present, slash, validKeeping_eq, decodeOrThrow, bne_self_eq_false, beq_self_eq_true,
    Bool.false_eq_true, if_false, if_true, Bool.false_or]
  cases decodeKeeping componentKeeps query with
  | none => rfl
  | some decoded =>
      have same : before.length + 1 + query.length = (before ++ byte '?' :: query).length := by
        simp only [List.length_append, List.length_cons]
        omega
      rw [same]
      rfl

/-- A path ends before a question mark or a hash or with the string. -/
inductive PathEnds : Text → Prop where
  | nothing : PathEnds []
  | question (rest : Text) : PathEnds (byte '?' :: rest)
  | hash (rest : Text) : PathEnds (byte '#' :: rest)

theorem parseComponent_path {path tail : Text} (single : charAt (byte '/' :: path ++ tail) 1 ≠ byte '/')
    (kept : ∀ char ∈ byte '/' :: path, UriPath.keeps (toInt char) = true) (ends : PathEnds tail)
    (valid : UriPath.isValid (byte '/' :: path) = true) {uri : Uri} {parsed : UriPath}
    (set : uri.path.set (byte '/' :: path) = .ok parsed) (seen : Bool) :
    parseComponent uri (byte '/' :: path ++ tail) 0 seen =
      .ok ((byte '/' :: path).length, { uri with path := parsed }, seen) := by
  have all : ∀ char ∈ byte '/' :: path, (char != byte '?' && char != byte '#') = true := by
    have checked : ∀ char, UriPath.keeps (toInt char) = true → (char != byte '?' && char != byte '#') = true := by
      apply octet_forall
      decide
    exact fun char member => checked char (kept char member)
  have taken : (byte '/' :: path ++ tail).takeWhile (fun char => char != byte '?' && char != byte '#') =
      byte '/' :: path := by
    cases ends with
    | nothing => rw [List.takeWhile_append_of_pos all, List.takeWhile_nil, List.append_nil]
    | question rest => exact takeWhile_stop all (by decide) rest
    | hash rest => exact takeWhile_stop all (by decide) rest
  have first : charAt (byte '/' :: path ++ tail) 0 = byte '/' := rfl
  have second : (charAt (byte '/' :: path ++ tail) (0 + 1) == byte '/') = false := by simpa using single
  rw [parseComponent, first, second, parsePath, List.drop_zero, taken, valid, set, Nat.zero_add]
  rfl

theorem part_nil (mark : Char) : part mark [] = [] := rfl

theorem part_some (mark : Char) {component : Text} (filled : component ≠ []) :
    part mark component = byte mark :: encodeKeeping componentKeeps component := by
  rw [part, if_neg]
  simpa using filled

/-- The end of a target: the fragment is read, or it has a character that is not accepted. -/
theorem parseLoop_fragment (before fragment : Text) (uri : Uri) (seen : Bool) (fuel : Nat)
    (enough : (part '#' fragment).length ≤ fuel) :
    if fragment.all fun char => char < 128 then
      ∃ later, parseLoop (before ++ part '#' fragment) fuel uri before.length seen = .ok later ∧
        later.path = uri.path ∧ later.query = uri.query
    else ∃ fault, parseLoop (before ++ part '#' fragment) fuel uri before.length seen = .error fault := by
  by_cases filled : fragment = []
  · subst filled
    rw [List.all_nil, if_pos rfl, part_nil, List.append_nil]
    exact ⟨uri, parseLoop_length before fuel uri seen, rfl, rfl⟩
  · rw [part_some '#' filled] at enough ⊢
    obtain ⟨fuel, rfl⟩ : ∃ smaller, fuel = smaller + 1 := ⟨fuel - 1, by simp at enough; omega⟩
    have accepted := decode_encode_isSome fragment
    rw [parseLoop_step (by simp), parseComponent_fragment before (encode_ne_nil filled)]
    cases decoded : decodeKeeping componentKeeps (encodeKeeping componentKeeps fragment) with
    | none =>
        rw [decoded] at accepted
        rw [← accepted]
        exact ⟨_, rfl⟩
    | some string =>
        rw [decoded] at accepted
        rw [← accepted]
        exact ⟨_, parseLoop_length _ fuel _ seen, rfl, rfl⟩

/-- A character of a URI as the scanner takes it. -/
def isUriChar (char : UInt8) : Bool :=
  uriReservedCharacter (toInt char) || uriUnreservedCharacter (toInt char) || toInt char == code '%'

theorem percentEncode_chars (char : UInt8) : ∀ other ∈ percentEncode char, isUriChar other = true ∧ other ≠ byte '#' := by
  have checked : ∀ char, (percentEncode char).all (fun other => isUriChar other && other != byte '#') = true := by
    apply octet_forall
    decide
  intro other member
  have accepted := List.all_eq_true.1 (checked char) other member
  rwa [Bool.and_eq_true, bne_iff_ne] at accepted

theorem componentKeeps_chars : ∀ char, componentKeeps (toInt char) = true → isUriChar char = true ∧ char ≠ byte '#' := by
  apply octet_forall
  decide

theorem encode_chars (component : Text) :
    ∀ char ∈ encodeKeeping componentKeeps component, isUriChar char = true ∧ char ≠ byte '#' := by
  intro char member
  obtain ⟨source, _, inside⟩ := List.mem_flatMap.1 member
  split at inside
  · rename_i kept
    rw [List.mem_singleton.1 inside]
    exact componentKeeps_chars source kept
  · exact percentEncode_chars source char inside

theorem part_chars {mark : Char} (accepted : isUriChar (byte mark) = true) (component : Text) :
    ∀ char ∈ part mark component, isUriChar char = true := by
  intro char member
  rw [part] at member
  split at member
  · cases member
  · obtain rfl | later := List.mem_cons.1 member
    · exact accepted
    · exact (encode_chars component char later).1

theorem queryEnds_part (fragment : Text) : QueryEnds (part '#' fragment) := by
  rw [part]
  split
  · exact .nothing
  · exact .hash _

theorem pathEnds_parts (query fragment : Text) : PathEnds (part '?' query ++ part '#' fragment) := by
  rw [part]
  split
  · rw [List.nil_append, part]
    split
    · exact .nothing
    · exact .hash _
  · exact .question _

/-- The query and the fragment of a target are read, or one of them has a character that is not accepted. -/
theorem parseLoop_parts (before query fragment : Text) {uri : Uri} (unset : uri.query = []) (seen : Bool) (fuel : Nat)
    (enough : (part '?' query ++ part '#' fragment).length ≤ fuel) :
    if (query.all fun char => char < 128) && fragment.all fun char => char < 128 then
      ∃ later, parseLoop (before ++ (part '?' query ++ part '#' fragment)) fuel uri before.length seen = .ok later ∧
        later.path = uri.path ∧
        decodeKeeping componentKeeps (encodeKeeping componentKeeps query) = some later.query
    else ∃ fault,
      parseLoop (before ++ (part '?' query ++ part '#' fragment)) fuel uri before.length seen = .error fault := by
  by_cases filled : query = []
  · subst filled
    have ends := parseLoop_fragment before fragment uri seen fuel (by simpa [part_nil] using enough)
    rw [List.all_nil, Bool.true_and, part_nil, List.nil_append]
    split
    · rename_i small
      rw [if_pos small] at ends
      obtain ⟨later, parsed, path, same⟩ := ends
      exact ⟨later, parsed, path, by rw [same, unset]; rfl⟩
    · rename_i large
      rwa [if_neg large] at ends
  · rw [part_some '?' filled] at enough ⊢
    obtain ⟨fuel, rfl⟩ : ∃ smaller, fuel = smaller + 1 := ⟨fuel - 1, by simp at enough; omega⟩
    have accepted := decode_encode_isSome query
    have plain : byte '#' ∉ encodeKeeping componentKeeps query := fun member => (encode_chars query _ member).2 rfl
    rw [parseLoop_step (by simp), List.cons_append,
      parseComponent_query before (encode_ne_nil filled) plain (queryEnds_part fragment)]
    cases decoded : decodeKeeping componentKeeps (encodeKeeping componentKeeps query) with
    | none =>
        rw [decoded] at accepted
        rw [← accepted]
        exact ⟨_, rfl⟩
    | some string =>
        rw [decoded] at accepted
        rw [← accepted, Option.isSome_some, Bool.true_and]
        have ends := parseLoop_fragment (before ++ byte '?' :: encodeKeeping componentKeeps query) fragment
          { uri with query := string } seen fuel (by
            simp only [List.length_append, List.length_cons] at enough
            omega)
        rw [List.append_assoc, List.cons_append] at ends
        split
        · rename_i small
          rw [if_pos small] at ends
          obtain ⟨later, parsed, path, same⟩ := ends
          exact ⟨later, parsed, path, by rw [same]⟩
        · rename_i large
          rwa [if_neg large] at ends

/-- A URI whose target can be read: its segments are proper, and its component is their path. -/
structure Target (uri : Uri) : Prop where
  proper : ∀ segment ∈ uri.path.segments, UriPath.Segment segment
  component : uri.path.component = UriPath.segmentsToPath uri.path.segments true uri.path.slashAtEnd

theorem target_parts (uri : Uri) :
    Request.target uri = UriPath.encode uri.path.component ++ (part '?' uri.query ++ part '#' uri.fragment) := by
  rw [Request.target, List.append_assoc]
  rfl

/-- The path of a target begins with a single slash. -/
theorem Target.encode {uri : Uri} (valid : Target uri) :
    (∀ char ∈ uri.path.component, UriPath.keeps (toInt char) = true) ∧
      UriPath.encode uri.path.component = uri.path.component := by
  have kept : ∀ char ∈ uri.path.component, UriPath.keeps (toInt char) = true := by
    rw [valid.component]
    by_cases filled : uri.path.segments = []
    · simp [filled, UriPath.segmentsToPath]
    · rw [UriPath.segmentsToPath_absolute filled]
      intro char member
      obtain rfl | later := List.mem_cons.1 member
      · decide
      · exact UriPath.relative_chars valid.proper _ char later
  exact ⟨kept, encodeKeeping_all kept⟩

theorem relative_begins {segments : List Text} (proper : ∀ segment ∈ segments, UriPath.Segment segment)
    (filled : segments ≠ []) (slashAtEnd : Bool) (tail : Text) :
    charAt (byte '/' :: UriPath.relative segments slashAtEnd ++ tail) 1 ≠ byte '/' := by
  obtain ⟨first, others, rfl⟩ := List.exists_cons_of_ne_nil filled
  obtain ⟨some, _, inside⟩ := proper first List.mem_cons_self
  obtain ⟨char, more, rfl⟩ := List.exists_cons_of_ne_nil some
  have kept := inside char List.mem_cons_self
  rw [UriPath.inSegment, Bool.and_eq_true, bne_iff_ne] at kept
  cases others with
  | nil =>
      rw [UriPath.relative_single]
      exact kept.2
  | cons second others =>
      rw [UriPath.relative_cons]
      exact kept.2

/-- The target is parsed to a URI with the same segments, or a character of it is not accepted. -/
theorem parse_target {uri : Uri} (valid : Target uri) :
    if (uri.query.all fun char => char < 128) && uri.fragment.all fun char => char < 128 then
      ∃ later, Uri.parse (Request.target uri) = .ok later ∧ later.path.segments = uri.path.segments ∧
        decodeKeeping componentKeeps (encodeKeeping componentKeeps uri.query) = some later.query
    else ∃ fault, Uri.parse (Request.target uri) = .error fault := by
  rw [target_parts, valid.encode.2, valid.component]
  by_cases filled : uri.path.segments = []
  · have parsed := parseLoop_parts [] uri.query uri.fragment (rfl : Uri.empty.query = []) false _ le_rfl
    rw [filled]
    split
    · rename_i small
      rw [if_pos small] at parsed
      obtain ⟨later, ended, path, query⟩ := parsed
      exact ⟨later, ended, by rw [path]; rfl, query⟩
    · rename_i large
      rwa [if_neg large] at parsed
  · obtain ⟨accepted, parsed, set, same⟩ :=
      UriPath.set_component valid.proper filled uri.path.slashAtEnd
    rw [UriPath.segmentsToPath_absolute filled, Uri.parse, List.length_append, List.length_cons, Nat.add_right_comm,
      parseLoop_step (by simp), parseComponent_path (relative_begins valid.proper filled _ _) ?_ (pathEnds_parts _ _)
        accepted set]
    · have ends := parseLoop_parts (byte '/' :: UriPath.relative uri.path.segments uri.path.slashAtEnd) uri.query
        uri.fragment (rfl : Uri.query { Uri.empty with path := parsed } = []) false
        (_ + (part '?' uri.query ++ part '#' uri.fragment).length)
        (Nat.le_add_left _ (UriPath.relative uri.path.segments uri.path.slashAtEnd).length)
      split
      · rename_i small
        rw [if_pos small] at ends
        obtain ⟨later, ended, path, query⟩ := ends
        exact ⟨later, ended, by rw [path]; exact same, query⟩
      · rename_i large
        rwa [if_neg large] at ends
    · intro char member
      obtain rfl | later := List.mem_cons.1 member
      · decide
      · exact UriPath.relative_chars valid.proper _ char later

end Uri

end SimpleNFast.Http
