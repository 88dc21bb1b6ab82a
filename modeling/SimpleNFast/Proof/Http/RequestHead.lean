import SimpleNFast.Proof.Http.HeaderRuns

set_option maxRecDepth 100000

namespace SimpleNFast.Http

open Scanner

/-- The line of a request with this target. -/
def requestLine (method : MethodType) (target : Text) : Text :=
  method.str ++ byte ' ' :: (target ++ byte ' ' :: (text "HTTP/1.1" ++ text "\r\n"))

section Line

variable {target rest : Text} (before : Text) (method : MethodType)

theorem readSpace_one {stop : UInt8} (follows : rest ≠ []) (refused : isWhitespace (toInt stop) = false) :
    readSpace (between before (byte ' ' :: stop :: rest)) = .ok (true, between (before ++ [byte ' ']) (stop :: rest)) := by
  have read := readAccepted_stop before follows refused [byte ' '] (List.forall_mem_singleton.2 (by decide))
  rw [List.singleton_append] at read
  rw [readSpace, Scan.bind_ok read]
  rfl

theorem isUriChar_apart : ∀ char, Uri.isUriChar char = true →
    isWhitespace (toInt char) = false ∧ char ≠ byte '\n' := by
  apply octet_forall
  decide

theorem readAccepted_uri (chars : ∀ char ∈ target, Uri.isUriChar char = true) (follows : rest ≠ []) :
    readAccepted (fun next => uriReservedCharacter next || uriUnreservedCharacter next || next == code '%')
        (between before (target ++ byte ' ' :: rest)) =
      .ok (target, between (before ++ target) (byte ' ' :: rest)) :=
  readAccepted_stop before follows (by decide) target chars

theorem readUri_ok {uri : Uri} (filled : target ≠ []) (chars : ∀ char ∈ target, Uri.isUriChar char = true)
    (follows : rest ≠ []) (parsed : Uri.parse target = .ok uri) :
    readUri (between before (target ++ byte ' ' :: rest)) = .ok (target, between (before ++ target) (byte ' ' :: rest)) := by
  have read := readAccepted_uri before chars follows
  rw [readUri, Scan.bind_ok read]
  simp only [List.isEmpty_iff, filled, if_false, parsed]
  rfl

theorem readUri_error {fault : Fault} (filled : target ≠ []) (chars : ∀ char ∈ target, Uri.isUriChar char = true)
    (follows : rest ≠ []) (refused : Uri.parse target = .error fault) :
    readUri (between before (target ++ byte ' ' :: rest)) = .error fault := by
  have read := readAccepted_uri before chars follows
  rw [readUri, Scan.bind_ok read]
  simp only [List.isEmpty_iff, filled, if_false, refused]
  rfl

theorem method_word : (∀ char ∈ method.str, isTchar (toInt char) = true) ∧ method.str ≠ [] := by
  constructor
  · apply List.all_eq_true.1
    cases method <;> decide
  · cases method <;> decide

theorem ofString_method : MethodType.ofString method.str = .ok method := by
  cases method <;> decide

/-- The method and one space of the line are read. -/
theorem readMethod {first : UInt8} (visible : isWhitespace (toInt first) = false) (follows : rest ≠ []) :
    readToken false (between [] (method.str ++ byte ' ' :: first :: rest)) =
        .ok (method.str, between method.str (byte ' ' :: first :: rest)) ∧
      readSpace (between method.str (byte ' ' :: first :: rest)) =
        .ok (true, between (method.str ++ [byte ' ']) (first :: rest)) := by
  have read := readToken_ends [] (.stop (by decide) (by simp) : Ends isTchar (byte ' ' :: first :: rest)) false method.str
    (method_word method).1
  rw [if_neg Bool.false_ne_true, List.nil_append] at read
  exact ⟨read, readSpace_one _ follows visible⟩

theorem readSpace_version :
    readSpace (between before (byte ' ' :: (text "HTTP/1.1" ++ text "\r\n"))) =
      .ok (true, between (before ++ [byte ' ']) (text "HTTP/1.1" ++ text "\r\n")) :=
  readSpace_one before (by decide) (by decide)

theorem readOptSpace_crlf : readOptSpace (between before (text "\r\n")) = .ok ((), between before (text "\r\n")) :=
  readOptSpace_stop (by decide) (by decide)

theorem readVersion_current :
    readVersion (between before (text "HTTP/1.1" ++ text "\r\n")) =
      .ok (text "HTTP/1.1", between (before ++ text "HTTP/1.1") (text "\r\n")) :=
  readAccepted_stop before (by decide : [byte '\n'] ≠ []) (by decide) (text "HTTP/1.1") (List.all_eq_true.1 (by decide))

/-- The line of a target that is parsed yields its parts. -/
theorem readLine_ok {uri : Uri} (filled : target ≠ []) (chars : ∀ char ∈ target, Uri.isUriChar char = true)
    (parsed : Uri.parse target = .ok uri) :
    ∃ later, Request.readLine (Scanner.init (requestLine method target)) = .ok ((method, uri, .current), later) := by
  obtain ⟨first, others, shape⟩ := List.exists_cons_of_ne_nil filled
  have visible := (isUriChar_apart first (chars first (by rw [shape]; exact List.mem_cons_self))).1
  obtain ⟨token, space⟩ := readMethod method visible
    (by simp : others ++ byte ' ' :: (text "HTTP/1.1" ++ text "\r\n") ≠ [])
  rw [← List.cons_append, ← shape] at token space
  have version : (text "HTTP/1.1").isEmpty = false := rfl
  refine ⟨between (method.str ++ [byte ' '] ++ target ++ [byte ' '] ++ text "HTTP/1.1" ++ text "\r\n") [], ?_⟩
  rw [init_eq, requestLine, Request.readLine, Scan.bind_ok token]
  simp only [List.isEmpty_iff, (method_word method).2, if_false]
  rw [Scan.bind_ok space]
  simp only [Bool.not_true, Bool.false_eq_true, if_false]
  rw [Scan.bind_ok (readUri_ok _ filled chars (by decide) parsed)]
  simp only [filled, if_false]
  rw [Scan.bind_ok (readSpace_version _)]
  simp only [Bool.not_true, Bool.false_eq_true, if_false]
  rw [Scan.bind_ok (readVersion_current _)]
  simp only [← List.isEmpty_iff, version, Bool.false_eq_true, if_false]
  rw [Scan.bind_ok (readOptSpace_crlf _), Scan.bind_ok readCrlf_crlf]
  simp only [Bool.not_true, Bool.false_eq_true, if_false]
  rw [ofString_method, parsed]
  rfl

theorem readLine_refused {fault : Fault} (filled : target ≠ []) (chars : ∀ char ∈ target, Uri.isUriChar char = true)
    (refused : Uri.parse target = .error fault) :
    Request.readLine (Scanner.init (requestLine method target)) = .error fault := by
  obtain ⟨first, others, shape⟩ := List.exists_cons_of_ne_nil filled
  have visible := (isUriChar_apart first (chars first (by rw [shape]; exact List.mem_cons_self))).1
  obtain ⟨token, space⟩ := readMethod method visible
    (by simp : others ++ byte ' ' :: (text "HTTP/1.1" ++ text "\r\n") ≠ [])
  rw [← List.cons_append, ← shape] at token space
  rw [init_eq, requestLine, Request.readLine, Scan.bind_ok token]
  simp only [List.isEmpty_iff, (method_word method).2, if_false]
  rw [Scan.bind_ok space]
  simp only [Bool.not_true, Bool.false_eq_true, if_false]
  rw [Scan.bind_error (readUri_error _ filled chars (by decide) refused)]

/-- Without a target the version stands in its place, and nothing follows it. -/
instance readLine_targetless : Fact (∀ method ∈ MethodType.all,
    (Request.readLine (Scanner.init (requestLine method []))).toOption.isNone = true) :=
  ⟨by decide +kernel⟩

theorem readLine_empty : ∃ fault, Request.readLine (Scanner.init (requestLine method [])) = .error fault := by
  have listed : method ∈ MethodType.all := by cases method <;> decide
  cases read : Request.readLine (Scanner.init (requestLine method [])) with
  | error fault => exact ⟨fault, rfl⟩
  | ok result =>
      have none := readLine_targetless.out method listed
      rw [read] at none
      cases none

end Line

section Target

variable {uri : Uri}

theorem target_chars (valid : Uri.Target uri) : ∀ char ∈ Request.target uri, Uri.isUriChar char = true := by
  have path : ∀ char, UriPath.keeps (toInt char) = true → Uri.isUriChar char = true := by
    apply octet_forall
    decide
  obtain ⟨kept, encoded⟩ := valid.encode
  rw [Uri.target_parts, encoded]
  intro char member
  rw [List.mem_append, List.mem_append] at member
  obtain inside | query | fragment := member
  · exact path char (kept char inside)
  · exact Uri.part_chars (by decide) uri.query char query
  · exact Uri.part_chars (by decide) uri.fragment char fragment

/-- A path without segments prints nothing. -/
theorem target_nil_iff (valid : Uri.Target uri) :
    Request.target uri = [] ↔ uri.path.segments = [] ∧ uri.query = [] ∧ uri.fragment = [] := by
  have part (mark : Char) (component : Text) : Uri.part mark component = [] ↔ component = [] := by
    by_cases filled : component = []
    · simp [filled, Uri.part_nil]
    · simp [filled, Uri.part_some mark filled]
  have path : uri.path.component = [] ↔ uri.path.segments = [] := by
    rw [valid.component]
    by_cases filled : uri.path.segments = []
    · simp [filled, UriPath.segmentsToPath]
    · simp [filled, UriPath.segmentsToPath_absolute filled]
  rw [Uri.target_parts, valid.encode.2, List.append_eq_nil_iff, List.append_eq_nil_iff, part, part, path]

/-- The line of a request yields its method, segments, query and version when it has a target that is read. -/
theorem readLine_iff (method : MethodType) (valid : Uri.Target uri) :
    (∃ read scanner, Request.readLine (Scanner.init (requestLine method (Request.target uri))) =
        .ok ((method, read, .current), scanner) ∧
      read.path.segments = uri.path.segments ∧ read.query = uri.query) ↔
    ((!uri.path.segments.isEmpty || !uri.query.isEmpty || !uri.fragment.isEmpty) && isReadableQuery uri.query &&
      uri.fragment.all fun char => char < 128) = true := by
  by_cases filled : Request.target uri = []
  · obtain ⟨fault, failed⟩ := readLine_empty method
    obtain ⟨path, query, fragment⟩ := (target_nil_iff valid).1 filled
    rw [filled, failed, path, query, fragment]
    exact iff_of_false (by rintro ⟨_, _, same, _⟩; cases same) (by decide)
  · have some : (!uri.path.segments.isEmpty || !uri.query.isEmpty || !uri.fragment.isEmpty) = true := by
      rw [target_nil_iff valid] at filled
      simp only [Bool.or_eq_true, Bool.not_eq_true', List.isEmpty_eq_false_iff]
      tauto
    have parsed := Uri.parse_target valid
    rw [some, Bool.true_and, Bool.and_eq_true]
    split at parsed
    · rename_i small
      obtain ⟨read, parsed, segments, query⟩ := parsed
      obtain ⟨later, line⟩ := readLine_ok method filled (target_chars valid) parsed
      rw [line, ← decode_encode_iff, query]
      rw [Bool.and_eq_true] at small
      constructor
      · rintro ⟨found, scanner, same, _, equal⟩
        cases same
        exact ⟨congrArg Option.some equal, small.2⟩
      · rintro ⟨equal, _⟩
        exact ⟨read, later, rfl, segments, Option.some.inj equal⟩
    · rename_i large
      obtain ⟨fault, refused⟩ := parsed
      rw [readLine_refused method filled (target_chars valid) refused]
      refine iff_of_false (by rintro ⟨_, _, same, _⟩; cases same) ?_
      rintro ⟨query, fragment⟩
      rw [isReadableQuery_small query, fragment] at large
      exact large rfl

end Target

namespace Request

theorem str_line (request : Request) (current : request.version = .current) :
    request.str = request.method.str ++ byte ' ' :: (target request.uri ++ byte ' ' :: (text "HTTP/1.1" ++ [byte '\r'])) ++
      byte '\n' :: (request.headers.str ++ text "\r\n") := by
  have version : Version.str .current = text "HTTP/1.1" := by decide
  have terminator : text "\r\n" = [byte '\r', byte '\n'] := rfl
  have space : text " " = [byte ' '] := rfl
  rw [str, current, version, space, terminator]
  simp

/-- The reader takes the line and then the headers of a printed request. -/
theorem receiveStream_str {request : Request} (valid : request.WellFormed) :
    receiveStream ⟨request.str, false⟩ true = (do
      let line ← readLine (Scanner.init (requestLine request.method (target request.uri)))
      let found ← receiveStreamHeaders ((request.headers.str ++ text "\r\n").length + 1)
        ⟨request.headers.str ++ text "\r\n", false⟩ .empty
      if found.1.fields.isEmpty then throw (.badMessage (text "a request with no header is invalid"))
      pure ⟨line.1.1, line.1.2.1, line.1.2.2, found.1, none, []⟩) := by
  have single : byte '\n' ∉ request.method.str ++ byte ' ' ::
      (target request.uri ++ byte ' ' :: (text "HTTP/1.1" ++ [byte '\r'])) := by
    have method : byte '\n' ∉ request.method.str := by
      cases request.method <;> decide
    have inside : byte '\n' ∉ target request.uri := fun member =>
      (isUriChar_apart _ (target_chars valid.target _ member)).2 rfl
    have tail : byte '\n' ∉ byte ' ' :: (text "HTTP/1.1" ++ [byte '\r']) := by decide
    intro member
    rw [List.mem_append, List.mem_cons, List.mem_append] at member
    obtain early | blank | among | late := member
    · exact method early
    · exact absurd blank (by decide)
    · exact inside among
    · exact tail late
  have line : request.method.str ++ byte ' ' ::
      (target request.uri ++ byte ' ' :: (text "HTTP/1.1" ++ [byte '\r'])) ++ [byte '\n'] =
        requestLine request.method (target request.uri) := by
    have terminator : text "\r\n" = [byte '\r', byte '\n'] := rfl
    rw [requestLine, terminator]
    simp
  rw [receiveStream, str_line request valid.version, IStream.readline_line _ single, line]
  rfl

/-- The text of a request reads back exactly when its line and its fields are readable. -/
theorem readsBack_iff (request : Request) (wellFormed : request.WellFormed) :
    request.ReadsBack ↔ request.isReadable = true := by
  have line := readLine_iff request.method wellFormed.target
  have headers := receiveStreamHeaders_iff request.headers wellFormed.fields (Nat.lt_succ_self _)
  rw [isReadable, Bool.and_eq_true, ← line, ← headers, ReadsBack, receiveStream_str wellFormed]
  constructor
  · rintro ⟨read, run, method, segments, query, version, fields⟩
    obtain ⟨⟨⟨foundMethod, foundUri, foundVersion⟩, scanner⟩, first, rest⟩ := ok_of_bind run
    obtain ⟨⟨found, last⟩, second, rest⟩ := ok_of_bind rest
    dsimp only at rest
    split at rest
    · cases rest
    · cases rest
      dsimp only at method version
      rw [method, version, wellFormed.version] at first
      exact ⟨⟨foundUri, scanner, first, segments, query⟩, found, last, second, fields⟩
  · rintro ⟨⟨uri, scanner, first, segments, query⟩, found, last, second, fields⟩
    have filled : found.fields.isEmpty = false := by
      rw [fields, List.isEmpty_eq_false_iff]
      intro none
      have set := wellFormed.host
      rw [Headers.isSet, Headers.find, none, List.find?_nil, Option.isSome_none, Bool.and_false] at set
      cases set
    refine ⟨⟨request.method, uri, .current, found, none, []⟩, ?_, rfl, segments, query, wellFormed.version.symm, fields⟩
    rw [first]
    show (receiveStreamHeaders _ _ _).bind _ = _
    rw [second]
    show (if found.fields.isEmpty = true then _ else _) = _
    rw [filled]
    rfl

/-- A request for a page with a list of codings. -/
def pageRequest : Request where
  method := .M_POST
  uri := { Uri.empty with
    path := ⟨text "/pages/1/", text "/pages/./1/", [text "pages", text "1"], true, true⟩
    query := text "a=b" }
  version := .current
  headers := ⟨[.host ⟨text "[::1]", 8080⟩, .te [⟨text "gzip", [(text "q", text "0.5")]⟩, Token.chunked],
    .other (text "accept") [text "a", text "bc"] (by decide)], by decide⟩
  body := none
  parameters := []

/-- The target of the request, and that its text can be read. -/
instance pageRequest_parsed : Fact (Uri.parse (text "/pages/./1/?a=b") = .ok pageRequest.uri ∧
    pageRequest.isReadable = true) :=
  ⟨by decide +kernel⟩

theorem pageRequest_wellFormed : pageRequest.WellFormed where
  parsed := ⟨_, pageRequest_parsed.out.1⟩
  absolute := rfl
  unescaped := List.all_eq_true.1 (by decide)
  version := rfl
  host := by decide
  fields := by
    intro field member
    simp only [pageRequest, List.mem_cons, List.not_mem_nil, or_false] at member
    obtain rfl | rfl | rfl := member
    · show 8080 < 2 ^ 16
      decide
    · intro coding among
      simp only [List.mem_cons, List.not_mem_nil, or_false] at among
      obtain rfl | rfl := among
      · refine ⟨by decide, fun parameter inside => ?_⟩
        rw [List.mem_singleton.1 inside]
        exact ⟨by decide, .token (text "0.5"), by decide, rfl, rfl⟩
      · exact ⟨by decide, by simp [Token.chunked, Params.WellFormed]⟩
    · exact ⟨by decide, by decide⟩

theorem pageRequest_readsBack : pageRequest.ReadsBack :=
  (readsBack_iff pageRequest pageRequest_wellFormed).2 pageRequest_parsed.out.2

/-- A request for the root path. -/
def rootRequest : Request where
  method := .M_GET
  uri := { Uri.empty with path := ⟨[], text "/", [], true, true⟩ }
  version := .current
  headers := ⟨[.host ⟨text "example.com", 0⟩], by decide⟩
  body := none
  parameters := []

instance rootRequest_parsed : Fact (Uri.parse (text "/") = .ok rootRequest.uri ∧
    (receiveStream ⟨rootRequest.str, false⟩ true).toOption.isNone = true) :=
  ⟨by decide +kernel⟩

/-- The root path is printed as nothing, so the version is read in its place. -/
theorem rootRequest_not_readsBack : ¬ ∀ request : Request, request.WellFormed → request.ReadsBack := by
  intro always
  have wellFormed : rootRequest.WellFormed :=
    { parsed := ⟨text "/", rootRequest_parsed.out.1⟩
      absolute := rfl
      unescaped := List.all_eq_true.1 (by decide)
      version := rfl
      host := by decide
      fields := by
        intro field member
        rw [List.mem_singleton.1 member]
        show 0 < 2 ^ 16
        decide }
  have failed := rootRequest_parsed.out.2
  obtain ⟨read, run, _⟩ := always rootRequest wellFormed
  rw [run] at failed
  cases failed

end Request

end SimpleNFast.Http
