import SimpleNFast.Construction.Http.Exchange
import SimpleNFast.Proof.Http.Answers
import SimpleNFast.Proof.Http.RequestHead
import SimpleNFast.Proof.Http.SizedBodies
import SimpleNFast.Proof.Http.UriParts

set_option maxRecDepth 100000

namespace SimpleNFast.Http

open Rdb (Code)

/-- A field that its reader takes from a line. -/
structure Field.Legible (field : Field) : Prop where
  word : isLowerWord field.name = true
  read : Field.validate field.name field.str = .ok field
  solid : Solid field.str

theorem Field.WellFormed.legible {field : Field} (valid : field.WellFormed) (readable : field.isReadable = true) :
    field.Legible := by
  rw [isReadable, Bool.and_eq_true] at readable
  have kept := valid.kept readable.1
  obtain ⟨read, solid⟩ := validate_readable kept readable.2
  exact ⟨name_word kept, read, solid⟩

section Heads

variable {headers : Headers} {field : Field} {fuel : Nat} (kind : String) (rest : Text) (ending : Ending)

theorem Nio.readline_line {line : Text} (rest : Text) (ending : Ending) (single : byte '\n' ∉ line) :
    Nio.readline ⟨line ++ byte '\n' :: rest, ending⟩ = .ok (line ++ [byte '\n'], ⟨rest, ending⟩) :=
  Nio.readlineLoop_line rest ending single _ (by simp)

end Heads

section Payloads

variable (rest : Text) (ending : Ending) {payload : Payload}

/-- A text that is neither empty nor too long for an `int` is written as a whole. -/
theorem sendData_whole {data : Text} (filled : data ≠ []) (small : data.length < 2 ^ 31) (what : String)
    (written : Text) : sendData data what ⟨written, []⟩ = some (.ok .E_ok, ⟨written ++ data, []⟩) := by
  have positive : 0 < data.length := List.length_pos_iff.2 filled
  have whole : castInt data.length = data.length := castInt_eq (by omega) (by exact_mod_cast small)
  rw [sendData_positive (by rw [whole]; exact_mod_cast positive), whole, Int.toNat_natCast, List.take_length]

theorem pieceFits_whole {data : Text} (filled : data ≠ []) (small : data.length < 2 ^ 31) (extensions : Params) :
    pieceFits false extensions data = true := by
  have positive : 0 < data.length := List.length_pos_iff.2 filled
  rw [pieceFits, Bool.not_false, Bool.true_or, Bool.true_and, decide_eq_true_eq,
    castInt_eq (by omega) (by exact_mod_cast small)]
  exact_mod_cast positive

/-- The pieces of a body are written one after the other. -/
theorem sendPieces_drains {body last : Body} {data : Text} (drained : Drains body data last)
    (transmits : Transmits false body) (small : data.length < 2 ^ 31) :
    ∃ fuel, ∀ missing written, sendPieces false fuel body missing ⟨written, []⟩ =
      some (.ok (.E_ok, missing - data.length), ⟨written ++ data, []⟩) := by
  induction drained with
  | done none =>
      refine ⟨1, fun missing written => ?_⟩
      rw [sendPieces, none, Send.bind_ofExcept]
      simp
      rfl
  | @step body ready later last data rest more taken drained inductionHypothesis =>
      cases transmits with
      | done none =>
          rw [more] at none
          cases none
      | @step _ ready' later' data' more' taken' fits others =>
          rw [more] at more'
          cases more'
          rw [taken] at taken'
          cases taken'
          rw [List.length_append] at small
          obtain ⟨fuel, run⟩ := inductionHypothesis others (by omega)
          have positive : 0 < castInt data.length := by simpa [pieceFits] using fits
          have filled : data ≠ [] := by
            rintro rfl
            exact absurd positive (by decide)
          refine ⟨fuel + 1, fun missing written => ?_⟩
          have piece : sendPiece false ready.chunkExtensions data ⟨written, []⟩ =
              some (.ok .E_ok, ⟨written ++ data, []⟩) := by
            rw [sendPiece]
            simp only [Bool.false_eq_true, if_false]
            rw [Send.bind_ok (sendData_whole filled (by omega) _ written)]
            rfl
          rw [sendPieces, more, Send.bind_ofExcept]
          simp only [if_true]
          rw [taken, Send.bind_ofExcept, Send.bind_ok piece]
          simp only [ne_eq, not_true_eq_false, if_false, Bool.false_eq_true]
          rw [run, List.length_append, Nat.cast_add, List.append_assoc]
          congr 4
          omega

theorem transmits_file (filename : Text) (size read : Nat) (content : Text) (left : size = read + content.length) :
    Transmits false (.file ⟨filename, size, read, content, none⟩) := by
  induction count : content.length using Nat.strong_induction_on generalizing read content with
  | _ count inductionHypothesis =>
      by_cases filled : content = []
      · subst filled
        have none : (Body.file ⟨filename, size, read, [], none⟩).hasNext =
            .ok (false, .file ⟨filename, size, read, [], none⟩) := by
          simp only [Body.hasNext, left, List.length_nil, Nat.add_zero, Nat.lt_irrefl, decide_false]
        exact .done none
      · have positive : 0 < content.length := List.length_pos_iff.2 filled
        have chunk : 0 < (content.take chunkSize).length ∧ (content.take chunkSize).length ≤ chunkSize := by
          rw [List.length_take]
          have : 0 < chunkSize := by decide
          omega
        have bound : chunkSize = 65536 := rfl
        have more : (Body.file ⟨filename, size, read, content, none⟩).hasNext =
            .ok (true, .file ⟨filename, size, read, content, none⟩) := by
          have less : read < size := by omega
          simp only [Body.hasNext, less, decide_true]
        have fits := pieceFits_whole (List.length_pos_iff.1 chunk.1) (by omega)
          (Body.file ⟨filename, size, read, content, none⟩).chunkExtensions
        have parts := congrArg List.length (List.take_append_drop chunkSize content)
        rw [List.length_append] at parts
        have others := inductionHypothesis (content.drop chunkSize).length (by omega)
          (read + (content.take chunkSize).length) (content.drop chunkSize) (by omega) rfl
        exact .step more rfl fits others

/-- A payload with a body is written as its data. -/
theorem Payload.sendBody_ok {body : Body} (has : payload.body = some body) (short : payload.data.length < 2 ^ 31) :
    ∃ enough, ∀ fuel, enough ≤ fuel → ∀ written, sendBody fuel body ⟨written, []⟩ =
      some (.ok .E_ok, ⟨written ++ payload.data, []⟩) := by
  obtain ⟨plain, sized, transmits, last, drained⟩ : body.chunked = false ∧ body.length = payload.data.length ∧
      Transmits false body ∧ ∃ last, Drains body payload.data last := by
    have memory (wrap : Nat → Body) (data : Text) (small : data.length < 2 ^ 31)
        (hasNext : ∀ start, (wrap start).hasNext = .ok (decide (start < data.length), wrap start))
        (next : ∀ start, start < data.length → (wrap start).next = .ok (data, wrap (start + data.length))) :
        Transmits false (wrap 0) := by
      by_cases filled : data = []
      · have none := hasNext 0
        rw [filled] at none
        exact .done none
      · have positive : 0 < data.length := List.length_pos_iff.2 filled
        have more := hasNext 0
        rw [decide_eq_true positive] at more
        have none := hasNext (0 + data.length)
        rw [decide_eq_false (by omega)] at none
        exact .step more (next 0 positive) (pieceFits_whole filled small _) (.done none)
    cases payload with
    | none => cases has
    | buffer data =>
        cases has
        refine ⟨rfl, rfl, memory (.buffer data) data short (fun _ => rfl) fun start less => ?_,
          drains_memory (.buffer data) (fun _ => rfl) fun start less => ?_⟩ <;>
          exact if_pos less
    | string data =>
        cases has
        refine ⟨rfl, rfl, memory (.string data) data short (fun _ => rfl) fun start less => ?_,
          drains_memory (.string data) (fun _ => rfl) fun start less => ?_⟩ <;>
          exact if_pos less
    | file filename content =>
        cases has
        exact ⟨rfl, rfl, transmits_file filename content.length 0 content (by omega),
          drains_file filename content.length 0 content (by omega)⟩
  obtain ⟨enough, run⟩ := sendPieces_drains drained transmits short
  refine ⟨enough, fun fuel more written => ?_⟩
  rw [sendBody, plain, Send.bind_ok (sendPieces_extends false more body _ _ _ (run body.length written)), sized]
  simp
  rfl

theorem Iterates.drains {body last : Body} {requests : List Int} {data : Text}
    (iterates : Iterates body requests data last) : Drains body data last := by
  induction iterates with
  | done none => exact .done none
  | step more _ taken _ drained => exact .step more taken drained

end Payloads

section Targets

open Components

variable {uri later : Uri}

/-- A string that begins with a path, a query or a fragment has nothing else. -/
theorem Uri.parse_unaddressed {string : Text} (parsed : Uri.parse string = .ok later)
    (begins : string.head?.any inAuthority = false) (single : (text "//").isPrefixOf string = false) :
    ∃ decoded query fragment, TailRead (ofTail string) decoded query fragment ∧
      later = { Uri.empty with path := UriPath.normal decoded, query, fragment } := by
  rw [parse_read, Uri.read, begins, Bool.false_and, if_neg Bool.false_ne_true, Uri.readHierarchy,
    Uri.readAuthorities, cut_none single] at parsed
  exact (Uri.readTail_ok Uri.bare_empty).1 parsed

/-- The target of a request begins with a slash that stands alone, or with its query or its fragment. -/
theorem Uri.Target.unaddressed (valid : Uri.Target uri) :
    (Request.target uri).head?.any inAuthority = false ∧ (text "//").isPrefixOf (Request.target uri) = false := by
  rw [Uri.target_parts, valid.encode.2, valid.component]
  by_cases filled : uri.path.segments = []
  · rw [filled]
    by_cases query : uri.query = []
    · by_cases fragment : uri.fragment = []
      · rw [query, fragment]
        exact ⟨rfl, rfl⟩
      · rw [query, Uri.part_some '#' fragment]
        exact ⟨rfl, rfl⟩
    · rw [Uri.part_some '?' query]
      exact ⟨rfl, rfl⟩
  · have second := Uri.relative_begins valid.proper filled uri.path.slashAtEnd
      (Uri.part '?' uri.query ++ Uri.part '#' uri.fragment)
    rw [UriPath.segmentsToPath_absolute filled]
    refine ⟨rfl, ?_⟩
    rw [Bool.eq_false_iff, Ne, List.isPrefixOf_iff_prefix]
    rintro ⟨rest, same⟩
    rw [← same] at second
    exact second rfl

theorem keeps_inPath : ∀ char, UriPath.keeps (toInt char) = true → inPath char = true := by
  apply octet_forall
  decide

/-- The path of a target is the component of its path. -/
theorem Uri.Target.tail_path (valid : Uri.Target uri) : (ofTail (Request.target uri)).path = uri.path.component := by
  have kept : ∀ char ∈ uri.path.component, inPath char = true := fun char member =>
    keeps_inPath char (valid.encode.1 char member)
  have stop : (Uri.part '?' uri.query ++ Uri.part '#' uri.fragment).takeWhile inPath = [] := by
    by_cases query : uri.query = []
    · by_cases fragment : uri.fragment = []
      · rw [query, fragment]
        rfl
      · rw [query, Uri.part_some '#' fragment]
        rfl
    · rw [Uri.part_some '?' query]
      rfl
  show (Request.target uri).takeWhile inPath = _
  rw [Uri.target_parts, valid.encode.2, List.takeWhile_append_of_pos kept, stop, List.append_nil]

theorem UriPath.relative_filled {segments : List Text} (proper : ∀ segment ∈ segments, UriPath.Segment segment)
    (filled : segments ≠ []) (slashAtEnd : Bool) : UriPath.relative segments slashAtEnd ≠ [] := by
  obtain ⟨first, others, rfl⟩ := List.exists_cons_of_ne_nil filled
  obtain ⟨some, -⟩ := proper first List.mem_cons_self
  cases others with
  | nil =>
      rw [UriPath.relative_single]
      exact List.append_ne_nil_of_left_ne_nil some _
  | cons second others =>
      rw [UriPath.relative_cons]
      exact List.append_ne_nil_of_left_ne_nil some _

/-- The last segment of a path does not end with a slash. -/
theorem UriPath.relative_ends {segments : List Text} (proper : ∀ segment ∈ segments, UriPath.Segment segment)
    (filled : segments ≠ []) (slashAtEnd : Bool) :
    ((UriPath.relative segments slashAtEnd).getLast? == some (byte '/')) = slashAtEnd := by
  induction segments with
  | nil => exact absurd rfl filled
  | cons first segments inductionHypothesis =>
      have others := fun segment member => proper segment (List.mem_cons_of_mem first member)
      obtain ⟨some, -, inside⟩ := proper first List.mem_cons_self
      cases segments with
      | nil =>
          rw [UriPath.relative_single]
          cases slashAtEnd with
          | true => simp
          | false =>
              have last := inside _ (List.getLast_mem some)
              rw [UriPath.inSegment, Bool.and_eq_true, bne_iff_ne] at last
              simp only [Bool.false_eq_true, if_false, List.append_nil, List.getLast?_eq_some_getLast some]
              simpa using last.2
      | cons second segments =>
          have rest := UriPath.relative_filled others (List.cons_ne_nil _ _) slashAtEnd
          rw [UriPath.relative_cons, List.getLast?_append_of_ne_nil _ (List.cons_ne_nil _ _),
            List.getLast?_cons_of_ne_nil rest]
          exact inductionHypothesis others (List.cons_ne_nil _ _)

/-- A target that is read has the component of its path again. -/
theorem Uri.Target.component_read (valid : Uri.Target uri) (parsed : Uri.parse (Request.target uri) = .ok later)
    (segments : later.path.segments = uri.path.segments) : later.path.component = uri.path.component := by
  obtain ⟨decoded, query, fragment, read, rfl⟩ := Uri.parse_unaddressed parsed valid.unaddressed.1 valid.unaddressed.2
  have path := read.path
  rw [valid.tail_path, decodeKeeping_all valid.encode.1] at path
  cases path
  show UriPath.segmentsToPath (UriPath.normal uri.path.component).segments
    (uri.path.component.head? == some (byte '/')) (uri.path.component.getLast? == some (byte '/')) = _
  rw [show (UriPath.normal uri.path.component).segments = uri.path.segments from segments, valid.component]
  by_cases filled : uri.path.segments = []
  · rw [filled]
    rfl
  · have ends := UriPath.relative_ends valid.proper filled uri.path.slashAtEnd
    have rest := UriPath.relative_filled valid.proper filled uri.path.slashAtEnd
    rw [UriPath.segmentsToPath_absolute filled, List.head?_cons, beq_self_eq_true, List.getLast?_cons_of_ne_nil rest,
      ends, UriPath.segmentsToPath_absolute filled]

end Targets

namespace Request

variable {request : Request} {payload : Payload}

/-- The text of a request begins with its line, and its headers follow. -/
theorem WellFormed.str_begins (valid : request.WellFormed) :
    ∃ inner, request.str = inner ++ byte '\n' :: (request.headers.str ++ text "\r\n") ∧ byte '\n' ∉ inner ∧
      inner ++ [byte '\n'] = requestLine request.method (Request.target request.uri) := by
  refine ⟨_, Request.str_line request valid.version, ?_, ?_⟩
  · have method : byte '\n' ∉ request.method.str := by
      cases request.method <;> decide
    have inside : byte '\n' ∉ Request.target request.uri := fun member =>
      (isUriChar_apart _ (target_chars valid.target _ member)).2 rfl
    have tail : byte '\n' ∉ byte ' ' :: (text "HTTP/1.1" ++ [byte '\r']) := by decide
    intro member
    rw [List.mem_append, List.mem_cons, List.mem_append] at member
    obtain early | blank | among | late := member
    · exact method early
    · exact absurd blank (by decide)
    · exact inside among
    · exact tail late
  · have terminator : text "\r\n" = [byte '\r', byte '\n'] := rfl
    rw [requestLine, terminator]
    simp

/-- The line of a readable request yields its method and a URI with its path and its query, without an address. -/
theorem Ready.readLine_ok (ready : request.Ready payload) :
    ∃ uri later, readLine (Scanner.init (requestLine request.method (target request.uri))) =
        .ok ((request.method, uri, .current), later) ∧
      (uri.path.segments = request.uri.path.segments ∧ uri.path.component = request.uri.path.component ∧
        uri.query = request.uri.query) ∧ uri.host = [] ∧ uri.port = [] := by
  have valid := ready.wellFormed.target
  have readable := ready.readable
  rw [isReadable, Bool.and_eq_true] at readable
  obtain ⟨uri, later, line, segments, query⟩ := (readLine_iff request.method valid).2 readable.1
  have filled : target request.uri ≠ [] := by
    intro none
    obtain ⟨fault, failed⟩ := readLine_empty request.method
    rw [none, failed] at line
    cases line
  have parsed : Uri.parse (target request.uri) = .ok uri := by
    cases outcome : Uri.parse (target request.uri) with
    | error fault =>
        rw [readLine_refused request.method filled (target_chars valid) outcome] at line
        cases line
    | ok found =>
        obtain ⟨last, again⟩ := Http.readLine_ok request.method filled (target_chars valid) outcome
        rw [again] at line
        cases line
        rfl
  have component := valid.component_read parsed segments
  obtain ⟨_, _, _, -, address⟩ := Uri.parse_unaddressed parsed valid.unaddressed.1 valid.unaddressed.2
  exact ⟨uri, later, line, ⟨segments, component, query⟩, by rw [address]; rfl, by rw [address]; rfl⟩

end Request

section Runs

variable {sent message : Type} {ending : Ending} {bytes : sent → Text}

end Runs

/-- A head and its payload are written whole. -/
theorem sendMessage_ok {payload : Payload} {head : Text} {body : Option Body} (filled : head ≠ [])
    (small : head.length < 2 ^ 31) (same : body = payload.body) (short : payload.data.length < 2 ^ 31) (what : String) :
    ∃ enough, ∀ fuel, enough ≤ fuel → ∀ written, sendMessage what head body fuel ⟨written, []⟩ =
      some (.ok .E_ok, ⟨written ++ (head ++ payload.data), []⟩) := by
  have begun (written : Text) := sendData_whole filled small what written
  cases has : payload.body with
  | none =>
      refine ⟨0, fun fuel _ written => ?_⟩
      have empty : payload.data = [] := by
        cases payload with
        | none => rfl
        | buffer _ | string _ | file _ _ => cases has
      rw [sendMessage, Send.bind_ok (begun written), same, has, empty, List.append_nil]
      rfl
  | some body =>
      obtain ⟨enough, run⟩ := payload.sendBody_ok has short
      refine ⟨enough, fun fuel more written => ?_⟩
      rw [sendMessage, Send.bind_ok (begun written), same, has]
      simp only [ne_eq, not_true_eq_false, if_false]
      rw [run fuel more, List.append_assoc]

end SimpleNFast.Http
