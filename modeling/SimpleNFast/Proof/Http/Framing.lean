import SimpleNFast.Construction.Http.Framing
import SimpleNFast.Proof.Http.ChunkedDecoding

namespace SimpleNFast.Http

namespace Headers

variable (headers : Headers)

theorem find_name {name : Text} {field : Field} (found : headers.find name = some field) : field.name = name := by
  have same := List.find?_some found
  exact beq_iff_eq.mp same

theorem find_replaced (field : Field) (name : Text) (fields : List Field) :
    (fields.map fun old => if old.name = field.name then field else old).find? (fun old => old.name == name) =
      if name = field.name then (fields.find? fun old => old.name == name).map fun _ => field
      else fields.find? fun old => old.name == name := by
  induction fields with
  | nil => simp
  | cons first rest inductionHypothesis =>
      rw [List.map_cons, List.find?_cons, List.find?_cons, inductionHypothesis]
      by_cases asked : name = field.name
      · by_cases same : first.name = field.name
        · simp [asked, same]
        · have other : (first.name == field.name) = false := beq_eq_false_iff_ne.mpr same
          simp [asked, same, other]
      · by_cases same : first.name = field.name
        · have other : (field.name == name) = false := beq_eq_false_iff_ne.mpr fun equal => asked equal.symm
          simp [asked, same, other]
        · simp [asked, same]

theorem find_update (field : Field) (name : Text) :
    (headers.update field).find name = if name = field.name then some field else headers.find name := by
  rw [find, update]
  dsimp only
  by_cases present : (headers.find field.name).isSome
  · rw [if_pos present, find_replaced]
    by_cases asked : name = field.name
    · obtain ⟨old, found⟩ := Option.isSome_iff_exists.mp present
      rw [find] at found
      rw [if_pos asked, if_pos asked, asked, found]
      rfl
    · rw [if_neg asked, if_neg asked, find]
  · rw [if_neg present, List.find?_append]
    rw [Option.isSome_iff_ne_none, not_not, find] at present
    by_cases asked : name = field.name
    · rw [if_pos asked, asked, present]
      simp
    · have other : (field.name == name) = false := beq_eq_false_iff_ne.mpr fun equal => asked equal.symm
      rw [if_neg asked, find]
      simp [other]

theorem find_remove (removed name : Text) :
    (headers.remove removed).find name = if name = lower removed then none else headers.find name := by
  rw [find, remove, List.find?_filter]
  by_cases asked : name = lower removed
  · rw [if_pos asked, List.find?_eq_none]
    intro field _
    simp [asked]
  · rw [if_neg asked, find]
    congr 1
    funext field
    by_cases same : field.name = name
    · simp [same, asked]
    · simp [same]

/-- A field under this name has the class of the name. -/
theorem find_transferEncoding {field : Field} (found : headers.find TRANSFER_ENCODING = some field) :
    ∃ codings, field = .transferEncoding codings := by
  have same := headers.find_name found
  cases field with
  | transferEncoding codings => exact ⟨codings, rfl⟩
  | other name values unknown =>
      change name = TRANSFER_ENCODING at same
      subst same
      exact absurd (by decide) unknown
  | _ => exact absurd same (by rw [Field.name]; decide)

theorem codings_eq_of_find {codings : List Token} (found : headers.find TRANSFER_ENCODING = some (.transferEncoding codings)) :
    headers.transferEncoding = .ok codings ∧ headers.codings = codings := by
  have given : headers.transferEncoding = .ok codings := by
    rw [transferEncoding, found]
  exact ⟨given, by rw [Headers.codings, given]; rfl⟩

theorem codings_of_none (missing : headers.find TRANSFER_ENCODING = none) :
    headers.transferEncoding = .error (Headers.missing TRANSFER_ENCODING) ∧ headers.codings = [] := by
  have given : headers.transferEncoding = .error (Headers.missing TRANSFER_ENCODING) := by
    rw [transferEncoding, missing]
  exact ⟨given, by rw [Headers.codings, given]; rfl⟩

/-- The codings depend only on the field that holds them. -/
theorem codings_congr {other : Headers} (same : headers.find TRANSFER_ENCODING = other.find TRANSFER_ENCODING) :
    headers.codings = other.codings := by
  rw [codings, codings, transferEncoding, transferEncoding, same]

theorem codings_update (codings : List Token) : (headers.update (.transferEncoding codings)).codings = codings := by
  refine (codings_eq_of_find _ ?_).2
  rw [find_update]
  exact if_pos rfl

theorem codings_update_contentLength (length : Nat) :
    (headers.update (.contentLength length)).codings = headers.codings := by
  apply codings_congr
  rw [find_update, Field.name]
  exact if_neg (by decide)

theorem codings_remove : (headers.remove TRANSFER_ENCODING).codings = [] := by
  refine (codings_of_none _ ?_).2
  rw [find_remove]
  exact if_pos (by decide)

theorem find_remove_contentLength :
    (headers.remove CONTENT_LENGTH).find TRANSFER_ENCODING = headers.find TRANSFER_ENCODING := by
  rw [find_remove]
  exact if_neg (by decide)

theorem isSet_contentLength : headers.isSet CONTENT_LENGTH = (headers.find CONTENT_LENGTH).isSome := by
  have lowered : lower CONTENT_LENGTH = CONTENT_LENGTH := by decide
  rw [isSet, lowered]
  rfl

theorem contentLength_update (length : Nat) : (headers.update (.contentLength length)).contentLength = .ok length := by
  rw [contentLength, find_update, Field.name, if_pos rfl]

end Headers

section Validation

variable (headers : Headers) {body : Body}

/-- The codings of a message with a chunked body get `chunked` at the end where it is missing. -/
theorem codings_of_chunked (chunked : body.chunked = true) :
    (validateLengthChunkiness headers body).codings =
      if headers.codings.any Token.isChunked then headers.codings else headers.codings ++ [Token.chunked] := by
  have kept := headers.find_remove_contentLength
  have same : (headers.remove CONTENT_LENGTH).codings = headers.codings := Headers.codings_congr _ kept
  rw [validateLengthChunkiness, if_pos chunked]
  dsimp only
  cases found : headers.find TRANSFER_ENCODING with
  | none =>
      have given := Headers.codings_of_none _ (kept.trans found)
      rw [given.1]
      dsimp only
      rw [Headers.codings_update, ← same, given.2]
      rfl
  | some field =>
      obtain ⟨codings, rfl⟩ := headers.find_transferEncoding found
      have given := Headers.codings_eq_of_find _ (kept.trans found)
      rw [given.1, ← same, given.2]
      dsimp only
      split
      · exact given.2
      · exact Headers.codings_update _ _

/-- The codings of a message with another body lose the first `chunked`. -/
theorem codings_of_plain (plain : body.chunked = false) :
    (validateLengthChunkiness headers body).codings = headers.codings.eraseP Token.isChunked := by
  rw [validateLengthChunkiness, if_neg (by rw [plain]; decide)]
  dsimp only
  rw [Headers.codings_update_contentLength]
  cases found : headers.find TRANSFER_ENCODING with
  | none =>
      have given := headers.codings_of_none found
      rw [given.1]
      dsimp only
      rw [given.2]
      rfl
  | some field =>
      obtain ⟨codings, rfl⟩ := headers.find_transferEncoding found
      have given := headers.codings_eq_of_find found
      rw [given.1, given.2]
      dsimp only
      split
      · split
        · rename_i empty
          rw [Headers.codings_remove, List.isEmpty_iff.mp empty]
        · exact Headers.codings_update _ _
      · rename_i absent
        have without : ∀ coding ∈ codings, ¬ coding.isChunked = true := by
          simpa using absent
        rw [given.2, List.eraseP_of_forall_not without]

theorem length_of_chunked (chunked : body.chunked = true) :
    (validateLengthChunkiness headers body).isSet CONTENT_LENGTH = false := by
  have removed : (headers.remove CONTENT_LENGTH).find CONTENT_LENGTH = none := by
    rw [Headers.find_remove]
    exact if_pos (by decide)
  have updated (codings : List Token) :
      ((headers.remove CONTENT_LENGTH).update (.transferEncoding codings)).find CONTENT_LENGTH = none := by
    rw [Headers.find_update, removed, Field.name]
    exact if_neg (by decide)
  rw [Headers.isSet_contentLength, validateLengthChunkiness, if_pos chunked]
  dsimp only
  split
  · split
    · rw [removed]
      rfl
    · rw [updated]
      rfl
  · rw [updated]
    rfl

theorem length_of_plain (plain : body.chunked = false) :
    (validateLengthChunkiness headers body).contentLength = .ok body.length := by
  rw [validateLengthChunkiness, if_neg (by rw [plain]; decide)]
  exact Headers.contentLength_update _ _

end Validation

/-- The pieces of a file are its whole content. -/
theorem drains_file (filename : Text) (size read : Nat) (rest : Text) (left : size = read + rest.length) :
    ∃ last, Drains (.file ⟨filename, size, read, rest, none⟩) rest last := by
  induction step : rest.length using Nat.strong_induction_on generalizing read rest with
  | _ length inductionHypothesis =>
      cases rest with
      | nil =>
          have finished : ¬ read < size := by
            rw [List.length_nil] at left
            omega
          have none : (Body.file ⟨filename, size, read, [], none⟩).hasNext =
              .ok (false, .file ⟨filename, size, read, [], none⟩) := by
            rw [Body.hasNext]
            dsimp only
            rw [decide_eq_false finished]
          exact ⟨_, .done none⟩
      | cons char rest =>
          have positive : 0 < chunkSize := by decide
          have shorter : ((char :: rest).drop chunkSize).length < length := by
            rw [List.length_drop, List.length_cons]
            rw [List.length_cons] at step
            omega
          have next : size = read + ((char :: rest).take chunkSize).length + ((char :: rest).drop chunkSize).length := by
            rw [Nat.add_assoc, ← List.length_append, List.take_append_drop, left]
          obtain ⟨last, drains⟩ := inductionHypothesis _ shorter _ _ next rfl
          have more : (Body.file ⟨filename, size, read, char :: rest, none⟩).hasNext =
              .ok (true, .file ⟨filename, size, read, char :: rest, none⟩) := by
            have less : read < size := by
              rw [List.length_cons] at left
              omega
            rw [Body.hasNext]
            dsimp only
            rw [decide_eq_true less]
          refine ⟨last, ?_⟩
          have whole := Drains.step more rfl drains
          rwa [List.take_append_drop] at whole

/-- A body class that hands its calls to a stream. -/
structure Streams {source : Type} (input : Input source) (wrap : StreamSource source → Body) : Prop where
  hasNext : ∀ stream, (wrap stream).hasNext = (stream.hasNext input).map fun result => (result.1, wrap result.2)
  next : ∀ stream, (wrap stream).next = (stream.next input).map fun result => (result.1, wrap result.2)

theorem socket_streams : Streams socketInput Body.socket := ⟨fun _ => rfl, fun _ => rfl⟩

theorem istream_streams : Streams istreamInput Body.istream := ⟨fun _ => rfl, fun _ => rfl⟩

section Streams

variable {source : Type} {input : Input source} {wrap : StreamSource source → Body} (streams : Streams input wrap)

include streams

/-- A stream body of a known length delivers at least the bytes that are missing. -/
theorem stream_delivers {body last : Body} {data : Text} (drained : Drains body data last) :
    ∀ stream, body = wrap stream → stream.chunked = false → stream.size ≤ stream.read + data.length := by
  induction drained with
  | done none =>
      rintro stream rfl plain
      by_contra less
      rw [List.length_nil] at less
      rw [streams.hasNext, StreamSource.hasNext, if_pos (by omega)] at none
      cases none
  | @step body ready later last data rest more taken _ inductionHypothesis =>
      rintro stream rfl plain
      rw [streams.hasNext, StreamSource.hasNext, plain] at more
      split at more
      · cases more
        rw [streams.next] at taken
        cases moved : stream.next input with
        | error fault =>
            rw [moved] at taken
            cases taken
        | ok result =>
            obtain ⟨piece, final⟩ := result
            rw [moved] at taken
            cases taken
            obtain ⟨left, -, size, count, kind, -⟩ := next_inversion moved
            have tail := inductionHypothesis final rfl (kind.trans plain)
            rw [List.length_append]
            dsimp only at size count tail ⊢
            omega
      · cases more

/-- A stream body of a known length announces zero bytes, which is right when it has none. -/
theorem stream_length_iff (from_ : source) (length : Nat) :
    (∃ data last, Drains (wrap ⟨from_, length, 0, false, []⟩) data last ∧ 0 = data.length) ↔ length = 0 := by
  constructor
  · rintro ⟨data, last, drains, empty⟩
    have bound := stream_delivers streams drains _ rfl rfl
    dsimp only at bound
    omega
  · rintro rfl
    have none : (wrap ⟨from_, 0, 0, false, []⟩).hasNext = .ok (false, wrap ⟨from_, 0, 0, false, []⟩) := by
      rw [streams.hasNext]
      rfl
    exact ⟨[], _, .done none, rfl⟩

end Streams

/-- A body in memory delivers its data in one piece. -/
theorem drains_memory (wrap : Nat → Body) {data : Text}
    (hasNext : ∀ start, (wrap start).hasNext = .ok (decide (start < data.length), wrap start))
    (next : ∀ start, start < data.length → (wrap start).next = .ok (data, wrap (start + data.length))) :
    ∃ last, Drains (wrap 0) data last := by
  have ended : (wrap (0 + data.length)).hasNext = .ok (false, wrap (0 + data.length)) := by
    rw [hasNext, decide_eq_false (by omega)]
  cases data with
  | nil => exact ⟨_, .done ended⟩
  | cons char data =>
      have positive : 0 < (char :: data).length := Nat.succ_pos _
      have more : (wrap 0).hasNext = .ok (true, wrap 0) := by
        rw [hasNext, decide_eq_true positive]
      have drains := Drains.step more (next 0 positive) (.done ended)
      rw [List.append_nil] at drains
      exact ⟨_, drains⟩

/-- A body that is not chunked delivers the bytes of its `length` unless it is a stream with some bytes. -/
theorem delivers_length_iff (factory : BodyFactory) (plain : factory.make.chunked = false) :
    (∃ data last, Drains factory.make data last ∧ factory.make.length = data.length) ↔ factory.streamLength = 0 := by
  cases factory with
  | fromBuffer data =>
      obtain ⟨last, drains⟩ := drains_memory (Body.buffer data) (fun start => rfl) (fun start less => if_pos less)
      exact iff_of_true ⟨data, last, drains, rfl⟩ rfl
  | fromString data =>
      obtain ⟨last, drains⟩ := drains_memory (Body.string data) (fun start => rfl) (fun start less => if_pos less)
      exact iff_of_true ⟨data, last, drains, rfl⟩ rfl
  | fromFile filename content =>
      obtain ⟨last, drains⟩ := drains_file filename content.length 0 content (by omega)
      exact iff_of_true ⟨content, last, drains, rfl⟩ rfl
  | fromFunctor calls => cases plain
  | fromIstream is => cases plain
  | fromSocket io => cases plain
  | fromIstreamSized is length => exact stream_length_iff istream_streams is length
  | fromSocketSized io length => exact stream_length_iff socket_streams io length

theorem countP_eraseP (codings : List Token) :
    (codings.eraseP Token.isChunked).countP Token.isChunked = codings.countP Token.isChunked - 1 := by
  induction codings with
  | nil => rfl
  | cons first rest inductionHypothesis =>
      cases chunked : first.isChunked with
      | true => simp [chunked]
      | false => simp [chunked, inductionHypothesis]

/-- A message with a chunked body is framed when `chunked` is nowhere or only at the end. -/
theorem framed_chunked_iff (headers : Headers) {body : Body} (chunked : body.chunked = true) :
    Framed (validateLengthChunkiness headers body) body ↔
      headers.codings.countP Token.isChunked = 0 ∨
        (headers.codings.countP Token.isChunked = 1 ∧ headers.codings.getLast?.any Token.isChunked = true) := by
  have notLength : ¬ FramesLength (validateLengthChunkiness headers body) body := by
    intro frames
    rw [frames.chunked] at chunked
    cases chunked
  have codings := codings_of_chunked headers chunked
  have single : Framed (validateLengthChunkiness headers body) body ↔
      FramesChunked (validateLengthChunkiness headers body) body := by
    simp [Framed, Xor, notLength]
  rw [single]
  cases among : headers.codings.any Token.isChunked with
  | false =>
      have zero : headers.codings.countP Token.isChunked = 0 := by
        rw [List.countP_eq_zero]
        simpa using among
      rw [among, if_neg Bool.false_ne_true] at codings
      refine iff_of_true ⟨chunked, ?_, ?_, length_of_chunked headers chunked⟩ (.inl zero)
      · rw [codings, List.countP_append, zero]
        rfl
      · rw [codings, List.getLast?_concat]
        rfl
  | true =>
      have positive : headers.codings.countP Token.isChunked ≠ 0 := by
        rw [ne_eq, List.countP_eq_zero]
        simpa using among
      rw [among, if_pos rfl] at codings
      constructor
      · intro frames
        exact .inr ⟨codings ▸ frames.once, codings ▸ frames.last⟩
      · rintro (zero | ⟨once, last⟩)
        · exact absurd zero positive
        · exact ⟨chunked, by rw [codings]; exact once, by rw [codings]; exact last, length_of_chunked headers chunked⟩

/-- A message with another body is framed when `chunked` is there once at most and the length is right. -/
theorem framed_length_iff (headers : Headers) (factory : BodyFactory) (plain : factory.make.chunked = false) :
    Framed (validateLengthChunkiness headers factory.make) factory.make ↔
      headers.codings.countP Token.isChunked ≤ 1 ∧ factory.streamLength = 0 := by
  have notChunked : ¬ FramesChunked (validateLengthChunkiness headers factory.make) factory.make := by
    intro frames
    rw [frames.chunked] at plain
    cases plain
  have single : Framed (validateLengthChunkiness headers factory.make) factory.make ↔
      FramesLength (validateLengthChunkiness headers factory.make) factory.make := by
    simp [Framed, Xor, notChunked]
  have codings := codings_of_plain headers plain
  have length := length_of_plain headers plain
  rw [single, ← delivers_length_iff factory plain]
  constructor
  · intro frames
    have none := frames.none
    obtain ⟨data, last, drains, given⟩ := frames.length
    rw [codings, countP_eraseP] at none
    rw [length] at given
    exact ⟨by omega, data, last, drains, Except.ok.inj given⟩
  · rintro ⟨once, data, last, drains, given⟩
    refine ⟨plain, ?_, data, last, drains, ?_⟩
    · rw [codings, countP_eraseP]
      omega
    · rw [length, given]

/-- Validation frames a message exactly when its codings and the kind of its body allow it. -/
theorem framed_iff (factory : BodyFactory) :
    (∀ request after : Request, request.body = some factory.make → request.validate = .ok after →
      (Framed after.headers factory.make ↔ framesAfterwards request.headers factory)) ∧
    ∀ response after : Response, response.body = some factory.make → response.validate = some after →
      (Framed after.headers factory.make ↔ framesAfterwards response.headers factory) := by
  have frames (headers : Headers) : Framed (validateLengthChunkiness headers factory.make) factory.make ↔
      framesAfterwards headers factory := by
    rw [framesAfterwards]
    cases chunked : factory.make.chunked with
    | true => exact framed_chunked_iff headers chunked
    | false => exact framed_length_iff headers factory chunked
  constructor
  · intro request after made validated
    rw [Request.validate] at validated
    cases checked : request.validateHost with
    | error fault =>
        rw [checked] at validated
        cases validated
    | ok _ =>
        rw [checked] at validated
        cases validated
        dsimp only
        rw [made]
        exact frames request.headers
  · intro response after made validated
    have headers : after.headers = validateMessage response.headers response.body := by
      rw [Response.validate] at validated
      split at validated
      all_goals
        obtain ⟨reason, -, same⟩ := Option.bind_eq_some_iff.mp validated
        cases same
        rfl
    rw [headers, made]
    exact frames response.headers

/-- A response with a string and a request with a functor. -/
def stringResponse : Response := ⟨.current, .OK, [], .empty, some (Body.fromString (text "a"))⟩

def functorRequest : Request :=
  ⟨.M_POST, .empty, .current, ⟨[.host ⟨text "h", 0⟩], by decide⟩, some (Body.fromFunctor []), []⟩

theorem stringResponse_functorRequest_framed :
    (∃ after, stringResponse.validate = some after ∧ Framed after.headers (Body.fromString (text "a"))) ∧
    ∃ after, functorRequest.validate = .ok after ∧ Framed after.headers (Body.fromFunctor []) := by
  constructor
  · refine ⟨_, rfl, ((framed_iff (.fromString (text "a"))).2 stringResponse _ rfl rfl).mpr ?_⟩
    exact ⟨Nat.zero_le 1, rfl⟩
  · refine ⟨_, rfl, ((framed_iff (.fromFunctor [])).1 functorRequest _ rfl rfl).mpr ?_⟩
    exact .inl rfl

/-- The bytes of a request with a body of one byte. -/
def oneByteRequest : Nio :=
  ⟨text "POST / HTTP/1.1\r\nHost: h\r\nContent-Length: 1\r\n\r\na", .closed⟩

instance oneByteRequest_received : Fact (Request.receive oneByteRequest =
    .ok ⟨.M_POST, { Uri.empty with path := ⟨[], text "/", [], true, true⟩ }, .current,
      ⟨[.host ⟨text "h", 0⟩, .contentLength 1], by decide⟩, some (Body.fromSocketSized ⟨text "a", .closed⟩ 1), []⟩) :=
  ⟨by decide +kernel⟩

/-- The request arrives with a length of one, and building it makes this length zero. -/
theorem oneByteRequest_not_framed :
    ∃ request after body, Request.receive oneByteRequest = .ok request ∧ request.headers.contentLength = .ok 1 ∧
      request.validate = .ok after ∧ after.headers.contentLength = .ok 0 ∧ after.body = some body ∧
      ¬ Framed after.headers body := by
  refine ⟨_, _, _, oneByteRequest_received.out, rfl, rfl, rfl, rfl, ?_⟩
  have never := framed_length_iff ⟨[.host ⟨text "h", 0⟩, .contentLength 1], by decide⟩
    (.fromSocketSized ⟨text "a", .closed⟩ 1) rfl
  intro framed
  exact absurd (never.mp framed).2 (by decide)

end SimpleNFast.Http
