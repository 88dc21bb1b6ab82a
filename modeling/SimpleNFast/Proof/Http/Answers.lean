import SimpleNFast.Proof.Http.Sending

namespace SimpleNFast.Http

open Rdb (Code)

theorem decimal_length_le {value : Int} (bound : value.natAbs ≤ 2147483648) : (decimal value).length ≤ 11 := by
  have short : (digits 10 value.natAbs).length ≤ 10 := digits_length_le (by decide) (by omega)
  rw [decimal]
  split
  · rw [List.length_cons]
    omega
  · omega

namespace DateTime

theorem padded_length_le {width : Nat} {value : Int} (narrow : width ≤ 11) (bound : value.natAbs ≤ 2147483648) :
    (padded width value).length ≤ 11 := by
  have short := decimal_length_le bound
  rw [padded, List.length_append, List.length_replicate]
  omega

theorem getD_length_le {names : List Text} {bound : Nat} (short : ∀ name ∈ names, name.length ≤ bound)
    (index : Nat) : (names.getD index []).length ≤ bound := by
  rw [List.getD_eq_getElem?_getD]
  match found : names[index]? with
  | none => exact Nat.zero_le _
  | some name => exact short name (List.mem_of_getElem? found)

end DateTime

/-- The text of a date from the clock is short. -/
theorem Clock.str_length_le (now : Clock) : now.date.str.length ≤ 80 := by
  have weekday := DateTime.getD_length_le (show ∀ name ∈ DateTime.days, name.length ≤ 3 by decide)
    now.date.dayOfWeek
  have month := DateTime.getD_length_le (show ∀ name ∈ DateTime.months, name.length ≤ 3 by decide) now.date.month
  have fits : ∀ value ∈ [now.date.day, now.date.year, now.date.hour, now.date.minute, now.date.second],
      ∀ width ≤ 11, (DateTime.padded width value).length ≤ 11 :=
    fun value member width narrow => DateTime.padded_length_le narrow (now.fits value member)
  have day := fits now.date.day (by simp) 2 (by decide)
  have year := fits now.date.year (by simp) 4 (by decide)
  have hour := fits now.date.hour (by simp) 2 (by decide)
  have minute := fits now.date.minute (by simp) 2 (by decide)
  have second := fits now.date.second (by simp) 2 (by decide)
  have comma : (text ", ").length = 2 := rfl
  have zone : (text " GMT").length = 4 := rfl
  simp only [DateTime.str, List.length_append, List.length_singleton, comma, zone]
  omega

/-- The headers that `gen_error_resp` sets before the response is validated. -/
def errorHeaders (now : DateTime) : Headers :=
  ((Headers.empty.update (.date now)).update (.connection [connectionClose])).update
    (.contentType ⟨text "application", text "json", []⟩)

/-- The error response with this reason and this body. -/
def errorResponse (now : DateTime) (status : StatusCode) (phrase body : Text) : Response :=
  ⟨.current, status, phrase, validateMessage (errorHeaders now) (some (Body.fromString body)),
    some (Body.fromString body)⟩

theorem errorResponse_validate (now : DateTime) (status : StatusCode) (body : Text) :
    Response.validate ⟨.current, status, [], errorHeaders now, some (Body.fromString body)⟩ =
      status.reasonPhrase.map fun phrase => errorResponse now status phrase body := by
  rw [Response.validate]
  match status.reasonPhrase with
  | some phrase => rfl
  | none => rfl

theorem genErrorResp_eq (now : DateTime) {status : StatusCode} {message body : Text}
    (json : errorJson status message = .ok body) :
    genErrorResp now status message =
      match status.reasonPhrase with
      | some phrase => .ok (errorResponse now status phrase body)
      | none => .error .nullPointer := by
  have validated := errorResponse_validate now status body
  rw [errorHeaders] at validated
  rw [genErrorResp, json]
  simp only [Except.mapError, bind, Except.bind, validated]
  cases status.reasonPhrase with
  | some phrase => rfl
  | none => rfl

theorem errorHeaders_fields (now : DateTime) (body : Text) :
    (validateMessage (errorHeaders now) (some (Body.fromString body))).fields =
      [.date now, .connection [connectionClose], .contentType ⟨text "application", text "json", []⟩,
        .contentLength body.length] := rfl

theorem errorHeaders_str_length (now : DateTime) (body : Text) :
    (validateMessage (errorHeaders now) (some (Body.fromString body))).str.length =
      now.str.length + (digits 10 body.length).length + 77 := by
  have date : (Headers.canonicalizeName DATE true).length = 4 := rfl
  have connection : (Headers.canonicalizeName CONNECTION true).length = 10 := rfl
  have type : (Headers.canonicalizeName CONTENT_TYPE true).length = 12 := rfl
  have length : (Headers.canonicalizeName CONTENT_LENGTH true).length = 14 := rfl
  have options : (Field.listed [connectionClose]).length = 5 := rfl
  have media : (MediaType.str ⟨text "application", text "json", []⟩).length = 16 := rfl
  have colon : (text ": ").length = 2 := rfl
  have line : (text "\r\n").length = 2 := rfl
  rw [Headers.str, errorHeaders_fields]
  simp only [List.flatMap_cons, List.flatMap_nil, Field.name, Field.str, List.append_nil, List.length_append,
    date, connection, type, length, options, media, colon, line]
  omega

/-- A status that has a phrase is one of the table. -/
theorem reasonPhrase_mem {status : StatusCode} {phrase : Text} (known : status.reasonPhrase = some phrase) :
    ∃ entry ∈ StatusCode.reasons, entry.1 = status ∧ phrase = text entry.2 := by
  rw [StatusCode.reasonPhrase, Option.map_eq_some_iff] at known
  obtain ⟨literal, found, rfl⟩ := known
  obtain ⟨before, after, split, _⟩ := List.lookup_eq_some_iff.mp found
  exact ⟨(status, literal), by rw [split]; simp, rfl, rfl⟩

/-- The first text of an error response is short. -/
theorem errorResponse_str_positive (now : Clock) {status : StatusCode} {phrase body : Text}
    (known : status.reasonPhrase = some phrase) (short : body.length < 1000) :
    0 < castInt (errorResponse now.date status phrase body).str.length := by
  obtain ⟨entry, member, rfl, rfl⟩ := reasonPhrase_mem known
  have table : ∀ entry ∈ StatusCode.reasons, entry.1.value.natAbs ≤ 2147483648 ∧ (text entry.2).length ≤ 100 := by
    decide
  have date := now.str_length_le
  have number := decimal_length_le (table entry member).1
  have reason := (table entry member).2
  have count : (digits 10 body.length).length ≤ 3 := digits_length_le (by decide) short
  have version : Version.current.str.length = 8 := rfl
  have space : (text " ").length = 1 := rfl
  have line : (text "\r\n").length = 2 := rfl
  have bound : 0 < (errorResponse now.date entry.1 (text entry.2) body).str.length ∧
      (errorResponse now.date entry.1 (text entry.2) body).str.length < 2 ^ 31 := by
    simp only [Response.str, errorResponse, List.length_append, errorHeaders_str_length, version, space, line]
    omega
  rw [castInt_eq (by omega) (by omega)]
  omega

/-- A text of a string body is sent in one piece. -/
theorem transmits_fromString {data : Text} (positive : 0 < castInt data.length) :
    Transmits (Body.fromString data).chunked (Body.fromString data) := by
  have bound := castInt_le data.length
  have nonempty : 0 < data.length := by omega
  have more : (Body.fromString data).hasNext = .ok (true, .string data 0) := by
    simp [Body.fromString, Body.hasNext, nonempty]
  have taken : (Body.string data 0).next = .ok (data, .string data data.length) := by
    simp [Body.next, nonempty]
  have ended : (Body.string data data.length).hasNext = .ok (false, .string data data.length) := by
    simp [Body.hasNext]
  refine .step more taken ?_ (.done ended)
  simp [pieceFits, Body.fromString, Body.chunked, positive]

/-- The JSON text of an error is there and is short. -/
def shortJson (status : StatusCode) (message : Text) : Bool :=
  match errorJson status message with
  | .ok body => 0 < body.length && body.length < 1000
  | .error _ => false

/-- An error with a known status and a short JSON text has a response that can be sent. -/
theorem genErrorResp_short (now : Clock) {status : StatusCode} {message phrase : Text}
    (known : status.reasonPhrase = some phrase) (short : shortJson status message = true) :
    ∃ response, genErrorResp now.date status message = .ok response ∧ Sendable response := by
  rw [shortJson] at short
  match json : errorJson status message with
  | .error fault =>
      rw [json] at short
      cases short
  | .ok body =>
      rw [json] at short
      simp only [Bool.and_eq_true, decide_eq_true_eq] at short
      refine ⟨errorResponse now.date status phrase body, ?_, errorResponse_str_positive now known short.2, ?_⟩
      · rw [genErrorResp_eq _ json, known]
      · intro sent has
        cases has
        apply transmits_fromString
        rw [castInt_eq (by omega) (by omega)]
        omega

/-- The texts that the server itself sends are short. -/
instance shortJson_known : Fact ((∀ entry ∈ StatusCode.reasons, shortJson entry.1 [] = true) ∧
    shortJson .INTERNAL_SERVER_ERROR (text "failed to send response and headers: Success") = true) :=
  ⟨by decide +kernel⟩

/-- The error response that follows a response of the handler has a short JSON text. -/
theorem shortJson_empty {status : StatusCode} {phrase : Text} (known : status.reasonPhrase = some phrase) :
    shortJson status [] = true := by
  obtain ⟨entry, member, rfl, rfl⟩ := reasonPhrase_mem known
  exact shortJson_known.out.1 entry member

theorem shortJson_refused :
    shortJson .INTERNAL_SERVER_ERROR (text "failed to send response and headers: Success") = true :=
  shortJson_known.out.2

/-- What is added to a connection is never what another response delivers alone. -/
theorem delivers_unique {fuel : Nat} {response : Response} {outcome : Except Fault Code} {sent bytes : Text}
    (ran : sendResponse fuel response ⟨[], []⟩ = some (outcome, ⟨sent, []⟩)) (delivers : Delivers response bytes) :
    bytes = sent := by
  obtain ⟨other, code, again⟩ := delivers
  have same := sendResponse_unique ran again
  cases same
  rfl

theorem Delivers.sendable {response : Response} {bytes : Text} (delivers : Delivers response bytes) :
    Sendable response := by
  obtain ⟨fuel, code, ran⟩ := delivers
  exact sendResponse_ok ran

namespace Report

/-- The error response is sent after what was written. -/
theorem conclude_error {now : DateTime} {status : StatusCode} {message : Text} {response : Response}
    (isError : status.isError = true) (made : genErrorResp now status message = .ok response) {fuel : Nat}
    {responses : List Response} {written : Text} {report : Report} {wire : Wire}
    (ran : conclude now fuel responses status message ⟨written, []⟩ = some (report, wire)) :
    report.responses = responses ++ [response] ∧
      ∃ outcome sent, sendResponse fuel response ⟨[], []⟩ = some (outcome, ⟨sent, []⟩) ∧
        wire = ⟨written ++ sent, []⟩ := by
  rw [conclude, if_pos isError, made] at ran
  dsimp only at ran
  match sending : sendResponse fuel response ⟨written, []⟩ with
  | none =>
      rw [sending] at ran
      cases ran
  | some (outcome, last) =>
      obtain ⟨sent, fresh, rfl⟩ := (sendResponse_appends fuel response).result sending
      rw [sending] at ran
      cases outcome with
      | ok code =>
          cases ran
          exact ⟨rfl, _, sent, fresh, rfl⟩
      | error fault =>
          cases ran
          exact ⟨rfl, _, sent, fresh, rfl⟩

/-- Without an error response nothing more is written. -/
theorem conclude_quiet (now : DateTime) {status : StatusCode} (message : Text)
    (quiet : status.isError = false ∨ ∃ fault, genErrorResp now status message = .error fault) (fuel : Nat)
    (responses : List Response) (wire : Wire) :
    ∃ escaped, conclude now fuel responses status message wire = some (⟨responses, escaped⟩, wire) := by
  rw [conclude]
  by_cases isError : status.isError = true
  · rw [if_pos isError]
    obtain no | ⟨fault, made⟩ := quiet
    · rw [no] at isError
      cases isError
    · rw [made]
      exact ⟨_, rfl⟩
  · rw [if_neg isError]
    exact ⟨_, rfl⟩

/-- One response is what an error response delivers on a fresh connection. -/
theorem conclude_alone {now : DateTime} {status : StatusCode} {message : Text}
    (sendable : ErrorSendable now status message) (responses : List Response) :
    ∃ fuel report wire, conclude now fuel responses status message ⟨[], []⟩ = some (report, wire) ∧
      ∃ response ∈ report.responses, Delivers response wire.written := by
  obtain ⟨isError, response, made, can⟩ := sendable
  obtain ⟨fuel, code, sent, ran⟩ := can.delivers
  refine ⟨fuel, ⟨responses ++ [response], none⟩, ⟨sent, []⟩, ?_, response, by simp, fuel, code, ran⟩
  rw [conclude, if_pos isError, made]
  dsimp only
  rw [ran]

/-- After a connection has bytes, an error response is not what it delivers alone. -/
theorem conclude_after {now : DateTime} {fuel : Nat} {response delivered : Response} {status : StatusCode}
    {message written : Text} {report : Report} {wire : Wire} (nonempty : 0 < written.length)
    (ran : conclude now fuel [response] status message ⟨written, []⟩ = some (report, wire))
    (member : delivered ∈ report.responses) (delivers : Delivers delivered wire.written) :
    Delivers response wire.written := by
  have quietly : ∀ escaped, conclude now fuel [response] status message ⟨written, []⟩ =
      some (⟨[response], escaped⟩, ⟨written, []⟩) → Delivers response wire.written := by
    intro escaped quiet
    rw [quiet] at ran
    cases ran
    rw [List.mem_singleton.mp member] at delivers
    exact delivers
  cases isError : status.isError with
  | false =>
      obtain ⟨escaped, quiet⟩ := conclude_quiet now message (.inl isError) fuel [response] ⟨written, []⟩
      exact quietly escaped quiet
  | true =>
      match made : genErrorResp now status message with
      | .error fault =>
          obtain ⟨escaped, quiet⟩ := conclude_quiet now message (.inr ⟨fault, made⟩) fuel [response] ⟨written, []⟩
          exact quietly escaped quiet
      | .ok second =>
          obtain ⟨listed, outcome, sent, fresh, rfl⟩ := conclude_error isError made ran
          rw [listed, List.mem_append, List.mem_singleton, List.mem_singleton] at member
          obtain rfl | rfl := member
          · exact delivers
          · have same := congrArg List.length (delivers_unique fresh delivers)
            rw [List.length_append] at same
            omega

theorem recover_after {now : DateTime} {fuel : Nat} {response delivered : Response} {fault : Fault}
    {written : Text} {report : Report} {wire : Wire} (nonempty : 0 < written.length)
    (ran : recover now fuel [response] fault ⟨written, []⟩ = some (report, wire))
    (member : delivered ∈ report.responses) (delivers : Delivers delivered wire.written) :
    Delivers response wire.written := by
  rw [recover] at ran
  match known : caught fault with
  | some (status, message) =>
      rw [known] at ran
      exact conclude_after nonempty ran member delivers
  | none =>
      rw [known] at ran
      cases ran
      rw [List.mem_singleton.mp member] at delivers
      exact delivers

/-- An exception before any response is answered by an error response only. -/
theorem recover_fresh_iff (now : DateTime) (fault : Fault) :
    (∃ fuel report wire, recover now fuel [] fault ⟨[], []⟩ = some (report, wire) ∧
      ∃ response ∈ report.responses, Delivers response wire.written) ↔ faultAnswered now fault := by
  constructor
  · rintro ⟨fuel, report, wire, ran, response, member, delivers⟩
    rw [recover] at ran
    match known : caught fault with
    | none =>
        rw [known] at ran
        cases ran
        cases member
    | some (status, message) =>
        rw [known] at ran
        change conclude now fuel [] status message ⟨[], []⟩ = _ at ran
        cases isError : status.isError with
        | false =>
            obtain ⟨escaped, quiet⟩ := conclude_quiet now message (.inl isError) fuel [] ⟨[], []⟩
            rw [quiet] at ran
            cases ran
            cases member
        | true =>
            match made : genErrorResp now status message with
            | .error fault =>
                obtain ⟨escaped, quiet⟩ := conclude_quiet now message (.inr ⟨fault, made⟩) fuel [] ⟨[], []⟩
                rw [quiet] at ran
                cases ran
                cases member
            | .ok only =>
                obtain ⟨listed, -⟩ := conclude_error isError made ran
                rw [listed, List.nil_append, List.mem_singleton] at member
                subst member
                exact ⟨status, message, known, isError, response, made, delivers.sendable⟩
  · rintro ⟨status, message, known, sendable⟩
    obtain ⟨fuel, report, wire, ran, delivered⟩ := conclude_alone sendable []
    refine ⟨fuel, report, wire, ?_, delivered⟩
    rw [recover, known]
    exact ran

/-- The two queries throw only what no catch clause takes. -/
theorem closeConnection_uncaught {request : Request} {response : Response} {fault : Fault}
    (thrown : closeConnection request response = .error fault) : caught fault = none := by
  have query : ∀ {headers : Headers} {fault : Fault}, headers.closeConnection = .error fault →
      caught fault = none := by
    intro headers fault thrown
    rw [Headers.closeConnection, Headers.connection] at thrown
    split at thrown
    · cases thrown
    · cases thrown
      rfl
  rw [closeConnection] at thrown
  match first : request.headers.closeConnection with
  | .error fault =>
      rw [first] at thrown
      cases thrown
      exact query first
  | .ok true =>
      rw [first] at thrown
      cases thrown
  | .ok false =>
      rw [first] at thrown
      exact query thrown

end Report

/-- Without a phrase there is no error response. -/
theorem genErrorResp_unknown (now : DateTime) {status : StatusCode} (unknown : status.reasonPhrase = none)
    (message : Text) : ∃ fault, genErrorResp now status message = .error fault := by
  match json : errorJson status message with
  | .error fault =>
      refine ⟨Fault.ofJson fault, ?_⟩
      rw [genErrorResp, json]
      rfl
  | .ok body =>
      refine ⟨.nullPointer, ?_⟩
      rw [genErrorResp_eq now json, unknown]

section Handled

variable {router : Router} {io : Nio} {request : Request} {response : Response}

theorem processRequest_handled (now : DateTime) (received : Request.recvRequest io = .ok request)
    (handled : router.handle request = .ok response) (fuel : Nat) (wire : Wire) :
    Report.processRequest now router fuel io wire =
      match sendResponse fuel response wire with
      | none => none
      | some (.error fault, wire) => Report.recover now fuel [response] fault wire
      | some (.ok _, wire) =>
          match Report.closeConnection request response with
          | .error fault => Report.recover now fuel [response] fault wire
          | .ok _ => Report.conclude now fuel [response] response.status [] wire := by
  rw [Report.processRequest, received]
  dsimp only
  generalize router.handle request = outcome at handled ⊢
  subst handled
  rfl

/-- A response that cannot even be started is answered by an error response. -/
theorem answersOnce_of_refused (now : Clock) (received : Request.recvRequest io = .ok request)
    (handled : router.handle request = .ok response) (refused : castInt response.str.length ≤ 0) :
    AnswersOnce now.date router io := by
  have sendable : ErrorSendable now.date .INTERNAL_SERVER_ERROR
      (text "failed to send response and headers: Success") :=
    ⟨rfl, genErrorResp_short now rfl shortJson_refused⟩
  obtain ⟨fuel, report, wire, ran, delivered⟩ := Report.conclude_alone sendable [response]
  refine ⟨fuel, report, wire, ?_, delivered⟩
  rw [processRequest_handled _ received handled, sendResponse_refused refused]
  exact ran

/-- A response that is sent is alone when the part after the try block is quiet. -/
theorem answersOnce_of_quiet (now : DateTime) (received : Request.recvRequest io = .ok request)
    (handled : router.handle request = .ok response) (sendable : Sendable response)
    (quiet : response.status.isError = false ∨ response.status.reasonPhrase = none ∨
      ∃ fault, Report.closeConnection request response = .error fault) : AnswersOnce now router io := by
  obtain ⟨fuel, code, sent, ran⟩ := sendable.delivers
  have alone : ∃ escaped, Report.processRequest now router fuel io ⟨[], []⟩ =
      some (⟨[response], escaped⟩, ⟨sent, []⟩) := by
    rw [processRequest_handled _ received handled, ran]
    dsimp only
    match closing : Report.closeConnection request response with
    | .error fault =>
        refine ⟨some fault, ?_⟩
        dsimp only
        rw [Report.recover, Report.closeConnection_uncaught closing]
    | .ok close =>
        apply Report.conclude_quiet
        obtain no | unknown | ⟨fault, thrown⟩ := quiet
        · exact .inl no
        · exact .inr (genErrorResp_unknown now unknown [])
        · rw [closing] at thrown
          cases thrown
  obtain ⟨escaped, ended⟩ := alone
  exact ⟨fuel, _, _, ended, response, List.mem_singleton_self _, fuel, code, ran⟩

/-- A response with an error status is followed by an error response. -/
theorem not_answersOnce_of_error (now : Clock) (received : Request.recvRequest io = .ok request)
    (handled : router.handle request = .ok response) {close : Bool} {phrase : Text}
    (started : 0 < castInt response.str.length) (isError : response.status.isError = true)
    (known : response.status.reasonPhrase = some phrase)
    (closing : Report.closeConnection request response = .ok close) : ¬ AnswersOnce now.date router io := by
  rintro ⟨fuel, report, wire, ran, delivered, member, delivers⟩
  rw [processRequest_handled _ received handled] at ran
  match sending : sendResponse fuel response ⟨[], []⟩ with
  | none =>
      rw [sending] at ran
      cases ran
  | some (.error fault, later) =>
      obtain ⟨sent, rfl, nonempty⟩ := sendResponse_written started sending
      rw [sending] at ran
      obtain ⟨other, code, again⟩ := Report.recover_after nonempty ran member delivers
      have same := sendResponse_unique sending again
      cases same
  | some (.ok code, later) =>
      obtain ⟨sent, rfl, nonempty⟩ := sendResponse_written started sending
      rw [sending, closing] at ran
      dsimp only at ran
      obtain ⟨second, made, sendable⟩ := genErrorResp_short now known (shortJson_empty known)
      have first := Report.conclude_after nonempty ran member delivers
      obtain ⟨-, outcome, added, fresh, rfl⟩ := Report.conclude_error isError made ran
      obtain ⟨_, same, more⟩ := sendResponse_written sendable.1 fresh
      cases same
      have equal := congrArg List.length (delivers_unique sending first)
      rw [List.length_append] at equal
      simp only [List.length_nil] at more
      omega

/-- A body that throws leaves a part of its response on the connection. -/
theorem sendable_of_answersOnce {now : DateTime} (received : Request.recvRequest io = .ok request)
    (handled : router.handle request = .ok response) (started : 0 < castInt response.str.length)
    (once : AnswersOnce now router io) : Sendable response := by
  obtain ⟨fuel, report, wire, ran, delivered, member, delivers⟩ := once
  rw [processRequest_handled _ received handled] at ran
  match sending : sendResponse fuel response ⟨[], []⟩ with
  | none =>
      rw [sending] at ran
      cases ran
  | some (.error fault, later) =>
      obtain ⟨sent, rfl, nonempty⟩ := sendResponse_written started sending
      rw [sending] at ran
      exact (Report.recover_after nonempty ran member delivers).sendable
  | some (.ok code, later) => exact sendResponse_ok sending

theorem answersOnce_handled_iff (now : Clock) (received : Request.recvRequest io = .ok request)
    (handled : router.handle request = .ok response) :
    AnswersOnce now.date router io ↔ responseAnswered request response := by
  constructor
  · intro once
    by_cases started : 0 < castInt response.str.length
    · refine .inr ⟨sendable_of_answersOnce received handled started once, ?_⟩
      cases isError : response.status.isError with
      | false => exact .inl rfl
      | true =>
          match known : response.status.reasonPhrase with
          | none => exact .inr (.inl rfl)
          | some phrase =>
              match closing : Report.closeConnection request response with
              | .error fault => exact .inr (.inr ⟨fault, rfl⟩)
              | .ok close =>
                  exact absurd once
                    (not_answersOnce_of_error now received handled started isError known closing)
    · exact .inl (by omega)
  · rintro (refused | ⟨sendable, quiet⟩)
    · exact answersOnce_of_refused now received handled refused
    · exact answersOnce_of_quiet now.date received handled sendable quiet

end Handled

/-- A request is answered by one response exactly when its bytes and the outcome of the handler allow it. -/
theorem answersOnce_iff (now : Clock) (router : Router) (io : Nio) :
    AnswersOnce now.date router io ↔ answered now.date router io := by
  rw [answered]
  match received : Request.recvRequest io with
  | .error fault =>
      dsimp only
      rw [← Report.recover_fresh_iff, AnswersOnce]
      simp only [Report.processRequest, received]
  | .ok request =>
      dsimp only
      match handled : router.handle request with
      | .error fault =>
          dsimp only
          rw [← Report.recover_fresh_iff, AnswersOnce]
          simp only [Report.processRequest, received, handled]
      | .ok response => exact answersOnce_handled_iff now received handled

/-- A response of a handler for a resource that it does not have. -/
def refusal : Response :=
  ⟨.current, .NOT_FOUND, text "Not Found", ⟨[.connection [connectionClose]], by decide⟩, none⟩

/-- The handler of the only resource refuses every request. -/
def refusingRouter : Router := ⟨[.node (text "a") [] none [] (some fun _ => .ok refusal)]⟩

/-- The bytes of a request for this resource. -/
def closingRequest : Nio :=
  ⟨text "GET /a HTTP/1.1\r\nHost: h\r\nConnection: close\r\nContent-Length: 0\r\n\r\n", .closed⟩

/-- A date of the clock. -/
def newYear : Clock := ⟨⟨1, 1, 0, 2024, 0, 0, 0⟩, by decide⟩

instance closingRequest_received : Fact (Request.recvRequest closingRequest = .ok ⟨.M_GET,
    { Uri.empty with path := ⟨text "/a", text "/a", [text "a"], true, false⟩ }, .current,
    ⟨[.host ⟨text "h", 0⟩, .connection [connectionClose], .contentLength 0], by decide⟩, none, []⟩) :=
  ⟨by decide +kernel⟩

/-- The refusal is sent, and after it comes the error response for the same status. -/
theorem closingRequest_answered_twice : ¬ AnswersOnce newYear.date refusingRouter closingRequest := by
  have handled : refusingRouter.handle ⟨.M_GET,
      { Uri.empty with path := ⟨text "/a", text "/a", [text "a"], true, false⟩ }, .current,
      ⟨[.host ⟨text "h", 0⟩, .connection [connectionClose], .contentLength 0], by decide⟩, none, []⟩ =
        .ok refusal := rfl
  have started : 0 < castInt refusal.str.length := by decide
  exact not_answersOnce_of_error newYear closingRequest_received.out handled started rfl rfl rfl

end SimpleNFast.Http
