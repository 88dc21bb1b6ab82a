import SimpleNFast.Proof.Com.TimeUtil
import SimpleNFast.Proof.Http.Arrivals

set_option maxRecDepth 100000

namespace SimpleNFast.Http

open Rdb (Code)

/-- A field of a response that its reader takes: also the date, and a media type without parameters. -/
def Field.Carried : Field → Prop
  | .date value => value.InRange
  | .contentType value => value.parameters = [] ∧ validMediaType value = .ok ()
  | field => field.WellFormed ∧ field.isReadable = true

namespace Response

/-- A phrase of visible characters with spaces inside. -/
def isReason (reason : Text) : Bool :=
  !reason.isEmpty && trim reason == reason &&
    reason.all fun char => isWhitespace (toInt char) || isVchar (toInt char) || isOpaque (toInt char)

/-- A response that can be sent with this payload and be read from its text. -/
structure Ready (response : Response) (payload : Payload) : Prop where
  version : response.version = .current
  status : 100 ≤ response.status.value ∧ response.status.value < 1000
  reason : isReason response.reason = true
  fields : ∀ field ∈ response.headers.fields, field.Carried
  body : response.body = payload.body
  announced : response.headers.Announce payload.data
  small : response.str.length < 2 ^ 31
  short : payload.data.length < 2 ^ 31

/-- What the receiver has of a response that was sent with this payload. -/
structure Arrives (response : Response) (payload : Payload) (read : Response) : Prop where
  version : read.version = response.version
  status : read.status = response.status
  reason : read.reason = response.reason
  headers : read.headers = payload.seen response.headers

end Response

section Fields

theorem DateTime.days_word : ∀ name ∈ days, isWord name = true := by decide

theorem DateTime.months_word : ∀ name ∈ months, isWord name = true := by decide

theorem getD_of_lt {names : List Text} {index : Nat} (less : index < names.length) :
    names.getD index [] ∈ names := by
  rw [List.getD_eq_getElem?_getD, List.getElem?_eq_getElem less]
  exact List.getElem_mem less

theorem inLine_of_digit : ∀ char, isDigit (toInt char) = true → inLine char = true := by
  apply octet_forall
  decide

/-- The text of a date begins with its weekday and ends with its zone. -/
theorem DateTime.InRange.solid {date : DateTime} (inRange : date.InRange) : Solid date.str := by
  have weekday := days_word _ (getD_of_lt inRange.dayOfWeek)
  have month := months_word _ (getD_of_lt inRange.month)
  have number (width : Nat) (value : Int) (positive : 0 ≤ value) : ∀ char ∈ padded width value, inLine char = true := by
    obtain ⟨value, rfl⟩ := Int.eq_ofNat_of_zero_le positive
    exact fun char member => inLine_of_digit char (isDigit_padded char member)
  have shape : date.str = days.getD date.dayOfWeek [] ++ ((text ", " ++ padded 2 date.day ++ [byte ' '] ++
      months.getD date.month [] ++ [byte ' '] ++ padded 4 date.year ++ [byte ' '] ++ padded 2 date.hour ++ [byte ':'] ++
      padded 2 date.minute ++ [byte ':'] ++ padded 2 date.second ++ text " ") ++ text "GMT") := by
    have zone : text " GMT" = text " " ++ text "GMT" := rfl
    rw [str, zone]
    simp only [List.append_assoc]
  rw [shape]
  refine .append (.of_word weekday) (.of_word (by decide)) (isWord_nonempty weekday) (by decide) ?_
  have punctuation : ∀ char ∈ text ", " ++ [byte ':'], inLine char = true := by decide
  have kept := (Solid.of_word month).kept
  have day := number 2 date.day (by have := inRange.day; omega)
  have year := number 4 date.year inRange.year.1
  have hour := number 2 date.hour inRange.hour.1
  have minute := number 2 date.minute inRange.minute.1
  have second := number 2 date.second inRange.second.1
  have comma : ∀ char ∈ text ", ", inLine char = true := by decide
  have space : ∀ char ∈ [byte ' '], inLine char = true := by decide
  have colon : ∀ char ∈ [byte ':'], inLine char = true := by decide
  have last : ∀ char ∈ text " ", inLine char = true := by decide
  have joined {left right : Text} (first : ∀ char ∈ left, inLine char = true)
      (others : ∀ char ∈ right, inLine char = true) : ∀ char ∈ left ++ right, inLine char = true := fun char member =>
    (List.mem_append.1 member).elim (first char) (others char)
  exact joined (joined (joined (joined (joined (joined (joined (joined (joined (joined (joined (joined comma day) space)
    kept) space) year) space) hour) colon) minute) colon) second) last

theorem Field.validate_date (value : Text) : validate DATE value = .date <$> parseDate value := by
  rw [validate, dif_neg (by decide), if_neg (by decide), if_neg (by decide), if_neg (by decide), if_neg (by decide),
    if_neg (by decide), if_neg (by decide), if_neg (by decide), if_neg (by decide), if_neg (by decide),
    if_neg (by decide)]

/-- The media types that the validation lets through. -/
theorem validMediaType_cases {value : MediaType} (plain : value.parameters = []) (valid : validMediaType value = .ok ()) :
    value = ⟨text "text", text "plain", []⟩ ∨ value = ⟨text "application", text "json", []⟩ := by
  obtain ⟨type, subtype, parameters⟩ := value
  cases plain
  rw [validMediaType] at valid
  split at valid
  · rename_i isText
    split at valid
    · cases valid
    · rename_i isPlain
      left
      rw [show type = text "text" from isText, show subtype = text "plain" from not_not.1 isPlain]
  · split at valid
    · rename_i isApplication
      split at valid
      · cases valid
      · rename_i isJson
        right
        rw [show type = text "application" from isApplication, show subtype = text "json" from not_not.1 isJson]
    · cases valid

/-- The texts of these media types are read. -/
instance parseMediaType_known : Fact (parseMediaType (text "text/plain") = .ok ⟨text "text", text "plain", []⟩ ∧
    parseMediaType (text "application/json") = .ok ⟨text "application", text "json", []⟩) :=
  ⟨by decide +kernel⟩

theorem Field.validate_contentType {value : Text} {read : MediaType} (parsed : parseMediaType value = .ok read)
    (valid : validMediaType read = .ok ()) : validate CONTENT_TYPE value = .ok (.contentType read) := by
  rw [validate, dif_neg (by decide), if_neg (by decide), if_neg (by decide), if_neg (by decide), if_neg (by decide),
    if_neg (by decide), if_neg (by decide), if_neg (by decide), if_pos rfl, parsed]
  show (validMediaType read).bind _ = _
  rw [valid]
  rfl

theorem Field.Carried.legible {field : Field} (carried : field.Carried) : field.Legible := by
  cases field with
  | date value =>
      refine ⟨knownNames_word _ (by simp [name, knownNames]), ?_, DateTime.InRange.solid carried⟩
      show validate DATE value.str = _
      rw [validate_date, parseDate, DateTime.get_str carried]
      rfl
  | contentType value =>
      have word : isLowerWord CONTENT_TYPE = true := by decide
      rcases validMediaType_cases carried.1 carried.2 with rfl | rfl
      · exact ⟨word, validate_contentType parseMediaType_known.out.1 carried.2, .of_all (by decide)⟩
      · exact ⟨word, validate_contentType parseMediaType_known.out.2 carried.2, .of_all (by decide)⟩
  | _ => exact carried.1.legible carried.2

end Fields

/-- The line of a response with this status and this phrase. -/
def statusLine (status : StatusCode) (reason : Text) : Text :=
  text "HTTP/1.1" ++ byte ' ' :: (decimal status.value ++ byte ' ' :: (reason ++ text "\r\n"))

section Line

open Scanner

variable {rest : Text} {status : StatusCode} {reason : Text}

theorem isDigit_apart : ∀ char, isDigit (toInt char) = true → isWhitespace (toInt char) = false ∧ char ≠ byte '\n' := by
  apply octet_forall
  decide

/-- A status of three digits is printed with them and read from them. -/
theorem decimal_status {value : Int} (least : 100 ≤ value) (most : value < 1000) :
    ∃ number : Nat, value = number ∧ decimal value = digits 10 number ∧ (digits 10 number).length = 3 := by
  obtain ⟨number, rfl⟩ := Int.eq_ofNat_of_zero_le (show 0 ≤ value by omega)
  refine ⟨number, rfl, if_neg (by omega), ?_⟩
  have large : 10 ≤ number := by omega
  have tens : 10 ≤ number / 10 := by omega
  rw [digits_step large, List.length_append, digits_step tens, List.length_append, digits_small (by omega)]
  rfl

end Line

namespace Response

variable {response : Response} {payload : Payload}

theorem Ready.legible (ready : response.Ready payload) : ∀ field ∈ response.headers.fields, field.Legible :=
  fun field member => (ready.fields field member).legible

/-- The text of a response begins with its line, and its headers follow. -/
theorem Ready.str_begins (ready : response.Ready payload) :
    ∃ inner, response.str = inner ++ byte '\n' :: (response.headers.str ++ text "\r\n") ∧ byte '\n' ∉ inner ∧
      inner ++ [byte '\n'] = statusLine response.status response.reason := by
  have version : Version.str .current = text "HTTP/1.1" := by decide
  have terminator : text "\r\n" = [byte '\r', byte '\n'] := rfl
  have space : text " " = [byte ' '] := rfl
  refine ⟨text "HTTP/1.1" ++ byte ' ' :: (decimal response.status.value ++ byte ' ' :: (response.reason ++ [byte '\r'])),
    ?_, ?_, ?_⟩
  · rw [str, ready.version, version, space, terminator]
    simp
  · obtain ⟨number, -, printed, -⟩ := decimal_status ready.status.1 ready.status.2
    have status : byte '\n' ∉ decimal response.status.value := by
      rw [printed]
      exact fun member => (isDigit_apart _ (isDigit_digits number _ member)).2 rfl
    have reason : byte '\n' ∉ response.reason := by
      have valid := ready.reason
      rw [isReason, Bool.and_eq_true] at valid
      exact fun member => absurd (List.all_eq_true.1 valid.2 _ member) (by decide)
    have known : byte '\n' ∉ text "HTTP/1.1" := by decide
    have blank : byte '\n' ≠ byte ' ' := by decide
    have last : byte '\n' ∉ [byte '\r'] := by decide
    simp only [List.mem_append, List.mem_cons, not_or]
    exact ⟨known, blank, status, blank, reason, by simpa using last⟩
  · rw [statusLine, terminator]
    simp

theorem Ready.sendResponse_ok (ready : response.Ready payload) :
    ∃ enough, ∀ fuel, enough ≤ fuel → ∀ written, sendResponse fuel response ⟨written, []⟩ =
      some (.ok .E_ok, ⟨written ++ (response.str ++ payload.data), []⟩) := by
  have filled : response.str ≠ [] := by
    obtain ⟨inner, shape, -⟩ := ready.str_begins
    rw [shape]
    simp
  exact sendMessage_ok filled ready.small ready.body ready.short "failed to send response and headers"

end Response

end SimpleNFast.Http
