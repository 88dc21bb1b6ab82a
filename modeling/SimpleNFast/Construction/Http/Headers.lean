/-
This file models `headers.h` and `headers.cpp`.
-/

import SimpleNFast.Construction.Http.HeaderValues

namespace SimpleNFast.Http

def CONTENT_LENGTH : Text := text "content-length"
def TRANSFER_ENCODING : Text := text "transfer-encoding"
def TE : Text := text "te"
def TRAILERS : Text := text "trailers"
def HOST : Text := text "host"
def VIA : Text := text "via"
def CONNECTION : Text := text "connection"
def CONTENT_TYPE : Text := text "content-type"
def CONTENT_ENCODING : Text := text "content-encoding"
def CONTENT_LOCATION : Text := text "content-location"
def DATE : Text := text "date"

def TRANSFER_ENCODING_CHUNKED : Text := text "chunked"

def Token.chunked : Token := ⟨TRANSFER_ENCODING_CHUNKED, []⟩

/-- Tokens are compared by their names. -/
def Token.isChunked (coding : Token) : Bool := coding.name == TRANSFER_ENCODING_CHUNKED

/-- The names whose values have a class of their own. -/
def knownNames : List Text :=
  [CONTENT_LENGTH, TRANSFER_ENCODING, TE, TRAILERS, HOST, VIA, CONNECTION, CONTENT_TYPE, CONTENT_ENCODING,
    CONTENT_LOCATION, DATE]

/-- A header field has the value class that its name asks for. -/
inductive Field where
  | contentLength (length : Nat)
  | transferEncoding (codings : List Token)
  | te (codings : List Token)
  | trailers (names : List Text)
  | host (value : HostPort)
  | via (values : List Via)
  | connection (options : List Text)
  | contentType (value : MediaType)
  | contentEncoding (codings : List Text)
  | contentLocation (value : Uri)
  | date (value : DateTime)
  | other (name : Text) (values : List Text) (unknown : name ∉ knownNames)
  deriving DecidableEq, Repr

namespace Field

def name : Field → Text
  | .contentLength _ => CONTENT_LENGTH
  | .transferEncoding _ => TRANSFER_ENCODING
  | .te _ => TE
  | .trailers _ => TRAILERS
  | .host _ => HOST
  | .via _ => VIA
  | .connection _ => CONNECTION
  | .contentType _ => CONTENT_TYPE
  | .contentEncoding _ => CONTENT_ENCODING
  | .contentLocation _ => CONTENT_LOCATION
  | .date _ => DATE
  | .other name _ _ => name

/-- The elements of a sequence are printed with commas between them. -/
def listed (values : List Text) : Text := List.intercalate (text ", ") values

def str : Field → Text
  | .contentLength length => digits 10 length
  | .transferEncoding codings | .te codings => listed (codings.map Token.str)
  | .trailers names => listed names
  | .host value => value.str
  | .via values => listed (values.map Via.str)
  | .connection options => listed options
  | .contentType value => value.str
  | .contentEncoding codings => listed codings
  | .contentLocation value => value.str
  | .date value => value.str
  | .other _ values _ => listed values

/-- The value of a field from its text, with the validation of its class; a date is the last known field. -/
def validate (name value : Text) : Except Fault Field :=
  if unknown : name ∉ knownNames then (.other name · unknown) <$> parseStrings value
  else if name = CONTENT_LENGTH then .contentLength <$> parseNumber value
  else if name = TRANSFER_ENCODING then .transferEncoding <$> parseTokens value
  else if name = TE then .te <$> parseTokens value
  else if name = TRAILERS then .trailers <$> parseStrings value
  else if name = HOST then .host <$> parseHostPort value
  else if name = VIA then .via <$> parseVias value
  else if name = CONNECTION then do
    let options ← parseStrings value
    options.forM validConnection
    pure (.connection options)
  else if name = CONTENT_TYPE then do
    let mediaType ← parseMediaType value
    validMediaType mediaType
    pure (.contentType mediaType)
  else if name = CONTENT_ENCODING then do
    let codings ← parseStrings value
    codings.forM validEncoding
    pure (.contentEncoding codings)
  else if name = CONTENT_LOCATION then .contentLocation <$> parseUri value
  else .date <$> parseDate value

/-- A sequence takes the elements of a second field with its name; a single value does not. -/
def append : Field → Field → Option Field
  | .transferEncoding codings, .transferEncoding more => some (.transferEncoding (codings ++ more))
  | .te codings, .te more => some (.te (codings ++ more))
  | .trailers names, .trailers more => some (.trailers (names ++ more))
  | .via values, .via more => some (.via (values ++ more))
  | .connection options, .connection more => some (.connection (options ++ more))
  | .contentEncoding codings, .contentEncoding more => some (.contentEncoding (codings ++ more))
  | .other name values unknown, .other _ more _ => some (.other name (values ++ more) unknown)
  | _, _ => none

end Field

/-- The fields have different names, which are in lower case when they were read or set. -/
structure Headers where
  fields : List Field
  distinct : (fields.map Field.name).Nodup
  deriving DecidableEq, Repr

namespace Headers

def empty : Headers := ⟨[], List.nodup_nil⟩

def lower (name : Text) : Text := name.map (toByte ∘ toLower ∘ toInt)

def find (headers : Headers) (name : Text) : Option Field :=
  headers.fields.find? fun field => field.name == name

/-- A field takes the place of the one with its name, or stands at the end. -/
def update (headers : Headers) (field : Field) : Headers where
  fields :=
    if (headers.find field.name).isSome then
      headers.fields.map fun old => if old.name = field.name then field else old
    else headers.fields ++ [field]
  distinct := by
    split
    · rw [List.map_map]
      have same : Field.name ∘ (fun old => if old.name = field.name then field else old) = Field.name := by
        funext old
        dsimp only [Function.comp]
        split
        · rename_i equal
          exact equal.symm
        · rfl
      rw [same]
      exact headers.distinct
    · rename_i missing
      rw [List.map_append, List.map_singleton, List.nodup_append]
      refine ⟨headers.distinct, List.nodup_singleton _, ?_⟩
      intro name member other last
      rw [List.mem_singleton] at last
      obtain ⟨old, among, rfl⟩ := List.mem_map.mp member
      rintro rfl
      rw [Option.isSome_iff_ne_none, not_not, find, List.find?_eq_none] at missing
      exact missing old among (by simpa using last)

/-- This is `remove`, which finds one field at most. -/
def remove (headers : Headers) (name : Text) : Headers where
  fields := headers.fields.filter fun field => field.name != lower name
  distinct := (List.filter_sublist.map Field.name).nodup headers.distinct

def isSet (headers : Headers) (name : Text) : Bool := !name.isEmpty && (headers.find (lower name)).isSome

/-- This is `add` of a name and a value. -/
def add (headers : Headers) (name value : Text) : Except Fault Headers := do
  if name.isEmpty then return headers
  let field ← Field.validate (lower name) value
  match headers.find (lower name) with
  | none => pure (headers.update field)
  | some target =>
      match target.append field with
      | some joined => pure (headers.update joined)
      | none => throw (.badMessage (text "header field (" ++ lower name ++ text ") occurs multiple times"))

/-- The name and the value of a header line. -/
def readLine : Scan (Text × Text) := do
  let name ← Scanner.readToken true
  if name.isEmpty then throw (.badMessage (text "HTTP header name not found"))
  if !(← Scanner.readSpecial ':') then
    throw (.badMessage (text "no ':' after HTTP header (" ++ name ++ text ")"))
  Scanner.readOptSpace
  let value ← Scanner.readAll
  Scanner.readOptSpace
  if !(← Scanner.readCrlf) then
    throw (.badMessage (text "HTTP header (" ++ name ++ text " : " ++ name ++ text ") not terminated with CRLF"))
  pure (name, value)

/-- This is `add` of a header line. -/
def addLine (headers : Headers) (line : Text) : Except Fault Headers := do
  let ((name, value), _) ← readLine (Scanner.init line)
  headers.add name value

/-- The exception of `get` for a name that is not there. -/
def missing (name : Text) : Fault := .outOfRange (text "header field name (" ++ name ++ text ") not found")

def contentLength (headers : Headers) : Except Fault Nat :=
  match headers.find CONTENT_LENGTH with
  | some (.contentLength length) => .ok length
  | _ => .error (missing CONTENT_LENGTH)

def transferEncoding (headers : Headers) : Except Fault (List Token) :=
  match headers.find TRANSFER_ENCODING with
  | some (.transferEncoding codings) => .ok codings
  | _ => .error (missing TRANSFER_ENCODING)

def isMessageChunked (headers : Headers) : Bool :=
  match headers.find TRANSFER_ENCODING with
  | some (.transferEncoding codings) => codings.any Token.isChunked
  | _ => false

def host (headers : Headers) : Except Fault HostPort :=
  match headers.find HOST with
  | some (.host value) => .ok value
  | _ => .error (missing HOST)

def connection (headers : Headers) : Except Fault (List Text) :=
  match headers.find CONNECTION with
  | some (.connection options) => .ok options
  | _ => .error (missing CONNECTION)

def closeConnection (headers : Headers) : Except Fault Bool := do
  let options ← headers.connection
  pure (options.contains connectionClose)

/-- The first letter and each letter after a hyphen are capitals. -/
def canonicalizeName : Text → Bool → Text
  | [], _ => []
  | char :: rest, capitalize =>
      (if capitalize then toByte (toUpper (toInt char)) else char) :: canonicalizeName rest (char == byte '-')

def str (headers : Headers) : Text :=
  headers.fields.flatMap fun field =>
    canonicalizeName field.name true ++ text ": " ++ field.str ++ text "\r\n"

end Headers

end SimpleNFast.Http
