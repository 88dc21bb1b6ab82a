/-
This file states which request heads `request_builder` reads back from the output of a request.
-/

import SimpleNFast.Construction.Http.Transmit
import SimpleNFast.Construction.Http.Message

namespace SimpleNFast.Http

/-- The reader keeps words in lower case. -/
def isLowerCase (word : Text) : Bool := Headers.lower word == word

/-- A name as it is kept. -/
def isLowerWord (word : Text) : Bool := isWord word && isLowerCase word

/-- The value of a parameter is a token or a quoted string of ASCII characters. -/
def IsParameterValue (value : Text) : Prop :=
  ∃ form : ExtensionValue, form.valid = true ∧ form.ascii = true ∧ form.spelling = value

def Params.WellFormed (parameters : Params) : Prop :=
  ∀ parameter ∈ parameters, isWord parameter.1 = true ∧ IsParameterValue parameter.2

structure Token.WellFormed (token : Token) : Prop where
  name : isWord token.name = true
  parameters : Params.WellFormed token.parameters

def Token.isLowerCase (token : Token) : Bool :=
  Http.isLowerCase token.name && token.parameters.all fun parameter => Http.isLowerCase parameter.1

namespace Field

/-- A field has a list of tokens, the host or the length of a body, and its name is in lower case. -/
def WellFormed : Field → Prop
  | .contentLength length => length < 2 ^ 64
  | .transferEncoding codings | .te codings => ∀ coding ∈ codings, coding.WellFormed
  | .trailers names => ∀ name ∈ names, isWord name = true
  | .host value => value.port < 2 ^ 16
  | .connection options => ∀ option ∈ options, validConnection option = .ok ()
  | .contentEncoding codings => ∀ coding ∈ codings, validEncoding coding = .ok ()
  | .other name values _ => isLowerWord name = true ∧ ∀ value ∈ values, isWord value = true
  | .via _ | .contentType _ | .contentLocation _ | .date _ => False

/-- The words of the field have no capitals. -/
def isLowerCase : Field → Bool
  | .transferEncoding codings | .te codings => codings.all Token.isLowerCase
  | .trailers values | .other _ values _ => values.all Http.isLowerCase
  | _ => true

end Field

/-- The last of several elements is a single character, so it is lost behind its comma. -/
def endsAlone (values : List Text) : Bool :=
  2 ≤ values.length && values.getLast?.any fun value => value.length == 1

/-- The last value of the parameters is a single character, so it is lost behind its equals sign. -/
def Params.endsShort (parameters : Params) : Bool := parameters.getLast?.any fun parameter => parameter.2.length == 1

/-- A host that needs no percent-escape. -/
def UriHost.isPlain (host : Text) : Bool := isValid host && host.all fun char => keeps (toInt char)

/-- The reader takes the whole text of the field. -/
def Field.isWhole : Field → Bool
  | .transferEncoding codings | .te codings =>
      !endsAlone (codings.map Token.str) && !codings.getLast?.any fun coding => Params.endsShort coding.parameters
  | .trailers values | .other _ values _ => !endsAlone values
  | .host value => UriHost.isPlain value.host
  | _ => true

def Field.isReadable (field : Field) : Bool := field.isLowerCase && field.isWhole

/-- The number of an escaped character is printed in decimal and read in hexadecimal. -/
def isReadableQuery (query : Text) : Bool := query.all fun char => componentKeeps (toInt char) || char < 10

namespace Request

/-- A URI whose path is absolute without escapes, the version of the library, and a host under the headers. -/
structure WellFormed (request : Request) : Prop where
  parsed : ∃ string, Uri.parse string = .ok request.uri
  absolute : request.uri.path.slashAtStart = true
  unescaped : ∀ char ∈ request.uri.path.path, UriPath.keeps (toInt char) = true
  version : request.version = .current
  host : request.headers.isSet HOST = true
  fields : ∀ field ∈ request.headers.fields, field.WellFormed

/-- The text of a request yields a request with the same head. -/
def ReadsBack (request : Request) : Prop :=
  ∃ read, receiveStream ⟨request.str, false⟩ true = .ok read ∧ read.method = request.method ∧
    read.uri.path.segments = request.uri.path.segments ∧ read.uri.query = request.uri.query ∧
    read.version = request.version ∧ read.headers.fields = request.headers.fields

/-- The request line has a target, which the reader takes, and each field is readable. -/
def isReadable (request : Request) : Bool :=
  (!request.uri.path.segments.isEmpty || !request.uri.query.isEmpty || !request.uri.fragment.isEmpty) &&
    isReadableQuery request.uri.query && (request.uri.fragment.all fun char => char < 128) &&
    request.headers.fields.all Field.isReadable

end Request

end SimpleNFast.Http
