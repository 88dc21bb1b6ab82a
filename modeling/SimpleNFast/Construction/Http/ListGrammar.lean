/-
This file states the grammar of the header values that are lists: elements with commas and optional blanks between them,
and which values of tokens, which hosts and which lists of proxies are read back from their printed form.
-/

import SimpleNFast.Construction.Http.HeaderMap
import SimpleNFast.Construction.Http.RequestHead
import SimpleNFast.Construction.Http.TextReaders
import SimpleNFast.Construction.Http.UriMerge

namespace SimpleNFast.Http

/-- Blanks that may stand around a separator. -/
def isBlank (space : Text) : Bool := space.all (isWhitespace ∘ toInt)

/-- A text of parameters with the parameters that it gives; their names have no case. -/
inductive ParametersText : Text → Params → Prop where
  | last {name before after : Text} {value : ExtensionValue} (word : isWord name = true)
      (blankBefore : isBlank before = true) (blankAfter : isBlank after = true) (valid : value.valid = true) :
      ParametersText (name ++ (before ++ byte '=' :: (after ++ value.spelling))) [(Headers.lower name, value.spelling)]
  | more {name before after ending start rest : Text} {value : ExtensionValue} {parameters : Params}
      (word : isWord name = true) (blankBefore : isBlank before = true) (blankAfter : isBlank after = true)
      (valid : value.valid = true) (blankEnding : isBlank ending = true) (blankStart : isBlank start = true)
      (others : ParametersText rest parameters) :
      ParametersText (name ++ (before ++ byte '=' :: (after ++ (value.spelling ++ (ending ++ byte ';' :: (start ++ rest))))))
        ((Headers.lower name, value.spelling) :: parameters)

/-- A text of a token with its parameters. -/
inductive TokenText : Text → Token → Prop where
  | plain {name : Text} (word : isWord name = true) : TokenText name ⟨Headers.lower name, []⟩
  | parameters {name before after rest : Text} {parameters : Params} (word : isWord name = true)
      (blankBefore : isBlank before = true) (blankAfter : isBlank after = true) (others : ParametersText rest parameters) :
      TokenText (name ++ (before ++ byte ';' :: (after ++ rest))) ⟨Headers.lower name, parameters⟩

/-- A text of a token that has no parameters. -/
inductive WordText : Text → Text → Prop where
  | word {name : Text} (word : isWord name = true) : WordText name (Headers.lower name)

/-- A text of a list with its elements; there is one at least. -/
inductive ListText {element : Type} (written : Text → element → Prop) : Text → List element → Prop where
  | last {text : Text} {value : element} (first : written text value) : ListText written text [value]
  | more {text before after rest : Text} {value : element} {values : List element} (first : written text value)
      (blankBefore : isBlank before = true) (blankAfter : isBlank after = true) (others : ListText written rest values) :
      ListText written (text ++ (before ++ byte ',' :: (after ++ rest))) (value :: values)

/-- The names whose values are lists of tokens with parameters. -/
def hasParameters (name : Text) : Bool := name == TRANSFER_ENCODING || name == TE

/-- The names whose values are lists of tokens without parameters. -/
def hasWords (name : Text) : Bool :=
  name == CONNECTION || name == CONTENT_ENCODING || name == TRAILERS || !knownNames.contains name

/-- A list with blanks around it. -/
def PaddedList {element : Type} (written : Text → element → Prop) (value : Text) : Prop :=
  ∃ front list back elements, value = front ++ (list ++ back) ∧ isBlank front = true ∧ isBlank back = true ∧
    ListText written list elements

/-- A value of a token-list header that follows the grammar. -/
def WellFormedList (name value : Text) : Prop :=
  hasParameters name = true ∧ PaddedList TokenText value ∨ hasWords name = true ∧ PaddedList WordText value

/-- Parameters with names that are words and with values that are words or quoted strings. -/
def Params.Settable (parameters : Params) : Prop :=
  ∀ parameter ∈ parameters, isWord parameter.1 = true ∧ ∃ form : ExtensionValue, form.valid = true ∧ form.spelling = parameter.2

/-- The values that can be set for the fields of tokens. -/
def Field.Settable : Field → Prop
  | .transferEncoding codings | .te codings =>
      ∀ coding ∈ codings, isLowerWord coding.name = true ∧ Params.Settable coding.parameters
  | .trailers values | .other _ values _ => ∀ value ∈ values, isWord value = true
  | .connection options => ∀ option ∈ options, validConnection option = .ok ()
  | .contentEncoding codings => ∀ coding ∈ codings, validEncoding coding = .ok ()
  | .contentType value => validMediaType value = .ok () ∧ Params.Settable value.parameters
  | _ => False

/-- The names are in lower case, and the values have ASCII characters only. -/
def Params.isPlain (parameters : Params) : Bool :=
  parameters.all fun parameter => isLowerCase parameter.1 && parameter.2.all (· < 128)

/-- Nothing of the printed value changes or is lost when it is read: neither the case of a name, nor a byte above the
ASCII characters, nor a last piece of one character behind a comma or an equals sign. -/
def Field.readsWhole : Field → Bool
  | .transferEncoding codings | .te codings =>
      (codings.all fun coding => Params.isPlain coding.parameters) && !endsAlone (codings.map Token.str) &&
        !codings.getLast?.any fun coding => Params.endsShort coding.parameters
  | .trailers values | .other _ values _ => values.all Http.isLowerCase && !endsAlone values
  | .contentType value => Params.isPlain value.parameters && !Params.endsShort value.parameters
  | _ => true

/-- A name or an IPv4 address without escapes. -/
def UriHost.isName (host : Text) : Bool := !host.isEmpty && host.all (isNameChar ∘ toInt)

namespace Via

/-- The proxy is a host, or a host that is also a scheme with a port that has no leading zeros. -/
def isPlain (value : Via) : Bool :=
  value.url == { Uri.empty with scheme := text "http", host := value.url.host, port := value.url.port } &&
    UriHost.isName value.url.host &&
    (value.url.port.isEmpty ||
      UriScheme.isValid value.url.host && digits 10 (number 10 value.url.port) == value.url.port)

/-- Behind the version there is a single character, which is lost behind the blank before it. -/
def isShort (value : Via) : Bool := value.url.host.length == 1 && value.url.port.isEmpty && value.comments.isEmpty

/-- Each entry but the last one has a comment, which keeps the comma behind the entry out of its host. -/
def readsBack : List Via → Bool
  | [] => true
  | [value] => value.isPlain && !value.isShort
  | value :: next :: rest => value.isPlain && !value.comments.isEmpty && readsBack (next :: rest)

end Via

end SimpleNFast.Http
