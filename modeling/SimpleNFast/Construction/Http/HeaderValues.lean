/-
This file models `version`, `method`, the dates of `timeutil` and the header values of `hval`.
-/

import SimpleNFast.Construction.Http.Scanner
import SimpleNFast.Construction.Http.Uri

namespace SimpleNFast.Http

structure Version where
  protocol : Text
  major : Int
  minor : Int
  deriving DecidableEq, Repr

namespace Version

def httpProtocol : Text := text "HTTP"

/-- The version of a message that sets none. -/
def current : Version := ⟨httpProtocol, 1, 1⟩

def ofString (string : Text) : Except Fault Version := do
  let slash := string.takeWhile (· != byte '/')
  let (protocol, index) := if byte '/' ∈ string then (slash, slash.length + 1) else ([], 0)
  let invalid : Fault := .badMessage (text "invalid HTTP version (" ++ string ++ text ")")
  let major := toInt (string.getD index 0)
  if !isDigit major then throw invalid
  if string.getD (index + 1) 0 != byte '.' then throw invalid
  let minor := toInt (string.getD (index + 2) 0)
  if !isDigit minor then throw invalid
  pure ⟨protocol, major - code '0', minor - code '0'⟩

def str (version : Version) : Text :=
  (if version.protocol.isEmpty then [] else version.protocol ++ [byte '/']) ++
    decimal version.major ++ [byte '.'] ++ decimal version.minor

end Version

inductive MethodType where
  | M_GET
  | M_HEAD
  | M_POST
  | M_PUT
  | M_DELETE
  | M_CONNECT
  | M_OPTIONS
  | M_TRACE
  deriving DecidableEq, Repr

namespace MethodType

def str : MethodType → Text
  | .M_GET => text "GET"
  | .M_HEAD => text "HEAD"
  | .M_POST => text "POST"
  | .M_PUT => text "PUT"
  | .M_DELETE => text "DELETE"
  | .M_CONNECT => text "CONNECT"
  | .M_OPTIONS => text "OPTIONS"
  | .M_TRACE => text "TRACE"

def all : List MethodType := [.M_GET, .M_HEAD, .M_POST, .M_PUT, .M_DELETE, .M_CONNECT, .M_OPTIONS, .M_TRACE]

def ofString (string : Text) : Except Fault MethodType :=
  match all.find? fun method => string == method.str with
  | some method => .ok method
  | none => .error (.badMessage (text "invalid HTTP method (" ++ string ++ text ")"))

end MethodType

/-- The name is in lower case when it was read from a message. -/
structure Token where
  name : Text
  parameters : Params
  deriving DecidableEq, Repr

/-- The parameters after a token or a media type. -/
def Params.str (parameters : Params) : Text :=
  parameters.flatMap fun (name, value) =>
    byte ';' :: name ++ if value.isEmpty then [] else byte '=' :: value

def Token.str (token : Token) : Text := token.name ++ Params.str token.parameters

/-- The port zero stands for a port that is not given. -/
structure HostPort where
  host : Text
  port : Nat
  deriving DecidableEq, Repr

def HostPort.str (value : HostPort) : Text :=
  value.host ++ if value.port = 0 then [] else byte ':' :: digits 10 value.port

structure MediaType where
  type : Text
  subtype : Text
  parameters : Params
  deriving DecidableEq, Repr

def MediaType.str (value : MediaType) : Text :=
  value.type ++ byte '/' :: value.subtype ++ Params.str value.parameters

structure Via where
  ver : Version
  url : Uri
  comments : Text
  deriving DecidableEq, Repr

/-- The port is printed through its number, which cannot throw for a port that was set. -/
def Via.str (value : Via) : Text :=
  value.ver.str ++ [byte ' '] ++
  (if value.url.host.isEmpty then []
    else value.url.host ++
      if value.url.port.isEmpty then [] else byte ':' :: digits 10 (number 10 value.url.port % 2 ^ 16)) ++
  if value.comments.isEmpty then [] else byte ' ' :: value.comments

/-- The fields of a date that its text has. -/
structure DateTime where
  dayOfWeek : Nat
  day : Int
  month : Nat
  year : Int
  hour : Int
  minute : Int
  second : Int
  deriving DecidableEq, Repr

namespace DateTime

def days : List Text := ["Sun", "Mon", "Tue", "Wed", "Thu", "Fri", "Sat"].map text

def months : List Text :=
  ["Jan", "Feb", "Mar", "Apr", "May", "Jun", "Jul", "Aug", "Sep", "Oct", "Nov", "Dec"].map text

/-- This is `std::string::substr`, which throws when the position is after the end. -/
def substr (string : Text) (position count : Nat) : Except Fault Text :=
  if string.length < position then .error (.outOfRange (text "basic_string::substr"))
  else .ok ((string.drop position).take count)

def invalid : Fault := .invalidArgument (text "invalid date/time")

/-- A number with its range and the character after it. -/
def field (string : Text) (position count : Nat) (low high : Int) (after : Char) : Except Fault Int := do
  let value ← stoi (← substr string position count)
  if value < low || high < value || string.getD (position + count) 0 != byte after then throw invalid
  pure value

/-- This is `datetime::get` for the Internet message format; a read after the terminator sees a zero. -/
def get (string : Text) : Except Fault DateTime := do
  let dayOfWeek := days.idxOf (← substr string 0 3)
  if dayOfWeek = days.length || string.getD 3 0 != byte ',' || string.getD 4 0 != byte ' ' then throw invalid
  let day ← field string 5 2 1 31 ' '
  let month := months.idxOf (← substr string 8 3)
  if month = months.length || string.getD 11 0 != byte ' ' then throw invalid
  let year ← field string 12 4 0 9999 ' '
  let hour ← field string 17 2 0 23 ':'
  let minute ← field string 20 2 0 59 ':'
  let second ← field string 23 2 0 59 ' '
  if (← substr string 26 3) ≠ text "GMT" then throw invalid
  pure ⟨dayOfWeek, day, month, year, hour, minute, second⟩

/-- A number is filled with zeros to its width. -/
def padded (width : Nat) (value : Int) : Text :=
  List.replicate (width - (decimal value).length) (byte '0') ++ decimal value

def str (date : DateTime) : Text :=
  days.getD date.dayOfWeek [] ++ text ", " ++ padded 2 date.day ++ [byte ' '] ++ months.getD date.month [] ++
    [byte ' '] ++ padded 4 date.year ++ [byte ' '] ++ padded 2 date.hour ++ [byte ':'] ++
    padded 2 date.minute ++ [byte ':'] ++ padded 2 date.second ++ text " GMT"

end DateTime

namespace Scanner

/-- The URI is parsed here only for its exceptions. -/
def readUri : Scan Text := do
  let uri ← readAccepted fun next => uriReservedCharacter next || uriUnreservedCharacter next || next == code '%'
  if uri.isEmpty then pure []
  else
    let _ ← (Uri.parse uri : Except Fault Uri)
    pure uri

end Scanner

open Scanner

/-- The functions `parse` of a comma-separated list differ in what they read for one element. -/
def parseList {element : Type} (read : Scan element) : Nat → Scan (List element)
  | 0 => pure []
  | fuel + 1 => do
      let first ← read
      readOptSpace
      if ← readSpecial ',' then
        readOptSpace
        let rest ← parseList read fuel
        pure (first :: rest)
      else pure [first]

/-- A list that is empty has no elements, and each element takes a character at least. -/
def parseAll {element : Type} (read : Scan element) (string : Text) : Except Fault (List element) :=
  if string.isEmpty then .ok []
  else (parseList read (string.length + 1) (Scanner.init string)).map Prod.fst

def parseNumber (string : Text) : Except Fault Nat :=
  if !string.all (isDigit ∘ toInt) then
    .error (.badMessage (text "incorrect number (" ++ string ++ text ") specified"))
  else if string.isEmpty then .error (.invalidArgument (text "stoull"))
  else if 2 ^ 64 ≤ number 10 string then .error (.outOfRange (text "stoull"))
  else .ok (number 10 string)

/-- One element of a list of strings in the text `string`. -/
def readString (string : Text) : Scan Text := do
  let token ← readToken true
  if token.isEmpty then throw (.badMessage (text "no token found in (" ++ string ++ text ")"))
  pure token

def parseStrings (string : Text) : Except Fault (List Text) := parseAll (readString string) string

def readTokenValue (string : Text) : Scan Token := do
  let name ← readString string
  readOptSpace
  if ← readSpecial ';' then
    let parameters ← readParameters
    pure ⟨name, parameters⟩
  else pure ⟨name, []⟩

def parseTokens (string : Text) : Except Fault (List Token) := parseAll (readTokenValue string) string

/-- The exception for a URI becomes the one for a message. -/
def catchBadUri {value : Type} : Except Fault value → Except Fault value
  | .error (.badUri what) => .error (.badMessage what)
  | result => result

def parseUri (string : Text) : Except Fault Uri := catchBadUri (Uri.parse string)

def parseHostPort (string : Text) : Except Fault HostPort := catchBadUri do
  let uri ← Uri.parse (text "http://" ++ string)
  if uri.host.isEmpty then throw (.badMessage (text "invalid host string specified: " ++ string))
  if uri.port.isEmpty then pure ⟨uri.host, 0⟩
  else
    let port ← UriPort.numericPort uri.port
    pure ⟨uri.host, port⟩

def readMediaType : Scan MediaType := do
  let type ← readToken true
  if type.isEmpty then throw (.badMessage (text "no media type found"))
  if !(← readSpecial '/') then throw (.badMessage (text "media type is not followed by '/'"))
  let subtype ← readToken true
  if subtype.isEmpty then throw (.badMessage (text "no media subtype found"))
  readOptSpace
  if ← readSpecial ';' then
    readOptSpace
    let parameters ← readParameters
    pure ⟨type, subtype, parameters⟩
  else pure ⟨type, subtype, []⟩

def parseMediaType (string : Text) : Except Fault MediaType :=
  (readMediaType (Scanner.init string)).map Prod.fst

def readVia : Scan Via := do
  readOptSpace
  let version ← readVersion
  if version.isEmpty then throw (.badMessage (text "no protocol/version found"))
  let ver ← (Version.ofString version : Except Fault Version)
  if !(← readSpace) then throw (.badMessage (text "no space after (" ++ ver.str ++ text ")"))
  let uri ← readUri
  if uri.isEmpty then throw (.badMessage (text "no URI found"))
  let url ← (Uri.parse (text "http://" ++ uri) : Except Fault Uri)
  let _ ← readSpace
  let comments ← readComments
  pure ⟨ver, url, comments.getD []⟩

def parseVias (string : Text) : Except Fault (List Via) := parseAll readVia string

/-- The exception `std::invalid_argument` becomes the one for a message. -/
def parseDate (string : Text) : Except Fault DateTime :=
  match DateTime.get string with
  | .error (.invalidArgument what) => .error (.badMessage what)
  | result => result

def connectionClose : Text := text "close"

def validConnection (option : Text) : Except Fault Unit :=
  if option ∈ [connectionClose, text "keep-alive", text "upgrade"] then .ok ()
  else .error (.notImplemented (text "connection option " ++ option ++ text " is not implemented"))

def validMediaType (value : MediaType) : Except Fault Unit :=
  let unsupported : Except Fault Unit := .error (.exception (text "subtype " ++ value.subtype ++
    text " is not supported for type " ++ value.type) .UNSUPPORTED_MEDIA_TYPE)
  if value.type = text "text" then
    if value.subtype ≠ text "plain" then unsupported else .ok ()
  else if value.type = text "application" then
    if value.subtype ≠ text "json" then unsupported else .ok ()
  else .error (.exception (text "type " ++ value.type ++ text " is not supported") .UNSUPPORTED_MEDIA_TYPE)

def validEncoding (coding : Text) : Except Fault Unit :=
  if coding ∈ ["compress", "x-compress", "gzip", "x-gzip", "deflate"].map text then .ok ()
  else .error (.notImplemented (text "content-encoding " ++ coding ++ text " is not implemented"))

end SimpleNFast.Http
