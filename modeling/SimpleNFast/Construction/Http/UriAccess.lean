/-
This file models the parser of a URI with its indices: each read of a character is checked,
each loop has a bound on its passes, and each conversion may throw.
-/

import SimpleNFast.Construction.Http.Uri
import SimpleNFast.Library.Loops

namespace SimpleNFast.Http

/-- An exception ends a program, or a read outside of a string, or a loop that does not end. -/
inductive Halt where
  | fault (fault : Fault)
  | outside
  | running
  deriving DecidableEq, Repr

abbrev Checked (value : Type) : Type := Except Halt value

namespace Checked

def ofFault {value : Type} (program : Except Fault value) : Checked value := program.mapError .fault

/-- The operator `[]` may read the terminator of a string, and no index after it. -/
def charAt (string : Text) (index : Nat) : Checked UInt8 :=
  if index ≤ string.length then .ok (string.getD index 0) else .error .outside

def front (string : Text) : Checked UInt8 := if string.isEmpty then .error .outside else charAt string 0

def back (string : Text) : Checked UInt8 :=
  if string.isEmpty then .error .outside else charAt string (string.length - 1)

def substr (string : Text) (start count : Nat) : Checked Text :=
  if start ≤ string.length then .ok ((string.drop start).take count)
  else .error (.fault (.outOfRange (text "basic_string::substr")))

/-- Without a count the rest of the string is taken. -/
def substrFrom (string : Text) (start : Nat) : Checked Text := substr string start string.length

def findFirstOf (string : Text) (char : UInt8) (start : Nat) : Option Nat :=
  ((string.drop start).findIdx? (· == char)).map (start + ·)

/-- A loop over a string that moves its index on makes no more passes than this. -/
def loop {state result : Type} (string : Text) (body : state → Checked (Turn state result)) (first : state) :
    Checked result :=
  Turn.run .running body (string.length + 1) first

def throwUri {value : Type} (what : String) (string : Text) : Checked value :=
  .error (.fault (.badUri (text what ++ string)))

/-- The operator `&&` does not read the next character when the first condition fails. -/
def uriPercentEncoded (string : Text) (index : Nat) : Checked Bool := do
  if (← charAt string index) != byte '%' then return false
  if !isXdigit (toInt (← charAt string (index + 1))) then return false
  return isXdigit (toInt (← charAt string (index + 2)))

/-- This is `std::stoi` in base sixteen: spaces, a sign, a prefix and the digits that follow. -/
def stoi16 (string : Text) : Except Fault Int :=
  let rest := string.dropWhile (isSpace ∘ toInt)
  let negative := rest.head? == some (byte '-')
  let unsigned := if negative || rest.head? == some (byte '+') then rest.drop 1 else rest
  let begins := unsigned.head? == some (byte '0') &&
    (unsigned.drop 1).head?.any (fun char => toLower (toInt char) == code 'x') &&
    (unsigned.drop 2).head?.any (isXdigit ∘ toInt)
  let found := (if begins then unsigned.drop 2 else unsigned).takeWhile (isXdigit ∘ toInt)
  let value : Int := if negative then -number 16 found else number 16 found
  if found.isEmpty then .error (.invalidArgument (text "stoi"))
  else if value < -2 ^ 31 ∨ 2 ^ 31 ≤ value then .error (.outOfRange (text "stoi"))
  else .ok value

/-- A pass of the loop of the functions `decode` has an index and the output so far. -/
def decodePass (keeps : Int → Bool) (what : String) (istr : Text) (now : Nat × Text) :
    Checked (Turn (Nat × Text) Text) := do
  let (i, ostr) := now
  if i < istr.length then
    let char ← charAt istr i
    if keeps (toInt char) then return .next (i + 1, ostr ++ [char])
    else if ← uriPercentEncoded istr i then
      let value ← ofFault (stoi16 (← substr istr (i + 1) 2))
      return .next (i + 3, ostr ++ [toByte value])
    else throwUri what istr
  else return .done ostr

def decode (keeps : Int → Bool) (what : String) (istr : Text) : Checked Text :=
  loop istr (decodePass keeps what istr) (0, [])

/-- A pass of the loops of `is_valid` over characters and encoded characters. -/
def validPass (keeps : Int → Bool) (string : Text) (i : Nat) : Checked (Turn Nat Bool) := do
  if i < string.length then
    if keeps (toInt (← charAt string i)) then return .next (i + 1)
    else if ← uriPercentEncoded string i then return .next (i + 3)
    else return .done false
  else return .done true

def valid (keeps : Int → Bool) (string : Text) : Checked Bool := do
  if string.isEmpty then return false
  loop string (validPass keeps string) 0

/-- A pass of the loops of `is_valid` over single characters. -/
def eachPass (accepts : Int → Bool) (string : Text) (i : Nat) : Checked (Turn Nat Bool) := do
  if i < string.length then
    if accepts (toInt (← charAt string i)) then return .next (i + 1)
    else return .done false
  else return .done true

/-- A pass of the loops that look for the end of a component. -/
def scanPass (stops : UInt8 → Bool) (string : Text) (ei : Nat) : Checked (Turn Nat Nat) := do
  if ei < string.length then
    if stops (← charAt string ei) then return .done ei
    else return .next (ei + 1)
  else return .done ei

def scan (stops : UInt8 → Bool) (string : Text) (si : Nat) : Checked Nat := loop string (scanPass stops string) si

namespace UriScheme

def isValid (scheme : Text) : Checked Bool := do
  if scheme.isEmpty then return false
  if !isAlpha (toInt (← charAt scheme 0)) then return false
  loop scheme (eachPass (fun value => isAlpha value || isDigit value || value ∈ "+-.".toList.map code) scheme) 1

def set (scheme : Text) : Checked Text := do
  if ← isValid scheme then return scheme
  throwUri "invalid scheme: " scheme

end UriScheme

namespace UriHost

def isRegularHostname (host : Text) : Checked Bool :=
  valid (fun value => uriUnreservedCharacter value || uriSubcomponentDelimiter value) host

/-- The constructor of an address throws a `std::runtime_error`, which is caught. -/
def isValid (host : Text) : Checked Bool := do
  if host.isEmpty then return false
  if (← front host) == byte '[' && (← back host) == byte ']' then
    return inetPton6 (cString (← substr host 1 (host.length - 2)))
  else if inetPton4 (cString host) then return true
  else isRegularHostname host

def set (host : Text) : Checked Text := do
  if ← isValid host then decode UriHost.keeps "invalid host: " host
  else throwUri "invalid host: " host

end UriHost

namespace UriPort

def isValid (port : Text) : Checked Bool := do
  if port.isEmpty then return false
  if ← loop port (eachPass isDigit port) 0 then
    let value ← ofFault (stoi port)
    return 0 < value && value ≤ 0xFFFF
  else return false

def set (port : Text) : Checked Text := do
  if ← isValid port then return port
  throwUri "invalid port: " port

end UriPort

namespace UriPath

/-- The last character is the second digit of an encoded character. -/
def validPass (path : Text) (now : Nat × Int) : Checked (Turn (Nat × Int) Bool) := do
  let (i, last) := now
  if i < path.length then
    let value := toInt (← charAt path i)
    if uriUnreservedCharacter value || uriSubcomponentDelimiter value || value ∈ "@:".toList.map code then
      return .next (i + 1, value)
    else if value == code '/' && last != code '/' then return .next (i + 1, value)
    else if ← uriPercentEncoded path i then return .next (i + 3, toInt (← charAt path (i + 2)))
    else return .done false
  else return .done true

def isValid (path : Text) : Checked Bool := do
  if path.isEmpty then return true
  if path.length == 1 && (← charAt path 0) == byte '/' then return true
  loop path (validPass path) (0, -1)

/-- A pass takes the segment before the next slash. -/
def segmentPass (p : Text) (slashAtStart : Bool) (now : Nat × List Text) :
    Checked (Turn (Nat × List Text) (List Text)) := do
  let (si, segments) := now
  if si < p.length then
    match findFirstOf p (byte '/') si with
    | some ei =>
        let segment ← substr p si (ei - si)
        return .next (ei + 1, Http.UriPath.addSegment slashAtStart segments segment)
    | none =>
        let segment ← substrFrom p si
        return .next (p.length, Http.UriPath.addSegment slashAtStart segments segment)
  else return .done segments

def set (path : UriPath) (string : Text) : Checked UriPath := do
  let p ← decode UriPath.keeps "invalid path: " string
  let slashAtEnd := path.slashAtEnd || (← back p) == byte '/'
  let begins := (← front p) == byte '/'
  let slashAtStart := path.slashAtStart || begins
  let segments ← loop p (segmentPass p slashAtStart) (if begins then 1 else 0, path.segments)
  let component :=
    if segments.isEmpty then path.component else Http.UriPath.segmentsToPath segments slashAtStart slashAtEnd
  return ⟨component, p, segments, slashAtStart, slashAtEnd⟩

end UriPath

def parseScheme (uri : Uri) (string : Text) (si : Nat) : Checked (Nat × Uri) := do
  let ei ← scan (· == byte ':') string si
  if (← charAt string ei) != byte ':' then throwUri "invalid scheme at index " (digits 10 si)
  let scheme ← UriScheme.set (← substr string si (ei - si))
  return (ei + 1, { uri with scheme })

/-- A pass of the loop over a host in brackets copies the closing bracket too. -/
def bracketPass (auth : Text) (now : Nat × Text) : Checked (Turn (Nat × Text) (Nat × Text)) := do
  let (i, host) := now
  if i < auth.length then
    let char ← charAt auth i
    if char == byte ']' then return .done (i, host ++ [char])
    else return .next (i + 1, host ++ [char])
  else return .done (i, host)

def namePass (auth : Text) (now : Nat × Text) : Checked (Turn (Nat × Text) (Nat × Text)) := do
  let (i, host) := now
  if i < auth.length then
    let char ← charAt auth i
    if char == byte ':' then return .done (i, host)
    else if char == byte '/' then return .done (i, host)
    else return .next (i + 1, host ++ [char])
  else return .done (i, host)

def authorityHost (auth : Text) (i : Nat) : Checked (Text × Nat) := do
  if (← charAt auth i) == byte '[' then
    let (i, host) ← loop auth (bracketPass auth) (i, [])
    if (← charAt auth i) != byte ']' then throwUri "invalid host at index " (digits 10 i)
    return (host, i + 1)
  else
    let (i, host) ← loop auth (namePass auth) (i, [])
    return (host, i)

/-- The first part of `parse_authority` ends with the index of the host. -/
def parseUserinfo (uri : Uri) (auth : Text) : Checked (Uri × Nat) :=
  match findFirstOf auth (byte '@') 0 with
  | some i => do
      let userinfo ← substr auth 0 i
      if !(← valid UriUserinfo.keeps userinfo) then throwUri "invalid userinfo: " userinfo
      let decoded ← decode UriUserinfo.keeps "invalid userinfo: " userinfo
      return ({ uri with userinfo := decoded }, i + 1)
  | none => return (uri, 0)

/-- The last part of `parse_authority` reads the host and the port. -/
def parseAddress (uri : Uri) (auth : Text) (i : Nat) : Checked Uri := do
  let (host, i) ← authorityHost auth i
  let host ← UriHost.set host
  let uri := { uri with host }
  if (← charAt auth i) == byte ':' then
    let port ← UriPort.set (← substrFrom auth (i + 1))
    return { uri with port }
  else return uri

def parseAuthority (uri : Uri) (string : Text) (si : Nat) : Checked (Nat × Uri) := do
  if (← charAt string si) != byte '/' then throwUri "invalid authority at index " (digits 10 si)
  if (← charAt string (si + 1)) != byte '/' then throwUri "invalid authority at index " (digits 10 si)
  let ei ← scan (fun char => char == byte '/' || char == byte '?' || char == byte '#') string (si + 2)
  let auth ← substr string (si + 2) (ei - (si + 2))
  let (uri, i) ← parseUserinfo uri auth
  return (ei, ← parseAddress uri auth i)

def parsePath (uri : Uri) (string : Text) (si : Nat) : Checked (Nat × Uri) := do
  let ei ← scan (fun char => char == byte '?' || char == byte '#') string si
  let path ← substr string si (ei - si)
  if !(← UriPath.isValid path) then throwUri "invalid path 2: " path
  let parsed ← UriPath.set uri.path path
  return (ei, { uri with path := parsed })

def parseQuery (uri : Uri) (string : Text) (si : Nat) : Checked (Nat × Uri) := do
  if (← charAt string si) != byte '?' then throwUri "invalid query at index " (digits 10 si)
  let ei ← scan (· == byte '#') string (si + 1)
  let query ← substr string (si + 1) (ei - (si + 1))
  if !(← valid componentKeeps query) then throwUri "invalid query: " query
  let decoded ← decode componentKeeps "invalid component: " query
  return (ei, { uri with query := decoded })

def parseFragment (uri : Uri) (string : Text) (si : Nat) : Checked (Nat × Uri) := do
  if (← charAt string si) != byte '#' then throwUri "invalid fragment at index " (digits 10 si)
  let fragment ← substrFrom string (si + 1)
  if !(← valid componentKeeps fragment) then throwUri "invalid fragment: " fragment
  let decoded ← decode componentKeeps "invalid component: " fragment
  return (string.length, { uri with fragment := decoded })

/-- A pass of the loop that looks ahead for a colon or a slash. -/
def aheadPass (string : Text) (j : Nat) : Checked (Turn Nat UInt8) := do
  if j < string.length then
    let char ← charAt string j
    if char == byte ':' then return .done char
    else if char == byte '/' then return .done char
    else return .next (j + 1)
  else return .done 0

def parseComponent (uri : Uri) (string : Text) (i : Nat) (schemeSeen : Bool) : Checked (Nat × Uri × Bool) := do
  let char ← charAt string i
  if char == byte '/' then
    if (← charAt string (i + 1)) == byte '/' then
      let (i, uri) ← parseAuthority uri string i
      return (i, uri, schemeSeen)
    else
      let (i, uri) ← parsePath uri string i
      return (i, uri, schemeSeen)
  else if char == byte '?' then
    let (i, uri) ← parseQuery uri string i
    return (i, uri, schemeSeen)
  else if char == byte '#' then
    let (i, uri) ← parseFragment uri string i
    return (i, uri, schemeSeen)
  else if schemeSeen then
    let (i, uri) ← parsePath uri string i
    return (i, uri, schemeSeen)
  else
    let c ← loop string (aheadPass string) i
    if c == byte ':' then
      let (i, uri) ← parseScheme uri string i
      return (i, uri, true)
    else
      let (i, uri) ← parsePath uri string i
      return (i, uri, schemeSeen)

/-- A pass of the loop of `parse` reads one component. -/
def parsePass (string : Text) (now : Nat × Uri × Bool) : Checked (Turn (Nat × Uri × Bool) Uri) := do
  let (i, uri, schemeSeen) := now
  if i < string.length then return .next (← parseComponent uri string i schemeSeen)
  else return .done uri

def parse (string : Text) : Checked Uri := loop string (parsePass string) (0, .empty, false)

end Checked

end SimpleNFast.Http
