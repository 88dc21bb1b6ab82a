/-
This file models `uri.h` and `uri.cpp`: the components of a URI and its parser.
-/

import SimpleNFast.Construction.Http.Status

namespace SimpleNFast.Http

def uriGenericDelimiter (value : Int) : Bool := value ∈ ":/?#[]@".toList.map code

def uriSubcomponentDelimiter (value : Int) : Bool := value ∈ "!$&'()*+,;=".toList.map code

def uriReservedCharacter (value : Int) : Bool := uriGenericDelimiter value || uriSubcomponentDelimiter value

def uriUnreservedCharacter (value : Int) : Bool :=
  isAlpha value || isDigit value || value ∈ "-._~".toList.map code

/-- A percent sign with two hexadecimal digits begins this string. -/
def uriPercentEncoded : Text → Bool
  | sign :: first :: second :: _ => sign == byte '%' && isXdigit (toInt first) && isXdigit (toInt second)
  | _ => false

/-- The flag `hex` is added to the flag `dec`, so the number after the percent sign is decimal. -/
def percentEncode (char : UInt8) : Text :=
  let number := decimal (toInt char)
  byte '%' :: List.replicate (2 - number.length) (byte '0') ++ number

/-- The functions `encode` differ in the characters that stay. -/
def encodeKeeping (keeps : Int → Bool) (string : Text) : Text :=
  string.flatMap fun char => if keeps (toInt char) then [char] else percentEncode char

/-- The loop of the functions `decode`; the value `none` is a character that is not valid. -/
def decodeKeeping (keeps : Int → Bool) : Text → Option Text
  | [] => some []
  | char :: rest =>
      if keeps (toInt char) then (decodeKeeping keeps rest).map (char :: ·)
      else
        match rest with
        | first :: second :: rest =>
            if uriPercentEncoded (char :: first :: second :: rest) then
              (decodeKeeping keeps rest).map (toByte (number 16 [first, second]) :: ·)
            else none
        | _ => none

/-- The functions `decode` throw at the first character that is not valid. -/
def decodeOrThrow (keeps : Int → Bool) (what : String) (string : Text) : Except Fault Text :=
  match decodeKeeping keeps string with
  | some decoded => .ok decoded
  | none => .error (.badUri (text what ++ string))

/-- The loop of the functions `is_valid` over characters and encoded characters. -/
def validKeeping (keeps : Int → Bool) : Text → Bool
  | [] => true
  | char :: rest =>
      if keeps (toInt char) then validKeeping keeps rest
      else
        match rest with
        | first :: second :: rest =>
            uriPercentEncoded (char :: first :: second :: rest) && validKeeping keeps rest
        | _ => false

/-- The characters that stay in a query and in a fragment. -/
def componentKeeps (value : Int) : Bool :=
  uriUnreservedCharacter value || uriSubcomponentDelimiter value || value ∈ ":@/?".toList.map code

namespace UriScheme

def isValid : Text → Bool
  | [] => false
  | first :: rest =>
      isAlpha (toInt first) && rest.all fun char =>
        isAlpha (toInt char) || isDigit (toInt char) || toInt char ∈ "+-.".toList.map code

def encode (scheme : Text) : Text := scheme.map (toByte ∘ toLower ∘ toInt)

def set (scheme : Text) : Except Fault Text :=
  if isValid scheme then .ok scheme else .error (.badUri (text "invalid scheme: " ++ scheme))

end UriScheme

namespace UriUserinfo

def keeps (value : Int) : Bool :=
  uriUnreservedCharacter value || uriSubcomponentDelimiter value || value == code ':'

def isValid (userinfo : Text) : Bool := !userinfo.isEmpty && validKeeping keeps userinfo

def encode (userinfo : Text) : Text := encodeKeeping keeps userinfo

def set (userinfo : Text) : Except Fault Text := decodeOrThrow keeps "invalid userinfo: " userinfo

end UriUserinfo

/-- The characters of a string up to its first zero, as a C function sees them. -/
def cString (string : Text) : Text := string.takeWhile (· != 0)

/-- The state of `inet_pton` for IPv4: the octet so far, whether it has a digit, and the octets begun. -/
def inetPton4Loop : Text → Nat → Bool → Nat → Bool
  | [], _, _, octets => octets == 4
  | char :: rest, octet, sawDigit, octets =>
      if isDigit (toInt char) then
        let next := octet * 10 + digitValue (toInt char)
        if (sawDigit && octet == 0) || 255 < next then false
        else if sawDigit then inetPton4Loop rest next true octets
        else if octets == 4 then false
        else inetPton4Loop rest next true (octets + 1)
      else if char == byte '.' && sawDigit && octets != 4 then inetPton4Loop rest 0 false octets
      else false

/-- This is `inet_pton` for `AF_INET` as the C library documents it. -/
def inetPton4 (string : Text) : Bool := inetPton4Loop string 0 false 0

/-- The end of an IPv6 address needs all sixteen bytes, or fewer when there was a double colon. -/
def inetPton6End (bytes : Nat) (double : Bool) : Bool := if double then bytes < 16 else bytes == 16

/-- The state of `inet_pton` for IPv6: the bytes so far, whether there was a double colon, the digits of
the current group, and the text from the start of this group. -/
def inetPton6Loop : Text → Nat → Bool → Nat → Text → Bool
  | [], bytes, double, groupDigits, _ =>
      if 0 < groupDigits then bytes + 2 ≤ 16 && inetPton6End (bytes + 2) double
      else inetPton6End bytes double
  | char :: rest, bytes, double, groupDigits, group =>
      if isXdigit (toInt char) then
        groupDigits != 4 && inetPton6Loop rest bytes double (groupDigits + 1) group
      else if char == byte ':' then
        if groupDigits == 0 then !double && inetPton6Loop rest bytes true 0 rest
        else if rest.isEmpty then false
        else bytes + 2 ≤ 16 && inetPton6Loop rest (bytes + 2) double 0 rest
      else if char == byte '.' then
        bytes + 4 ≤ 16 && inetPton4 group && inetPton6End (bytes + 4) double
      else false

/-- This is `inet_pton` for `AF_INET6` as the C library documents it. -/
def inetPton6 : Text → Bool
  | [] => false
  | first :: rest =>
      if first == byte ':' then
        match rest with
        | [] => false
        | second :: _ => second == byte ':' && inetPton6Loop rest 0 false 0 rest
      else inetPton6Loop (first :: rest) 0 false 0 (first :: rest)

namespace UriHost

def keeps (value : Int) : Bool :=
  uriUnreservedCharacter value || uriSubcomponentDelimiter value || value ∈ ":.[]".toList.map code

def isRegularHostname (host : Text) : Bool :=
  !host.isEmpty && validKeeping (fun value => uriUnreservedCharacter value || uriSubcomponentDelimiter value) host

def isValid (host : Text) : Bool :=
  if host.isEmpty then false
  else if host.head? = some (byte '[') ∧ host.getLast? = some (byte ']') then
    inetPton6 (cString ((host.drop 1).take (host.length - 2)))
  else inetPton4 (cString host) || isRegularHostname host

def encode (host : Text) : Text :=
  host.flatMap fun char =>
    if uriUnreservedCharacter (toInt char) then [toByte (toLower (toInt char))]
    else if keeps (toInt char) then [char]
    else percentEncode char

def set (host : Text) : Except Fault Text :=
  if isValid host then decodeOrThrow keeps "invalid host: " host
  else .error (.badUri (text "invalid host: " ++ host))

end UriHost

/-- This is `std::stoi` in base ten: spaces, a sign and the digits that follow. -/
def stoi (string : Text) : Except Fault Int :=
  let rest := string.dropWhile (isSpace ∘ toInt)
  let negative := rest.head? == some (byte '-')
  let unsigned := if negative || rest.head? == some (byte '+') then rest.drop 1 else rest
  let found := unsigned.takeWhile (isDigit ∘ toInt)
  let value : Int := if negative then -number 10 found else number 10 found
  if found.isEmpty then .error (.invalidArgument (text "stoi"))
  else if value < -2 ^ 31 ∨ 2 ^ 31 ≤ value then .error (.outOfRange (text "stoi"))
  else .ok value

namespace UriPort

/-- The number is converted before its range is checked. -/
def isValid (port : Text) : Except Fault Bool := do
  if port.isEmpty then return false
  if port.all (isDigit ∘ toInt) then
    let value ← stoi port
    return 0 < value && value ≤ 0xFFFF
  else return false

def set (port : Text) : Except Fault Text := do
  if ← isValid port then pure port else throw (.badUri (text "invalid port: " ++ port))

/-- A conversion to `in_port_t` keeps sixteen bits. -/
def numericPort (port : Text) : Except Fault Nat := do
  let value ← stoi port
  pure (value % 2 ^ 16).toNat

end UriPort

structure UriPath where
  component : Text
  path : Text
  segments : List Text
  slashAtStart : Bool
  slashAtEnd : Bool
  deriving DecidableEq, Repr

namespace UriPath

def empty : UriPath := ⟨[], [], [], false, false⟩

def keeps (value : Int) : Bool :=
  uriUnreservedCharacter value || uriSubcomponentDelimiter value || value ∈ "@:/".toList.map code

/-- The loop of `is_valid` keeps the last character, and refuses a slash after a slash. -/
def validLoop : Text → Int → Bool
  | [], _ => true
  | char :: rest, last =>
      if uriUnreservedCharacter (toInt char) || uriSubcomponentDelimiter (toInt char) ||
          toInt char ∈ "@:".toList.map code then validLoop rest (toInt char)
      else if char == byte '/' && last != code '/' then validLoop rest (toInt char)
      else
        match rest with
        | first :: second :: rest =>
            uriPercentEncoded (char :: first :: second :: rest) && validLoop rest (toInt second)
        | _ => false

def isValid (path : Text) : Bool := path.isEmpty || path == [byte '/'] || validLoop path (-1)

def encode (path : Text) : Text := encodeKeeping keeps path

def segmentsToPath (segments : List Text) (slashAtStart slashAtEnd : Bool) : Text :=
  if segments.isEmpty then []
  else (if slashAtStart then [byte '/'] else []) ++ List.intercalate [byte '/'] segments ++
    (if slashAtEnd then [byte '/'] else [])

/-- The pieces between slashes; a slash at the end has no piece after it. -/
def pieces : Nat → Text → List Text
  | 0, _ => []
  | _, [] => []
  | fuel + 1, rest =>
      let segment := rest.takeWhile (· != byte '/')
      segment :: pieces fuel (rest.drop (segment.length + 1))

def addSegment (slashAtStart : Bool) (segments : List Text) (segment : Text) : List Text :=
  if segment == text ".." then
    if slashAtStart then segments.dropLast else segments ++ [segment]
  else if segment == text "." then
    if slashAtStart then segments else segments ++ [segment]
  else if segment.isEmpty then segments
  else segments ++ [segment]

/-- The flags and the segments of an earlier call stay. -/
def set (path : UriPath) (string : Text) : Except Fault UriPath := do
  let decoded ← decodeOrThrow keeps "invalid path: " string
  let slashAtEnd := path.slashAtEnd || decoded.getLast? == some (byte '/')
  let begins := decoded.head? == some (byte '/')
  let slashAtStart := path.slashAtStart || begins
  let rest := if begins then decoded.drop 1 else decoded
  let segments := (pieces decoded.length rest).foldl (addSegment slashAtStart) path.segments
  let component := if segments.isEmpty then path.component else segmentsToPath segments slashAtStart slashAtEnd
  pure ⟨component, decoded, segments, slashAtStart, slashAtEnd⟩

end UriPath

/-- A component that is empty is not present. -/
structure Uri where
  scheme : Text
  userinfo : Text
  host : Text
  port : Text
  path : UriPath
  query : Text
  fragment : Text
  deriving DecidableEq, Repr

namespace Uri

def empty : Uri := ⟨[], [], [], [], .empty, [], []⟩

/-- A read at the length of a string sees its terminator. -/
def charAt (string : Text) (index : Nat) : UInt8 := string.getD index 0

def parseScheme (uri : Uri) (string : Text) (start : Nat) : Except Fault (Nat × Uri) := do
  let scheme := (string.drop start).takeWhile (· != byte ':')
  let stop := start + scheme.length
  if charAt string stop != byte ':' then
    throw (.badUri (text "invalid scheme at index " ++ digits 10 start))
  let scheme ← UriScheme.set scheme
  pure (stop + 1, { uri with scheme })

/-- The host of an authority and the index after it. -/
def authorityHost (authority : Text) (start : Nat) : Except Fault (Text × Nat) := do
  let rest := authority.drop start
  if charAt authority start == byte '[' then
    let host := rest.takeWhile (· != byte ']')
    let stop := start + host.length
    if charAt authority stop != byte ']' then
      throw (.badUri (text "invalid host at index " ++ digits 10 stop))
    pure (host ++ [byte ']'], stop + 1)
  else
    let host := rest.takeWhile fun char => char != byte ':' && char != byte '/'
    pure (host, start + host.length)

def parseAuthority (uri : Uri) (string : Text) (start : Nat) : Except Fault (Nat × Uri) := do
  if charAt string start != byte '/' || charAt string (start + 1) != byte '/' then
    throw (.badUri (text "invalid authority at index " ++ digits 10 start))
  let authority := (string.drop (start + 2)).takeWhile fun char =>
    char != byte '/' && char != byte '?' && char != byte '#'
  let stop := start + 2 + authority.length
  let (uri, begins) ←
    if byte '@' ∈ authority then do
      let userinfo := authority.takeWhile (· != byte '@')
      if !UriUserinfo.isValid userinfo then throw (.badUri (text "invalid userinfo: " ++ userinfo))
      let decoded ← UriUserinfo.set userinfo
      pure ({ uri with userinfo := decoded }, userinfo.length + 1)
    else pure (uri, 0)
  let (host, ends) ← authorityHost authority begins
  let host ← UriHost.set host
  let uri := { uri with host }
  if charAt authority ends == byte ':' then
    let port ← UriPort.set (authority.drop (ends + 1))
    pure (stop, { uri with port })
  else pure (stop, uri)

def parsePath (uri : Uri) (string : Text) (start : Nat) : Except Fault (Nat × Uri) := do
  let path := (string.drop start).takeWhile fun char => char != byte '?' && char != byte '#'
  if !UriPath.isValid path then throw (.badUri (text "invalid path 2: " ++ path))
  let parsed ← uri.path.set path
  pure (start + path.length, { uri with path := parsed })

def parseQuery (uri : Uri) (string : Text) (start : Nat) : Except Fault (Nat × Uri) := do
  if charAt string start != byte '?' then
    throw (.badUri (text "invalid query at index " ++ digits 10 start))
  let query := (string.drop (start + 1)).takeWhile (· != byte '#')
  if query.isEmpty || !validKeeping componentKeeps query then throw (.badUri (text "invalid query: " ++ query))
  let decoded ← decodeOrThrow componentKeeps "invalid component: " query
  pure (start + 1 + query.length, { uri with query := decoded })

def parseFragment (uri : Uri) (string : Text) (start : Nat) : Except Fault (Nat × Uri) := do
  if charAt string start != byte '#' then
    throw (.badUri (text "invalid fragment at index " ++ digits 10 start))
  let fragment := string.drop (start + 1)
  if fragment.isEmpty || !validKeeping componentKeeps fragment then
    throw (.badUri (text "invalid fragment: " ++ fragment))
  let decoded ← decodeOrThrow componentKeeps "invalid component: " fragment
  pure (string.length, { uri with fragment := decoded })

/-- The first colon or slash of the string decides whether it begins with a scheme. -/
def beginsWithScheme (string : Text) : Bool :=
  string.find? (fun char => char == byte ':' || char == byte '/') == some (byte ':')

/-- One pass of the loop of `parse` reads one component. -/
def parseComponent (uri : Uri) (string : Text) (index : Nat) (schemeSeen : Bool) :
    Except Fault (Nat × Uri × Bool) := do
  let char := charAt string index
  if char == byte '/' then
    let (index, uri) ←
      if charAt string (index + 1) == byte '/' then parseAuthority uri string index
      else parsePath uri string index
    pure (index, uri, schemeSeen)
  else if char == byte '?' then
    let (index, uri) ← parseQuery uri string index
    pure (index, uri, schemeSeen)
  else if char == byte '#' then
    let (index, uri) ← parseFragment uri string index
    pure (index, uri, schemeSeen)
  else if schemeSeen then
    let (index, uri) ← parsePath uri string index
    pure (index, uri, schemeSeen)
  else if beginsWithScheme (string.drop index) then
    let (index, uri) ← parseScheme uri string index
    pure (index, uri, true)
  else
    let (index, uri) ← parsePath uri string index
    pure (index, uri, schemeSeen)

/-- Each pass moves the index on, so the length of the string is enough fuel. -/
def parseLoop (string : Text) : Nat → Uri → Nat → Bool → Except Fault Uri
  | 0, uri, _, _ => pure uri
  | fuel + 1, uri, index, schemeSeen => do
      if index < string.length then
        let (index, uri, schemeSeen) ← parseComponent uri string index schemeSeen
        parseLoop string fuel uri index schemeSeen
      else pure uri

def parse (string : Text) : Except Fault Uri := parseLoop string string.length empty 0 false

/-- The output of a URI in its encoded form. -/
def str (uri : Uri) : Text :=
  (if uri.scheme.isEmpty then [] else UriScheme.encode uri.scheme ++ [byte ':']) ++
  (if uri.host.isEmpty then []
    else text "//" ++
      (if uri.userinfo.isEmpty then [] else UriUserinfo.encode uri.userinfo ++ [byte '@']) ++
      UriHost.encode uri.host ++
      (if uri.port.isEmpty then [] else byte ':' :: uri.port)) ++
  UriPath.encode uri.path.component ++
  (if uri.query.isEmpty then [] else byte '?' :: encodeKeeping componentKeeps uri.query) ++
  (if uri.fragment.isEmpty then [] else byte '#' :: encodeKeeping componentKeeps uri.fragment)

end Uri

end SimpleNFast.Http
