/-
This file states what the encoded form of a component and the printed form of a URI are for, and which strings have a
port that does not fit into an `int` where the parser converts it. It models the setters of a URI as programs that keep
what they wrote before an exception, and states what the values of the components are after a run of them.
-/

import SimpleNFast.Construction.Http.UriMerge
import SimpleNFast.Construction.Http.UriReading

namespace SimpleNFast.Http

/-- The component types whose values can have escapes. -/
inductive ComponentKind where
  | userinfo
  | host
  | path
  | query
  | fragment
  deriving DecidableEq, Repr

namespace ComponentKind

/-- The characters that the functions `encode` and `decode` of a component leave as they are. -/
def keeps : ComponentKind → Int → Bool
  | .userinfo => UriUserinfo.keeps
  | .host => UriHost.keeps
  | .path => UriPath.keeps
  | .query | .fragment => componentKeeps

def encode : ComponentKind → Text → Text
  | .userinfo => UriUserinfo.encode
  | .host => UriHost.encode
  | .path => UriPath.encode
  | .query | .fragment => encodeKeeping componentKeeps

def decode : ComponentKind → Text → Except Fault Text
  | .userinfo => decodeOrThrow UriUserinfo.keeps "invalid userinfo: "
  | .host => decodeOrThrow UriHost.keeps "invalid host: "
  | .path => decodeOrThrow UriPath.keeps "invalid path: "
  | .query | .fragment => decodeOrThrow componentKeeps "invalid component: "

def isValid : ComponentKind → Text → Bool
  | .userinfo => UriUserinfo.isValid
  | .host => UriHost.isValid
  | .path => UriPath.isValid
  | .query | .fragment => fun component => !component.isEmpty && validKeeping componentKeeps component

end ComponentKind

/-- A byte in lower case where it is a letter. -/
def lowerByte (char : UInt8) : UInt8 := toByte (toLower (toInt char))

namespace ComponentKind

/-- The case of letters does not matter in a host. -/
def same : ComponentKind → Text → Text → Prop
  | .host, first, second => first.map lowerByte = second.map lowerByte
  | _, first, second => first = second

/-- A value has an encoded form that should be valid. -/
def Wanted : ComponentKind → Text → Prop
  | .path, string => string ≠ [] ∧ ¬ text "//" <:+: string
  | _, string => string ≠ []

/-- A value comes back from its encoded form, which is valid and has literal characters and escapes only. -/
structure RoundTrip (kind : ComponentKind) (string : Text) : Prop where
  decodes : ∃ decoded, kind.decode (kind.encode string) = .ok decoded ∧ kind.same decoded string
  valid : kind.Wanted string → kind.isValid (kind.encode string) = true
  coded : Coded kind.keeps (kind.encode string)

/-- Every character is literal or has a code below ten, or a host is an address in brackets. -/
def Plain : ComponentKind → Text → Prop
  | .host, string =>
      (∃ inner, string = byte '[' :: (inner ++ [byte ']']) ∧ inetPton6 inner = true) ∨
        ∀ char ∈ string, isNameChar (toInt char) = true ∨ char < 10
  | kind, string => ∀ char ∈ string, kind.keeps (toInt char) = true ∨ char < 10

end ComponentKind

/-- Two URIs have the same components up to the case of their schemes and hosts. -/
structure Uri.Alike (uri again : Uri) : Prop where
  scheme : again.scheme.map lowerByte = uri.scheme.map lowerByte
  userinfo : again.userinfo = uri.userinfo
  host : again.host.map lowerByte = uri.host.map lowerByte
  port : again.port = uri.port
  get : again.path.component = uri.path.component
  segments : again.path.segments = uri.path.segments
  query : again.query = uri.query
  fragment : again.fragment = uri.fragment

/-- Digits whose number does not fit into an `int`. -/
structure OverlongPort (port : Text) : Prop where
  filled : port ≠ []
  digits : ∀ char ∈ port, isDigit (toInt char) = true
  large : 2 ^ 31 ≤ number 10 port

/-- An address behind a user, or without one. -/
inductive BehindUser (address : Text → Prop) : Text → Prop where
  | bare {rest : Text} (plain : byte '@' ∉ rest) (behind : address rest) : BehindUser address rest
  | user {userinfo rest : Text} (filled : userinfo ≠ []) (coded : Coded isUserChar userinfo) (behind : address rest) :
      BehindUser address (userinfo ++ byte '@' :: rest)

/-- A valid host before a port that is too large. -/
inductive OverlongAddress : Text → Prop where
  | port {host port : Text} (named : HostText host) (overlong : OverlongPort port) :
      OverlongAddress (host ++ byte ':' :: port)

/-- A valid host with a port, without one, or with a closing bracket before text that is not looked at. -/
inductive AcceptedAddress : Text → Prop where
  | host {host : Text} (named : HostText host) : AcceptedAddress host
  | port {host port : Text} (named : HostText host) (filled : port ≠ [])
      (digits : ∀ char ∈ port, isDigit (toInt char) = true) (lower : 1 ≤ number 10 port)
      (upper : number 10 port ≤ 65535) : AcceptedAddress (host ++ byte ':' :: port)
  | ignored {inner extra : Text} (accepted : inetPton6 inner = true) (other : extra.head? ≠ some (byte ':')) :
      AcceptedAddress (byte '[' :: (inner ++ [byte ']']) ++ extra)

/-- The first authority has such a port, or it is accepted and another authority behind it has one. -/
inductive OverlongAuthority : Text → Prop where
  | here {string authority rest : Text}
      (divided : Components.cut (text "//") Components.inAuthority string = (some authority, rest))
      (overlong : BehindUser OverlongAddress authority) : OverlongAuthority string
  | behind {string authority rest : Text}
      (divided : Components.cut (text "//") Components.inAuthority string = (some authority, rest))
      (accepted : BehindUser AcceptedAddress authority) (later : OverlongAuthority rest) : OverlongAuthority string

/-- The authorities stand at the start of the string or behind its scheme. -/
inductive OverlongUri : Text → Prop where
  | relative {string : Text} (overlong : OverlongAuthority string) : OverlongUri string
  | absolute {scheme rest : Text} (word : SchemeWord scheme) (overlong : OverlongAuthority rest) :
      OverlongUri (scheme ++ byte ':' :: rest)

/-- A program that writes the members of an object; an exception leaves them as they are. -/
abbrev Setting (object : Type) := ExceptT Fault (StateM object)

/-- The statements of `set`, of which only the first one can throw. -/
def UriPath.setMembers (string : Text) : Setting UriPath Unit := do
  let decoded ← MonadExcept.ofExcept (decodeOrThrow keeps "invalid path: " string)
  modify fun path => { path with path := decoded }
  modify fun path => if decoded.getLast? == some (byte '/') then { path with slashAtEnd := true } else path
  modify fun path => if decoded.head? == some (byte '/') then { path with slashAtStart := true } else path
  let rest := if decoded.head? == some (byte '/') then decoded.drop 1 else decoded
  (pieces decoded.length rest).forM fun segment =>
    modify fun path => { path with segments := addSegment path.slashAtStart path.segments segment }
  modify fun path =>
    if path.segments.isEmpty then path
    else { path with component := segmentsToPath path.segments path.slashAtStart path.slashAtEnd }

namespace Uri

/-- A setter writes its member when the value of the member is found. -/
def setMember (program : Except Fault Text) (write : Text → Uri → Uri) : Setting Uri Unit := do
  let value ← MonadExcept.ofExcept program
  modify (write value)

def setScheme (scheme : Text) : Setting Uri Unit :=
  setMember (UriScheme.set scheme) fun scheme uri => { uri with scheme }

def setUserinfo (userinfo : Text) : Setting Uri Unit :=
  setMember (UriUserinfo.set userinfo) fun userinfo uri => { uri with userinfo }

def setHost (host : Text) : Setting Uri Unit :=
  setMember (UriHost.set host) fun host uri => { uri with host }

def setPort (port : Text) : Setting Uri Unit :=
  setMember (UriPort.set port) fun port uri => { uri with port }

def setPath (string : Text) : Setting Uri Unit := fun uri =>
  let (outcome, path) := (UriPath.setMembers string).run uri.path
  (outcome, { uri with path })

def setQuery (query : Text) : Setting Uri Unit :=
  setMember (decodeOrThrow componentKeeps "invalid component: " query) fun query uri => { uri with query }

def setFragment (fragment : Text) : Setting Uri Unit :=
  setMember (decodeOrThrow componentKeeps "invalid component: " fragment) fun fragment uri => { uri with fragment }

end Uri

inductive UriComponent where
  | scheme
  | userinfo
  | host
  | port
  | path
  | query
  | fragment
  deriving DecidableEq, Repr

/-- Two URIs have the same value of a component. -/
def UriComponent.Same : UriComponent → Uri → Uri → Prop
  | .scheme, first, second => first.scheme = second.scheme
  | .userinfo, first, second => first.userinfo = second.userinfo
  | .host, first, second => first.host = second.host
  | .port, first, second => first.port = second.port
  | .path, first, second => first.path = second.path
  | .query, first, second => first.query = second.query
  | .fragment, first, second => first.fragment = second.fragment

/-- A call of a setter; a path must not be empty, as `set` looks at its first and its last character. -/
structure SetCall where
  component : UriComponent
  value : Text
  filled : component = .path → value ≠ []

namespace SetCall

def perform (call : SetCall) : Setting Uri Unit :=
  match call.component with
  | .scheme => Uri.setScheme call.value
  | .userinfo => Uri.setUserinfo call.value
  | .host => Uri.setHost call.value
  | .port => Uri.setPort call.value
  | .path => Uri.setPath call.value
  | .query => Uri.setQuery call.value
  | .fragment => Uri.setFragment call.value

/-- What a call returns or throws, and the URI after it. -/
def run (call : SetCall) (uri : Uri) : Except Fault Unit × Uri := ExceptT.run call.perform uri

def final (uri : Uri) (calls : List SetCall) : Uri := calls.foldl (fun uri call => (call.run uri).2) uri

/-- The calls with their outcomes; the caller catches what is thrown. -/
def outcomes (uri : Uri) : List SetCall → List (SetCall × Except Fault Unit)
  | [] => []
  | call :: calls => (call, (call.run uri).1) :: outcomes (call.run uri).2 calls

/-- The last call for a component that was successful. -/
def lastSuccessful (component : UriComponent) (uri : Uri) (calls : List SetCall) : Option SetCall :=
  ((outcomes uri calls).filter fun call => call.1.component == component && call.2.isOk).getLast?.map Prod.fst

/-- Every component is what its last successful setter gives on a fresh URI, or it is untouched. -/
def Replaced (uri : Uri) (calls : List SetCall) : Prop :=
  ∀ component : UriComponent, component.Same (final uri calls) (match lastSuccessful component uri calls with
    | none => uri
    | some call => (call.run .empty).2)

end SetCall

namespace UriPath

/-- What is left of an earlier path does not show in the new one. -/
structure Fits (path : UriPath) (decoded : Text) : Prop where
  slashAtStart : path.slashAtStart = true → decoded.head? = some (byte '/')
  slashAtEnd : path.slashAtEnd = true → decoded.getLast? = some (byte '/')
  segments : path.segments = [] ∨
    decoded.head? = some (byte '/') ∧ path.segments.length ≤ Move.rises ((parts decoded).map move)
  component : path.component = [] ∨ (normal decoded).segments ≠ []

/-- A new path is refused, or nothing is left of the earlier one. -/
def Harmless (path : UriPath) (string : Text) : Prop :=
  ∀ decoded, decodeKeeping keeps string = some decoded → path.Fits decoded

end UriPath

end SimpleNFast.Http
