/-
This file states what the segments of a path are, and that none of them leaves its root. It then states how a URI is
divided into its components, reads them one after another without an index, and states that a URI has the components
of a string.
-/

import SimpleNFast.Construction.Http.Uri
import SimpleNFast.Library.Moves

namespace SimpleNFast.Http

namespace UriPath

/-- The parts of a path between its slashes. -/
def parts (path : Text) : List Text := path.splitOn (byte '/')

/-- Two dots go up, and one dot and an empty part stay. -/
def move (part : Text) : Move Text :=
  if part = text ".." then .up else if part = text "." ∨ part = [] then .stay else .down part

/-- The segments that are left when the dots of a path are removed. -/
def remaining (path : Text) : List Text := Move.left ((parts path).map move)

def filled (path : Text) : List Text := (parts path).filter fun part => !part.isEmpty

/-- The path of a decoded text, from which the dots are removed when it is absolute. -/
def normal (decoded : Text) : UriPath :=
  let slashAtStart := decoded.head? == some (byte '/')
  let slashAtEnd := decoded.getLast? == some (byte '/')
  let segments := if slashAtStart then remaining decoded else filled decoded
  ⟨segmentsToPath segments slashAtStart slashAtEnd, decoded, segments, slashAtStart, slashAtEnd⟩

/-- A segment stays below the root. -/
structure Inside (segment : Text) : Prop where
  filled : segment ≠ []
  single : segment ≠ text "."
  double : segment ≠ text ".."
  whole : byte '/' ∉ segment

/-- The path of a text that begins with a slash. -/
structure Confined (string : Text) (path : UriPath) : Prop where
  decoded : decodeKeeping keeps string = some path.path
  inside : ∀ segment ∈ path.segments, Inside segment
  segments : path.segments = remaining path.path
  get : path.component = if path.segments = [] then [] else
    byte '/' :: List.intercalate [byte '/'] path.segments ++
      if path.path.getLast? = some (byte '/') then [byte '/'] else []

end UriPath

/-- The components of a URI; the value `none` is a component that is absent. -/
structure Components where
  scheme : Option Text
  authority : Option Text
  path : Text
  query : Option Text
  fragment : Option Text
  deriving DecidableEq, Repr

namespace Components

def inScheme (char : UInt8) : Bool :=
  char != byte ':' && char != byte '/' && char != byte '?' && char != byte '#'

def inAuthority (char : UInt8) : Bool := char != byte '/' && char != byte '?' && char != byte '#'

def inPath (char : UInt8) : Bool := char != byte '?' && char != byte '#'

def inQuery (char : UInt8) : Bool := char != byte '#'

/-- The text between a mark at the start and the next character that is not accepted, and what follows it. -/
def cut (mark : Text) (accepts : UInt8 → Bool) (rest : Text) : Option Text × Text :=
  if mark.isPrefixOf rest then
    let behind := rest.drop mark.length
    (some (behind.takeWhile accepts), behind.dropWhile accepts)
  else (none, rest)

/-- The path, the query and the fragment. -/
def ofTail (rest : Text) : Components :=
  let (query, behind) := cut (text "?") inQuery (rest.dropWhile inPath)
  ⟨none, none, rest.takeWhile inPath, query, (cut (text "#") (fun _ => true) behind).1⟩

/-- The authority and the other components behind the scheme. -/
def ofHierarchy (scheme : Option Text) (rest : Text) : Components :=
  let (authority, rest) := cut (text "//") inAuthority rest
  { ofTail rest with scheme, authority }

/-- The components of a string as RFC 3986 divides it. -/
def split (string : Text) : Components :=
  let word := string.takeWhile inScheme
  match word, string.dropWhile inScheme with
  | _ :: _, mark :: rest => if mark == byte ':' then ofHierarchy (some word) rest else ofHierarchy none string
  | _, _ => ofHierarchy none string

end Components

namespace Uri

open Components

/-- The host at the start of the rest of an authority, and what follows it. -/
def readHost (authority rest : Text) : Except Fault (Text × Text) :=
  if rest.head? = some (byte '[') then
    if byte ']' ∈ rest then
      .ok (rest.takeWhile (· != byte ']') ++ [byte ']'], (rest.dropWhile (· != byte ']')).drop 1)
    else .error (.badUri (text "invalid host at index " ++ digits 10 authority.length))
  else .ok (rest.takeWhile (· != byte ':'), rest.dropWhile (· != byte ':'))

/-- A port follows a colon, and other text behind the host is not looked at. -/
def readPort (uri : Uri) (after : Text) : Except Fault Uri :=
  if after.head? = some (byte ':') then do
    let port ← UriPort.set (after.drop 1)
    pure { uri with port }
  else pure uri

def readUserinfo (uri : Uri) (userinfo : Text) : Except Fault Uri := do
  if !UriUserinfo.isValid userinfo then throw (.badUri (text "invalid userinfo: " ++ userinfo))
  let userinfo ← UriUserinfo.set userinfo
  pure { uri with userinfo }

/-- The host and the port behind the user of an authority. -/
def readAddress (uri : Uri) (authority rest : Text) : Except Fault Uri := do
  let (host, after) ← readHost authority rest
  let host ← UriHost.set host
  readPort { uri with host } after

def readAuthority (uri : Uri) (authority : Text) : Except Fault Uri :=
  if byte '@' ∈ authority then do
    let uri ← readUserinfo uri (authority.takeWhile (· != byte '@'))
    readAddress uri authority ((authority.dropWhile (· != byte '@')).drop 1)
  else readAddress uri authority authority

def readPath (uri : Uri) (path : Text) : Except Fault Uri :=
  if path.isEmpty then pure uri
  else do
    if !UriPath.isValid path then throw (.badUri (text "invalid path 2: " ++ path))
    let path ← uri.path.set path
    pure { uri with path }

/-- A query or a fragment behind its mark. -/
def readMarked (what : String) (component : Text) : Except Fault Text := do
  if component.isEmpty || !validKeeping componentKeeps component then throw (.badUri (text what ++ component))
  decodeOrThrow componentKeeps "invalid component: " component

def readQuery (uri : Uri) : Option Text → Except Fault Uri
  | none => pure uri
  | some query => do
      let query ← readMarked "invalid query: " query
      pure { uri with query }

def readFragment (uri : Uri) : Option Text → Except Fault Uri
  | none => pure uri
  | some fragment => do
      let fragment ← readMarked "invalid fragment: " fragment
      pure { uri with fragment }

def readTail (uri : Uri) (tail : Components) : Except Fault Uri := do
  readFragment (← readQuery (← readPath uri tail.path) tail.query) tail.fragment

/-- One authority after the other is read; each has two slashes, so the length of the rest is enough fuel. -/
def readAuthorities : Nat → Uri → Text → Except Fault Uri
  | 0, uri, _ => pure uri
  | fuel + 1, uri, rest =>
      match cut (text "//") inAuthority rest with
      | (some authority, rest) => do readAuthorities fuel (← readAuthority uri authority) rest
      | (none, rest) => readTail uri (ofTail rest)

def readHierarchy (uri : Uri) (rest : Text) : Except Fault Uri := readAuthorities (rest.length + 1) uri rest

/-- The string is read from its start to its end. -/
def read (string : Text) : Except Fault Uri :=
  if (string.head?.any inAuthority && beginsWithScheme string) = true then do
    let scheme ← UriScheme.set (string.takeWhile (· != byte ':'))
    readHierarchy { empty with scheme } ((string.dropWhile (· != byte ':')).drop 1)
  else readHierarchy empty string

end Uri

/-- An authority is a host with a user before it or without one, and with a port behind it or without one. -/
structure AuthorityParts where
  userinfo : Option Text
  host : Text
  port : Option Text
  deriving DecidableEq, Repr

namespace AuthorityParts

def text (parts : AuthorityParts) : Text :=
  (match parts.userinfo with
    | none => []
    | some userinfo => userinfo ++ [byte '@']) ++ parts.host ++
  (match parts.port with
    | none => []
    | some port => byte ':' :: port)

/-- The parts are valid, and a URI has them in their decoded form. -/
structure Gives (parts : AuthorityParts) (uri : Uri) : Prop where
  userinfo : parts.userinfo = none ∧ uri.userinfo = [] ∨
    ∃ userinfo, parts.userinfo = some userinfo ∧ UriUserinfo.isValid userinfo = true ∧
      UriUserinfo.set userinfo = .ok uri.userinfo
  host : UriHost.set parts.host = .ok uri.host
  port : parts.port = none ∧ uri.port = [] ∨ ∃ port, parts.port = some port ∧ UriPort.set port = .ok uri.port

end AuthorityParts

namespace Components

/-- A URI has these components in their decoded form, and the dots of an absolute path are removed. -/
structure Gives (components : Components) (uri : Uri) : Prop where
  scheme : uri.scheme = components.scheme.getD []
  authority : match components.authority with
    | none => uri.userinfo = [] ∧ uri.host = [] ∧ uri.port = []
    | some authority => ∃ parts : AuthorityParts, authority = parts.text ∧ parts.Gives uri
  path : ∃ decoded, decodeKeeping UriPath.keeps components.path = some decoded ∧ uri.path = UriPath.normal decoded
  query : decodeKeeping componentKeeps (components.query.getD []) = some uri.query
  fragment : decodeKeeping componentKeeps (components.fragment.getD []) = some uri.fragment

/-- The text behind the first closing bracket. -/
def behindBracket (authority : Text) : Text := (authority.dropWhile (· != byte ']')).drop 1

/-- The path does not begin with two slashes, and behind a bracket there is a port or nothing. -/
structure Separate (components : Components) : Prop where
  path : (text "//").isPrefixOf components.path = false
  authority : ∀ authority ∈ components.authority,
    behindBracket authority = [] ∨ (behindBracket authority).head? = some (byte ':')

end Components

end SimpleNFast.Http
