/-
This file models the functions `merge` and the constructors that copy a path. It then states the algorithms of RFC 3986
that resolve a reference, on the texts of its components, what it is that the segments of a result were decoded once,
and the URI references whose parts are not empty where they are present.
-/

import SimpleNFast.Construction.Http.UriReading

namespace SimpleNFast.Http

namespace UriPath

/-- One segment of the relative path in the loop of `merge`. -/
def mergeSegment (segments : List Text) (segment : Text) : List Text :=
  if segment == text ".." then segments.dropLast
  else if segment != text "." then segments ++ [segment]
  else segments

def mergeSegments (base rel : UriPath) : List Text := rel.segments.foldl mergeSegment base.segments.dropLast

def merge (base rel : UriPath) : Except Fault UriPath :=
  if rel.slashAtStart then pure rel
  else
    let segments := mergeSegments base rel
    if segments.isEmpty then pure empty
    else UriPath.set empty (segmentsToPath segments base.slashAtStart rel.slashAtEnd)

/-- The constructors of the base class call `set`, which is not yet the one of a path. -/
def copy (path : UriPath) : Except Fault UriPath := do
  let component ← decodeOrThrow componentKeeps "invalid component: " path.component
  pure { path with component }

end UriPath

namespace Uri

def merge (base rel : Uri) : Except Fault Uri :=
  if !rel.scheme.isEmpty then pure rel
  else
    let target := { empty with scheme := base.scheme, fragment := rel.fragment }
    if !rel.host.isEmpty then
      pure { target with
        userinfo := if !rel.userinfo.isEmpty then rel.userinfo else target.userinfo
        host := rel.host
        port := if !rel.port.isEmpty then rel.port else target.port
        path := rel.path
        query := rel.query }
    else
      let target := { target with userinfo := base.userinfo, host := base.host, port := base.port }
      if !rel.path.component.isEmpty then do
        let path ← base.path.merge rel.path
        pure { target with path, query := rel.query }
      else
        pure { target with
          path := base.path
          query := if !rel.query.isEmpty then rel.query else base.query }

end Uri

namespace Resolution

/-- The output without its last segment and the slash before it. -/
def withoutLast (output : Text) : Text := ((output.reverse.dropWhile (· != byte '/')).drop 1).reverse

/-- One step of removing dot segments takes a segment from the input. -/
def removeStep (input output : Text) : Text × Text :=
  if (text "../").isPrefixOf input then (input.drop 3, output)
  else if (text "./").isPrefixOf input then (input.drop 2, output)
  else if (text "/./").isPrefixOf input then (input.drop 2, output)
  else if input = text "/." then (text "/", output)
  else if (text "/../").isPrefixOf input then (input.drop 3, withoutLast output)
  else if input = text "/.." then (text "/", withoutLast output)
  else if input = text "." ∨ input = text ".." then ([], output)
  else
    let segment := (input.drop 1).takeWhile (· != byte '/')
    (input.drop (1 + segment.length), output ++ input.take (1 + segment.length))

def removeLoop : Nat → Text → Text → Text
  | 0, _, output => output
  | fuel + 1, input, output =>
      if input = [] then output
      else removeLoop fuel (removeStep input output).1 (removeStep input output).2

/-- The algorithm `remove_dot_segments`; each step shortens the input. -/
def removeDotSegments (path : Text) : Text := removeLoop (path.length + 1) path []

/-- The path of a base URI with an authority, up to its last slash, and the path of a reference. -/
def mergePaths (base reference : Text) : Text :=
  if base = [] then byte '/' :: reference
  else (base.reverse.dropWhile (· != byte '/')).reverse ++ reference

/-- The path of the target; the base URI is normalized first, so its path has no dots. -/
def targetPath (base reference : Uri) : Text :=
  if reference.host ≠ [] then removeDotSegments reference.path.path
  else if reference.path.path = [] then removeDotSegments base.path.path
  else if reference.path.path.head? = some (byte '/') then removeDotSegments reference.path.path
  else removeDotSegments (mergePaths (removeDotSegments base.path.path) reference.path.path)

/-- The path whose last segment ends the path of the target. -/
def lastPath (base reference : Uri) : Text :=
  if reference.host = [] ∧ reference.path.path = [] then base.path.path else reference.path.path

def targetQuery (base reference : Uri) : Text :=
  if reference.host = [] ∧ reference.path.path = [] ∧ reference.query = [] then base.query else reference.query

/-- The last part of a path. -/
def lastPart (path : Text) : Text := (path.reverse.takeWhile (· != byte '/')).reverse

/-- A path is the target; a root and a last dot segment need not leave a slash. -/
structure Reaches (path : UriPath) (target last : Text) : Prop where
  segments : path.segments = UriPath.filled target
  get : path.component = target ∨ path.component ++ text "/" = target ∧
    (target = text "/" ∨ lastPart last = text "." ∨ lastPart last = text "..")

/-- A URI is the target of a reference without a scheme. -/
structure Resolves (base reference result : Uri) : Prop where
  scheme : result.scheme = base.scheme
  authority : (result.userinfo, result.host, result.port) =
    if reference.host ≠ [] then (reference.userinfo, reference.host, reference.port)
    else (base.userinfo, base.host, base.port)
  path : Reaches result.path (targetPath base reference) (lastPath base reference)
  absolute : result.path.component = [] ∨ result.path.component.head? = some (byte '/')
  query : result.query = targetQuery base reference
  fragment : result.fragment = reference.fragment

/-- The moves that the segments of a relative path make. -/
def climbs (reference : Uri) : List (Move Text) := (UriPath.parts reference.path.path).map UriPath.move

/-- The cases in which `merge` does not lose or misplace a segment. -/
def Sound (base reference : Uri) : Prop :=
  if reference.host ≠ [] ∨ reference.path.path = [] then True
  else if reference.path.path.head? = some (byte '/') then
    UriPath.remaining reference.path.path ≠ [] ∨
      UriPath.remaining base.path.path = [] ∧ (reference.query ≠ [] ∨ base.query = [])
  else if base.path.path = [] then Move.left (climbs reference) = []
  else (∃ segment, UriPath.move (lastPart base.path.path) = .down segment) ∨
    (UriPath.remaining base.path.path).length ≤ Move.rises (climbs reference)

end Resolution

namespace Uri

/-- The segments of a base URI and of a reference that make the path of the result. -/
def taken (base reference : Uri) : List Text :=
  if reference.scheme ≠ [] ∨ reference.host ≠ [] then reference.path.segments
  else if reference.path.component = [] then base.path.segments
  else if reference.path.slashAtStart = true then reference.path.segments
  else Move.walk base.path.segments.dropLast (reference.path.segments.map UriPath.move)

/-- The result has the segments as they were, and each of them is one of the base URI or of the reference. -/
structure DecodedOnce (base reference result : Uri) : Prop where
  segments : result.path.segments = taken base reference
  held : ∀ segment ∈ result.path.segments, segment ∈ base.path.segments ∨ segment ∈ reference.path.segments

/-- Where a relative path is merged, decoding leaves the segments alone. -/
def Untouched (base reference : Uri) : Prop :=
  reference.scheme = [] → reference.host = [] → reference.path.component ≠ [] → reference.path.slashAtStart = false →
    ∀ segment ∈ taken base reference, ∀ char ∈ segment, UriPath.keeps (toInt char) = true

end Uri

/-- A path and its copy look the same. -/
structure UriPath.Copied (path copied : UriPath) : Prop where
  get : copied.component = path.component
  getPath : copied.path = path.path
  getSegments : copied.segments = path.segments

/-- A text of literal characters and of escapes. -/
inductive Coded (literal : Int → Bool) : Text → Prop where
  | nothing : Coded literal []
  | plain {char : UInt8} {rest : Text} (accepted : literal (toInt char) = true) (more : Coded literal rest) :
      Coded literal (char :: rest)
  | escape {first second : UInt8} {rest : Text} (high : isXdigit (toInt first) = true)
      (low : isXdigit (toInt second) = true) (more : Coded literal rest) :
      Coded literal (byte '%' :: first :: second :: rest)

/-- A character of a name: one that is unreserved or delimits subcomponents. -/
def isNameChar (value : Int) : Bool := uriUnreservedCharacter value || uriSubcomponentDelimiter value

def isUserChar (value : Int) : Bool := isNameChar value || value == code ':'

def isPathChar (value : Int) : Bool := isNameChar value || value ∈ ":@/".toList.map code

def isQueryChar (value : Int) : Bool := isNameChar value || value ∈ ":@/?".toList.map code

/-- A scheme begins with a letter. -/
inductive SchemeWord : Text → Prop where
  | word {first : UInt8} {rest : Text} (letter : isAlpha (toInt first) = true)
      (others : ∀ char ∈ rest, isAlpha (toInt char) = true ∨ isDigit (toInt char) = true ∨
        toInt char ∈ "+-.".toList.map code) : SchemeWord (first :: rest)

/-- A host is an address in brackets or a name. -/
inductive HostText : Text → Prop where
  | address {inner : Text} (accepted : inetPton6 inner = true) : HostText (byte '[' :: (inner ++ [byte ']']))
  | name {host : Text} (filled : host ≠ []) (coded : Coded isNameChar host) : HostText host

/-- An authority whose parts are not empty where they are present. -/
structure ReferenceAuthority where
  parts : AuthorityParts
  userinfo : ∀ chars ∈ parts.userinfo, chars ≠ [] ∧ Coded isUserChar chars
  host : HostText parts.host
  port : ∀ chars ∈ parts.port, chars ≠ [] ∧ (∀ char ∈ chars, isDigit (toInt char) = true) ∧
    1 ≤ number 10 chars ∧ number 10 chars ≤ 65535

/-- A URI reference whose path has no two slashes in a row. -/
structure Reference where
  scheme : Option Text
  authority : Option ReferenceAuthority
  path : Text
  query : Option Text
  fragment : Option Text
  word : ∀ letters ∈ scheme, SchemeWord letters
  coded : Coded isPathChar path
  single : ¬ text "//" <:+: path
  rooted : authority.isSome = true → path = [] ∨ path.head? = some (byte '/')
  apart : scheme = none → authority.isSome = false → byte ':' ∉ path.takeWhile (· != byte '/')
  queried : ∀ chars ∈ query, chars ≠ [] ∧ Coded isQueryChar chars
  named : ∀ chars ∈ fragment, chars ≠ [] ∧ Coded isQueryChar chars

namespace Reference

/-- A component with the mark before it. -/
def marked (mark : Text) : Option Text → Text
  | none => []
  | some component => mark ++ component

/-- The query and the fragment. -/
def tail (reference : Reference) : Text :=
  marked (text "?") reference.query ++ marked (text "#") reference.fragment

def string (reference : Reference) : Text :=
  (match reference.scheme with
    | none => []
    | some scheme => scheme ++ [byte ':']) ++
  marked (text "//") (reference.authority.map fun authority => authority.parts.text) ++
  reference.path ++ reference.tail

/-- A single segment is followed by a colon that comes before any slash. -/
structure Misleading (reference : Reference) : Prop where
  scheme : reference.scheme = none
  authority : reference.authority.isSome = false
  filled : reference.path ≠ []
  segment : byte '/' ∉ reference.path
  colon : byte ':' ∈ reference.tail.takeWhile (· != byte '/')

end Reference

end SimpleNFast.Http
