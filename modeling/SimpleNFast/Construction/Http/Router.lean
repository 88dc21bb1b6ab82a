/-
This file models `router.h` and `router.cpp`: the routes of the server and its search for a handler.
-/

import SimpleNFast.Construction.Http.Message

namespace SimpleNFast.Http

/-- A handler of the application returns a response or throws. -/
abbrev RequestHandler := Request → Except Fault Response

/-- A node of the path tree; a regular expression is the set of the elements that it matches. -/
inductive PathSegment where
  | node (name param : Text) (regexpr : Option (Text → Bool)) (children : List PathSegment)
      (handler : Option RequestHandler)

namespace PathSegment

def name : PathSegment → Text
  | .node name _ _ _ _ => name

def param : PathSegment → Text
  | .node _ param _ _ _ => param

def children : PathSegment → List PathSegment
  | .node _ _ _ children _ => children

def handler : PathSegment → Option RequestHandler
  | .node _ _ _ _ handler => handler

def isParam (segment : PathSegment) : Bool := !segment.param.isEmpty

def «matches» : PathSegment → Text → Bool
  | .node _ _ (some regexpr) _ _, element => regexpr element
  | .node name _ none _ _, element => element == name

/-- The characters of a segment that is not a parameter. -/
def isSegmentCharacter (value : Int) : Bool :=
  uriUnreservedCharacter value || uriSubcomponentDelimiter value || value == code '@' || value == code ':'

end PathSegment

/-- The loop that reads to the end; the value -1 is also the value of the byte 255. -/
def Scanner.readRest : Nat → Scan Text
  | 0 => pure []
  | fuel + 1 => do
      let next ← Scanner.get
      if next == -1 then pure []
      else
        let rest ← readRest fuel
        pure (toByte next :: rest)

/-- The value `none` is the result false: there is no name. -/
def Scanner.readPathParameter : Scan (Option (Text × Text)) := do
  readOptSpace
  let name ← readToken true
  if name.isEmpty then pure none
  else
    readOptSpace
    let rest ←
      if ← readSpecial '=' then do
        readOptSpace
        readRest (← fuel)
      else pure []
    let value := trim rest
    pure (some (name, if value.isEmpty then text "[^/]+" else value))

namespace PathSegment

/-- A segment in braces is a parameter. -/
def isBraced (segment : Text) : Bool := segment.head? == some (byte '\x7b') && segment.getLast? == some (byte '\x7d')

/-- The name and the regular expression of a parameter. -/
def parameter (segment : Text) : Except Fault (Option (Text × Text)) :=
  Prod.fst <$> Scanner.readPathParameter ⟨1, segment.length - 1, segment⟩

/-- This is the constructor; `regex` builds the object of a regular expression and fails on a wrong one. -/
def create (regex : Text → Except Text (Text → Bool)) (segment : Text) : Except Fault PathSegment :=
  if isBraced segment then do
    match ← parameter segment with
    | none => throw (.invalidArgument (text "invalid request paramter specified in " ++ segment))
    | some (param, name) =>
        match regex name with
        | .error what => throw (.invalidArgument (text "invalid regular expression: " ++ what))
        | .ok regexpr => pure (.node name param (some regexpr) [] none)
  else
    match segment.find? fun char => !isSegmentCharacter (toInt char) with
    | some char =>
        throw (.invalidArgument (text "invalid character '" ++ [char] ++ text "' in path segment " ++ segment))
    | none => pure (.node segment [] none [] none)

end PathSegment

/-- The pieces of a path between slashes that are not empty. -/
def split : Nat → Text → List Text
  | 0, _ => []
  | fuel + 1, path =>
      let rest := path.dropWhile (· == byte '/')
      let element := rest.takeWhile (· != byte '/')
      if element.isEmpty then []
      else element :: split fuel (rest.drop element.length)

/-- The segment that the search looked at last, the stack of parameters, and whether it was popped empty. -/
structure Search where
  seg : Option PathSegment
  stack : List (Text × Text)
  underflow : Bool

namespace Search

def init : Search := ⟨none, [], false⟩

def enter (search : Search) (segment : PathSegment) : Search := { search with seg := some segment }

def push (search : Search) (segment : PathSegment) (element : Text) : Search :=
  if segment.isParam then { search with stack := (segment.name, element) :: search.stack } else search

/-- The segment that decides about the pop is the one that the search looked at last. -/
def pop (search : Search) : Search :=
  if search.seg.any PathSegment.isParam then
    { search with stack := search.stack.tail, underflow := search.underflow || search.stack.isEmpty }
  else search

/-- The loop over the segments of one level; the search below a segment is `deeper`. -/
def segments (element : Text) (deeper : List PathSegment → Search → Bool × Search) :
    List PathSegment → Search → Bool × Search
  | [], search => (false, search)
  | segment :: rest, search =>
      if segment.matches element then
        match deeper segment.children ((search.enter segment).push segment element) with
        | (true, search) => (true, search)
        | (false, search) => segments element deeper rest search.pop
      else segments element deeper rest (search.enter segment)

/-- This is the recursive `handle`; true is the result `E_ok`. -/
def path : List Text → List PathSegment → Search → Bool × Search
  | [], _, search => (true, search)
  | element :: elements, level, search => segments element (path elements) level search

end Search

/-- The routes of the server. -/
structure Router where
  root : List PathSegment

namespace Router

/-- The new segments of a path below a level; when one of them cannot be built, those before it stay. -/
def grow (regex : Text → Except Text (Text → Bool)) (handler : Option RequestHandler) :
    List Text → List PathSegment → Except Fault Unit × List PathSegment
  | [], level => (.ok (), level)
  | element :: elements, level =>
      match PathSegment.create regex element with
      | .error fault => (.error fault, level)
      | .ok (.node name param regexpr _ _) =>
          let (result, children) := grow regex handler elements []
          let segment : PathSegment := .node name param regexpr children (if elements.isEmpty then handler else none)
          (result, if regexpr.isSome then level ++ [segment] else segment :: level)

/-- The first segment with a name is changed; there may be none. -/
def change (changed : PathSegment → Except Fault Unit × PathSegment) (name : Text) :
    List PathSegment → Option (Except Fault Unit × List PathSegment)
  | [] => none
  | segment :: rest =>
      if segment.name == name then
        let (result, segment) := changed segment
        some (result, segment :: rest)
      else (change changed name rest).map fun (result, rest) => (result, segment :: rest)

/-- The two loops of `add`: it follows the names of the elements as far as there are such segments. -/
def addBelow (regex : Text → Except Text (Text → Bool)) (handler : Option RequestHandler) :
    List Text → List PathSegment → Except Fault Unit × List PathSegment
  | [], level => (.ok (), level)
  | element :: elements, level =>
      let follow : PathSegment → Except Fault Unit × PathSegment
        | .node name param regexpr children old =>
            let (result, children) := addBelow regex handler elements children
            (result, .node name param regexpr children (if elements.isEmpty then handler else old))
      (change follow element level).getD (grow regex handler (element :: elements) level)

/-- This is `add`; a path without elements changes nothing. -/
def add (regex : Text → Except Text (Text → Bool)) (path : Text) (handler : Option RequestHandler) (router : Router) :
    Except Fault Unit × Router :=
  let (result, root) := addBelow regex handler (split path.length path) router.root
  (result, ⟨root⟩)

/-- The map of parameters keeps the first value of a name. -/
def setPathParameter (parameters : Params) (parameter : Text × Text) : Params :=
  if parameters.any fun old => old.1 == parameter.1 then parameters else parameters ++ [parameter]

/-- The bodies that no response may have; the exception has the status of the response. -/
def checkBody (request : Request) (response : Response) : Except Fault Response := do
  let status := response.status
  if response.body.isSome then
    if request.method = .M_HEAD then
      throw (.exception (text "no body allowed for method " ++ request.method.str) .INTERNAL_SERVER_ERROR)
    else if request.method = .M_CONNECT ∧ status.isSuccess then
      throw (.exception (text "no body allowed with method " ++ request.method.str ++ text " when status code is " ++
        decimal status.value) status)
    if status.isInfo ∨ status = .NO_CONTENT ∨ status = .NOT_MODIFIED then
      throw (.exception (text "no body allowed when status code is " ++ decimal status.value) status)
  pure response

/-- A missing handler is the empty function, whose call throws. -/
def call (handler : Option RequestHandler) (request : Request) : Except Fault Response :=
  match handler with
  | some handler => handler request
  | none => .error .badFunctionCall

/-- This is `handle` of a request. -/
def handle (router : Router) (request : Request) : Except Fault Response :=
  let component := request.uri.path.component
  match Search.path (split component.length component) router.root .init with
  | (true, search) =>
      let request := { request with parameters := search.stack.foldl setPathParameter request.parameters }
      match (do checkBody request (← call (search.seg.bind PathSegment.handler) request)) with
      | .error .badFunctionCall =>
          .error (.notImplemented (request.method.str ++ text " is not implemented for resource (" ++
            request.uri.str ++ text ")"))
      | result => result
  | (false, _) => .error (.notFound (text "resource (" ++ request.uri.str ++ text ") is not found"))

end Router

end SimpleNFast.Http
