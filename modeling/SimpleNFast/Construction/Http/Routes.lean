/-
This file states what the router is for: a request goes to the handler of a pattern that matches its path, with the
parameters of the path, and a call of `add` that throws leaves a part of its pattern.
-/

import SimpleNFast.Construction.Http.Router
import SimpleNFast.Library.ForestSearch

namespace SimpleNFast.Http
open ForestSearch

/-- A call of `add`; the handler may be the empty function. -/
structure Route where
  pattern : Text
  handler : Option RequestHandler

/-- The elements of a path or of a pattern. -/
def elements (path : Text) : List Text := split path.length path

/-- The regular expression that the router reads from an element in braces. -/
def regularExpression (element : Text) : Option Text :=
  if PathSegment.isBraced element then
    match PathSegment.parameter element with
    | .ok (some (_, name)) => some name
    | _ => none
  else none

/-- The regular expression that stands in an element in braces after the name and an equals sign. -/
def writtenExpression (element : Text) : Option Text :=
  if PathSegment.isBraced element then
    let name := (element.drop 1).dropLast.dropWhile (isWhitespace ∘ toInt)
    match (name.dropWhile (isTchar ∘ toInt)).dropWhile (isWhitespace ∘ toInt) with
    | sign :: rest =>
        if sign == byte '=' && !(trim rest).isEmpty then some (trim rest) else some (text "[^/]+")
    | [] => some (text "[^/]+")
  else none

section Rules

variable (regex : Text → Except Text (Text → Bool))

/-- A literal accepts itself, and a parameter what a regular expression matches. -/
def acceptsBy (expression : Option Text) (element part : Text) : Bool :=
  if PathSegment.isBraced element then
    match expression.map regex with
    | some (.ok regexpr) => regexpr part
    | _ => false
  else part == element

/-- The rule of an element by the regular expression in it. -/
def accepts (element part : Text) : Bool := acceptsBy regex (writtenExpression element) element part

/-- The rule of the segment for an element. -/
def takes (element part : Text) : Bool := acceptsBy regex (regularExpression element) element part

/-- A pattern matches a path element by element. -/
def Matches (pattern path : Text) : Prop :=
  List.Forall₂ (fun element part => accepts regex element part = true) (elements pattern) (elements path)

/-- The routers after successful calls of `add`. -/
inductive Registered : List Route → Router → Prop where
  | none : Registered [] ⟨[]⟩
  | add {routes : List Route} {router later : Router} (before : Registered routes router) {route : Route}
      (added : router.add regex route.pattern route.handler = (.ok (), later)) :
      Registered (routes ++ [route]) later

/-- Each call of `add` with these patterns succeeds. -/
def Addable (patterns : List Text) : Prop :=
  ∃ routes router, routes.map Route.pattern = patterns ∧ Registered regex routes router

/-- The routers after any calls of `add`. -/
inductive Built : Router → Prop where
  | none : Built ⟨[]⟩
  | add {router : Router} (before : Built router) (path : Text) (handler : Option RequestHandler) :
      Built (router.add regex path handler).2

end Rules

/-- The handler that `handle` calls. -/
def Router.invoked (router : Router) (path : Text) : Option RequestHandler :=
  match Search.path (elements path) router.root .init with
  | (true, search) => search.seg.bind PathSegment.handler
  | (false, _) => none

/-- The search pops the stack of parameters only when it is not empty. -/
def Router.PopsEntries (router : Router) (path : Text) : Prop :=
  (Search.path (elements path) router.root .init).2.underflow = false

/-- The response is the one of the handler, unless the call of the handler itself ends with `std::bad_function_call`. -/
def Router.AnswersWith (router : Router) (request : Request) (handler : RequestHandler) : Prop :=
  ∃ parameters, let asked := { request with parameters := parameters }
    let answer := do Router.checkBody asked (← handler asked)
    answer ≠ .error .badFunctionCall → router.handle request = answer

/-- A handler is invoked only for a path that a pattern of this handler matches. -/
def RoutesSoundly (regex : Text → Except Text (Text → Bool)) (patterns : List Text) (path : Text) : Prop :=
  ∀ routes router, routes.map Route.pattern = patterns → Registered regex routes router →
    ∀ handler, router.invoked path = some handler →
      ∃ route ∈ routes, route.handler = some handler ∧ Matches regex route.pattern path

/-- When no handler is empty, the handler of a pattern that matches the path is invoked and gives the response. -/
def RoutesCompletely (regex : Text → Except Text (Text → Bool)) (patterns : List Text) (path : Text) : Prop :=
  ∀ routes router, routes.map Route.pattern = patterns → Registered regex routes router →
    (∀ route ∈ routes, route.handler ≠ none) →
      ∃ route ∈ routes, ∃ handler, Matches regex route.pattern path ∧ route.handler = some handler ∧
        router.PopsEntries path ∧ router.invoked path = some handler ∧
        ∀ request, request.uri.path.component = path → router.AnswersWith request handler

/-- A node of the table of patterns: the element that it was made for, and the last route that ends at it. -/
inductive Branch where
  | node (element : Text) (route : Option Nat) (children : List Branch)

namespace Branch

def element : Branch → Text
  | .node element _ _ => element

def route : Branch → Option Nat
  | .node _ route _ => route

def children : Branch → List Branch
  | .node _ _ children => children

/-- A parameter is found again by its regular expression. -/
def name (branch : Branch) : Text := (regularExpression branch.element).getD branch.element

def isParam (branch : Branch) : Bool := PathSegment.isBraced branch.element

def «matches» (regex : Text → Except Text (Text → Bool)) (branch : Branch) (part : Text) : Bool :=
  takes regex branch.element part

/-- The name of a parameter. -/
def param (branch : Branch) : Text :=
  if PathSegment.isBraced branch.element then
    match PathSegment.parameter branch.element with
    | .ok (some (param, _)) => param
    | _ => branch.element
  else []

/-- The rule of a parameter. -/
def rule (regex : Text → Except Text (Text → Bool)) (branch : Branch) : Option (Text → Bool) :=
  if PathSegment.isBraced branch.element then some (takes regex branch.element) else none

/-- New literals come first in a level, and new parameters come last. -/
def grow (number : Nat) : List Text → List Branch → List Branch
  | [], level => level
  | element :: elements, level =>
      let branch : Branch := .node element (if elements.isEmpty then some number else none) (grow number elements [])
      if PathSegment.isBraced element then level ++ [branch] else branch :: level

def change (changed : Branch → Branch) (name : Text) : List Branch → Option (List Branch)
  | [] => none
  | branch :: rest =>
      if branch.name == name then some (changed branch :: rest)
      else (change changed name rest).map (branch :: ·)

/-- A pattern enters the table; its first elements may find nodes that are there. -/
def add (number : Nat) : List Text → List Branch → List Branch
  | [], level => level
  | element :: elements, level =>
      let follow : Branch → Branch
        | .node made old children =>
            .node made (if elements.isEmpty then some number else old) (add number elements children)
      (change follow element level).getD (grow number (element :: elements) level)

end Branch

section Segments

variable (regex : Text → Except Text (Text → Bool)) (handlers : Nat → Option RequestHandler)

mutual

/-- The segment that stands for a node of the table. -/
def Branch.segment : Branch → PathSegment
  | .node element route children =>
      let branch : Branch := .node element route children
      .node branch.name branch.param (branch.rule regex) (segments children) (route.bind handlers)

def Branch.segments : List Branch → List PathSegment
  | [] => []
  | branch :: rest => branch.segment :: segments rest

end

end Segments

/-- The table of the patterns in their order. -/
def table (patterns : List Text) : List Branch :=
  patterns.zipIdx.foldl (fun level (pattern, number) => Branch.add number (elements pattern) level) []

/-- The first nodes of the table that accept the elements of a path. -/
def taken (regex : Text → Except Text (Text → Bool)) (patterns : List Text) (path : Text) : Option (List Branch) :=
  firstPath Branch.children (Branch.matches regex) (elements path) (table patterns)

/-- The pattern that ends at the last of these nodes. -/
def ending (regex : Text → Except Text (Text → Bool)) (patterns : List Text) (path : Text) : Option Text :=
  (taken regex patterns path).bind fun nodes => (nodes.getLast?.bind Branch.route).bind fun number => patterns[number]?

/-- Where a pattern found the node of another element, or where the router reads another regular expression than the
written one, the element of the pattern accepts the element of the path too. -/
def KeepsOwnRules (regex : Text → Except Text (Text → Bool)) (patterns : List Text) (path : Text) : Prop :=
  ∀ nodes pattern, taken regex patterns path = some nodes → ending regex patterns path = some pattern →
    ∀ (place : Nat) branch element part, nodes[place]? = some branch → (elements pattern)[place]? = some element →
      (elements path)[place]? = some part →
      branch.element ≠ element ∨ regularExpression element ≠ writtenExpression element → accepts regex element part = true

/-- The first nodes that accept the path are those of a whole pattern, and the search that finds them makes up for
each pop by a push before it. -/
structure Served (regex : Text → Except Text (Text → Bool)) (patterns : List Text) (path : Text) : Prop where
  ends : (ending regex patterns path).isSome
  ownRules : KeepsOwnRules regex patterns path
  pushes : ∀ front, front <+: moves Branch.children (Branch.matches regex) Branch.isParam (elements path)
    (table patterns) → front.count false ≤ front.count true

/-- The entries for the parameters of a path of segments, the last one on top. -/
def entries (segments : List PathSegment) (parts : List Text) : List (Text × Text) :=
  (((segments.zip parts).filter fun pair => pair.1.isParam).map fun pair => (pair.1.name, pair.2)).reverse

/-- A search without a result leaves the stack as it was, and one with a result leaves on it what its path pushed;
neither pops an empty stack. -/
def Disciplined (parts : List Text) (level : List PathSegment) : Prop :=
  ∀ seg stack, (Search.path parts level ⟨seg, stack, false⟩).2.underflow = false ∧
    match firstPath PathSegment.children PathSegment.matches parts level with
    | none => (Search.path parts level ⟨seg, stack, false⟩).1 = false ∧
        (Search.path parts level ⟨seg, stack, false⟩).2.stack = stack
    | some segments => (Search.path parts level ⟨seg, stack, false⟩).1 = true ∧
        (Search.path parts level ⟨seg, stack, false⟩).2.seg = segments.getLast?.or seg ∧
        (Search.path parts level ⟨seg, stack, false⟩).2.stack = entries segments parts ++ stack

/-- The request of `handle` after the search, which the handler gets. -/
def Router.delivered (router : Router) (request : Request) : Request :=
  let search := (Search.path (elements request.uri.path.component) router.root .init).2
  { request with parameters := search.stack.foldl setPathParameter request.parameters }

/-- The name of a parameter as it is read from an element in braces. -/
def declaredName (element : Text) : Option Text :=
  if PathSegment.isBraced element then
    match PathSegment.parameter element with
    | .ok (some (name, _)) => some name
    | _ => none
  else none

/-- The names of a pattern with the elements of a path that stand in their places. -/
def declared (pattern path : Text) : List (Text × Text) :=
  ((elements pattern).zip (elements path)).filterMap fun (element, part) => (declaredName element).map fun name => (name, part)

/-- The parameters that the search comes to and does not leave, the last one first; a parameter has the text of its
regular expression. -/
def held (regex : Text → Except Text (Text → Bool)) (patterns : List Text) (path : Text) : List (Text × Text) :=
  ((turns Branch.children (Branch.matches regex) Branch.isParam (elements path) (table patterns)).foldl hold []).map
    fun (branch, part) => (branch.name, part)

/-- The results of `handle`: a handler is called, or there is none at the resource, or there is no resource. -/
inductive Outcome where
  | invoked (handler : RequestHandler)
  | notImplemented
  | notFound

/-- The result of `handle` for a path. -/
def Router.outcome (router : Router) (path : Text) : Outcome :=
  match Search.path (elements path) router.root .init with
  | (true, search) =>
      match search.seg.bind PathSegment.handler with
      | some handler => .invoked handler
      | none => .notImplemented
  | (false, _) => .notFound

section Links

variable (regex : Text → Except Text (Text → Bool))

/-- The segments of the elements before the first one that is refused; each one is below the segment before it. -/
def chain : List Text → Option PathSegment
  | [] => none
  | element :: elements =>
      match PathSegment.create regex element with
      | .error _ => none
      | .ok (.node name param regexpr _ _) => some (.node name param regexpr (chain elements).toList none)

/-- A literal stands before the others, and a parameter behind them. -/
def place : Option PathSegment → List PathSegment → List PathSegment
  | none, level => level
  | some segment, level => if segment.isParam then level ++ [segment] else segment :: level

/-- The level with the segments that a refused path leaves in it or below it. -/
def linked : List Text → List PathSegment → List PathSegment
  | [], level => level
  | element :: elements, level =>
      match level.dropWhile fun segment => segment.name != element with
      | .node name param regexpr children handler :: after =>
          level.takeWhile (fun segment => segment.name != element) ++
            .node name param regexpr (linked elements children) handler :: after
      | [] => place (chain regex (element :: elements)) level

end Links

end SimpleNFast.Http
