import SimpleNFast.Proof.Http.SearchStack

namespace SimpleNFast.Http
open ForestSearch

section Table

variable {regex : Text → Except Text (Text → Bool)} {handlers laterHandlers : Nat → Option RequestHandler}
  {number : Nat} {element : Text} {level : List Branch}

theorem segments_eq (level : List Branch) :
    Branch.segments regex handlers level = level.map (Branch.segment regex handlers) := by
  induction level with
  | nil => rfl
  | cons branch rest others =>
      rw [Branch.segments, others]
      rfl

theorem segment_node (route : Option Nat) (children : List Branch) :
    Branch.segment regex handlers (.node element route children) =
      .node (Branch.name (.node element route children)) (Branch.param (.node element route children))
        (Branch.rule regex (.node element route children)) (children.map (Branch.segment regex handlers))
        (route.bind handlers) := by
  rw [Branch.segment, segments_eq]

@[simp] theorem segment_name (branch : Branch) : (branch.segment regex handlers).name = branch.name := by
  cases branch
  rfl

@[simp] theorem segment_handler (branch : Branch) :
    (branch.segment regex handlers).handler = branch.route.bind handlers := by
  cases branch
  rfl

@[simp] theorem segment_children (branch : Branch) :
    (branch.segment regex handlers).children = branch.children.map (Branch.segment regex handlers) := by
  cases branch
  exact segments_eq _

@[simp] theorem segment_matches (branch : Branch) (part : Text) :
    (branch.segment regex handlers).matches part = branch.matches regex part := by
  obtain ⟨element, route, children⟩ := branch
  unfold Branch.segment PathSegment.matches Branch.matches Branch.rule Branch.name
  cases braced : PathSegment.isBraced element with
  | true => simp [Branch.element, braced]
  | false => simp [Branch.element, braced, takes, acceptsBy, regularExpression]

@[simp] theorem segment_isParam (branch : Branch) : (branch.segment regex handlers).isParam = branch.isParam := by
  obtain ⟨element, route, children⟩ := branch
  show (!(Branch.param _).isEmpty) = PathSegment.isBraced element
  unfold Branch.param
  cases braced : PathSegment.isBraced element with
  | false => simp [Branch.element, braced]
  | true =>
      simp only [Branch.element, braced, if_true]
      split
      · rename_i param value read
        have filled := parameter_name read
        simpa using filled
      · cases element with
        | nil => cases braced
        | cons => rfl

/-- A new segment stands for the node of its element. -/
theorem create_segment {segment : PathSegment} (created : PathSegment.create regex element = .ok segment)
    (branch : Branch) (made : branch.element = element) :
    segment = .node branch.name branch.param (branch.rule regex) [] none := by
  unfold PathSegment.create at created
  unfold Branch.name Branch.param Branch.rule
  cases braced : PathSegment.isBraced element with
  | true =>
      rw [braced, if_pos rfl] at created
      cases read : PathSegment.parameter element with
      | error fault => simp [read, Bind.bind, Except.bind] at created
      | ok found =>
          cases found with
          | none => simp [read, Bind.bind, Except.bind] at created
          | some pair =>
              obtain ⟨param, name⟩ := pair
              simp only [read, Bind.bind, Except.bind] at created
              cases compiled : regex name with
              | error what => simp [compiled] at created
              | ok regexpr =>
                  simp only [compiled, pure, Except.pure, Except.ok.injEq] at created
                  subst created
                  have expression : regularExpression element = some name := by
                    simp [regularExpression, braced, read]
                  have rule : takes regex element = regexpr := by
                    funext part
                    simp [takes, acceptsBy, braced, expression, compiled]
                  simp [made, braced, expression, read, rule]
  | false =>
      rw [braced, if_neg (by simp)] at created
      split at created
      · cases created
      · simp only [pure, Except.pure, Except.ok.injEq] at created
        subst created
        simp [made, braced, regularExpression]

/-- New segments stand for new nodes, whatever the handlers are. -/
theorem grow_map {old new : Option RequestHandler} (numbered : laterHandlers number = new) (elements : List Text)
    {later : List PathSegment}
    (grown : Router.grow regex old elements (level.map (Branch.segment regex handlers)) = (.ok (), later)) :
    Router.grow regex new elements (level.map (Branch.segment regex laterHandlers)) =
      (.ok (), (Branch.grow number elements level).map (Branch.segment regex laterHandlers)) := by
  induction elements generalizing level later with
  | nil => rfl
  | cons element elements deeper =>
      unfold Router.grow at grown ⊢
      cases created : PathSegment.create regex element with
      | error fault => simp [created] at grown
      | ok segment =>
          have made := create_segment created
            (.node element (if elements.isEmpty then some number else none) (Branch.grow number elements [])) rfl
          rw [created, made] at grown
          rw [made]
          simp only at grown ⊢
          cases inner : Router.grow regex old elements [] with
          | mk result children =>
              rw [inner] at grown
              obtain ⟨rfl, -⟩ := Prod.mk.inj grown
              have below := deeper (show Router.grow regex old elements
                (([] : List Branch).map (Branch.segment regex handlers)) = (.ok (), children) from inner)
              rw [List.map_nil] at below
              rw [below]
              simp only [Branch.grow, Branch.rule, Branch.element]
              have handler : (if elements.isEmpty then new else none) =
                  (if elements.isEmpty then some number else none).bind laterHandlers := by
                cases elements.isEmpty with
                | true => exact numbered.symm
                | false => rfl
              by_cases braced : PathSegment.isBraced element = true
              · simp only [braced, if_true, Option.isSome_some, List.map_append, List.map_cons, List.map_nil, segment_node,
                  handler, Branch.rule, Branch.element]
              · simp only [braced, if_false, Option.isSome_none, List.map_cons, segment_node, handler, Branch.rule,
                  Branch.element, Bool.false_eq_true]

/-- The first segment with a name stands for the first node with it. -/
theorem change_map {follow laterFollow : PathSegment → Except Fault Unit × PathSegment} {followed : Branch → Branch}
    {name : Text} (follows : ∀ branch segment, follow (branch.segment regex handlers) = (.ok (), segment) →
      laterFollow (branch.segment regex laterHandlers) = (.ok (), (followed branch).segment regex laterHandlers)) :
    match Branch.change followed name level with
    | none => Router.change follow name (level.map (Branch.segment regex handlers)) = none ∧
        Router.change laterFollow name (level.map (Branch.segment regex laterHandlers)) = none
    | some changed => ∃ result later, Router.change follow name (level.map (Branch.segment regex handlers)) =
        some (result, later) ∧ (result = .ok () →
          Router.change laterFollow name (level.map (Branch.segment regex laterHandlers)) =
            some (.ok (), changed.map (Branch.segment regex laterHandlers))) := by
  induction level with
  | nil => exact ⟨rfl, rfl⟩
  | cons branch rest others =>
      simp only [Branch.change, Router.change, List.map_cons, segment_name]
      cases same : branch.name == name with
      | true =>
          simp only [if_true]
          cases did : follow (branch.segment regex handlers) with
          | mk result segment =>
              refine ⟨result, _, rfl, ?_⟩
              rintro rfl
              rw [follows branch segment did]
              rfl
      | false =>
          simp only [Bool.false_eq_true, if_false]
          cases found : Branch.change followed name rest with
          | none =>
              rw [found] at others
              obtain ⟨one, two⟩ := others
              rw [one, two]
              exact ⟨rfl, rfl⟩
          | some changed =>
              rw [found] at others
              obtain ⟨result, later, one, two⟩ := others
              refine ⟨result, _, by rw [one]; rfl, ?_⟩
              intro fine
              rw [two fine]
              rfl

/-- The change of a segment that a path follows. -/
def follow (regex : Text → Except Text (Text → Bool)) (handler : Option RequestHandler) (elements : List Text) :
    PathSegment → Except Fault Unit × PathSegment
  | .node name param regexpr children old =>
      ((Router.addBelow regex handler elements children).1,
        .node name param regexpr (Router.addBelow regex handler elements children).2
          (if elements.isEmpty then handler else old))

theorem addBelow_cons (handler : Option RequestHandler) (elements : List Text) (level : List PathSegment) :
    Router.addBelow regex handler (element :: elements) level =
      (Router.change (follow regex handler elements) element level).getD
        (Router.grow regex handler (element :: elements) level) := by
  unfold Router.addBelow
  congr 2

/-- The change of a node that a pattern follows. -/
def Branch.follow (number : Nat) (elements : List Text) : Branch → Branch
  | .node made old children =>
      .node made (if elements.isEmpty then some number else old) (Branch.add number elements children)

theorem add_cons (elements : List Text) :
    Branch.add number (element :: elements) level =
      (Branch.change (Branch.follow number elements) element level).getD
        (Branch.grow number (element :: elements) level) := by
  unfold Branch.add
  congr 2

/-- A call of `add` that succeeds does the same to the table, whatever the handlers are. -/
theorem addBelow_map {old new : Option RequestHandler} (numbered : laterHandlers number = new) (elements : List Text)
    {later : List PathSegment}
    (added : Router.addBelow regex old elements (level.map (Branch.segment regex handlers)) = (.ok (), later)) :
    Router.addBelow regex new elements (level.map (Branch.segment regex laterHandlers)) =
      (.ok (), (Branch.add number elements level).map (Branch.segment regex laterHandlers)) := by
  induction elements generalizing level later with
  | nil => rfl
  | cons element elements deeper =>
      rw [addBelow_cons] at added ⊢
      rw [add_cons]
      have follows : ∀ branch segment,
          follow regex old elements (branch.segment regex handlers) = (.ok (), segment) →
          follow regex new elements (branch.segment regex laterHandlers) =
            (.ok (), (Branch.follow number elements branch).segment regex laterHandlers) := by
        intro branch segment did
        obtain ⟨made, route, children⟩ := branch
        rw [segment_node] at did ⊢
        have below := deeper (Prod.ext (Prod.mk.inj did).1 rfl)
        have handler : (if elements.isEmpty then new else route.bind laterHandlers) =
            (if elements.isEmpty then some number else route).bind laterHandlers := by
          cases elements.isEmpty with
          | true => exact numbered.symm
          | false => rfl
        rw [follow, below, Branch.follow, segment_node, handler]
        rfl
      have step := @change_map regex handlers laterHandlers level _ _ _ element follows
      cases changed : Branch.change (Branch.follow number elements) element level with
      | none =>
          rw [changed] at step
          rw [step.1] at added
          rw [step.2]
          exact grow_map numbered (element :: elements) added
      | some changed' =>
          rw [changed] at step
          obtain ⟨result, segments, one, two⟩ := step
          rw [one] at added
          rw [two (Prod.mk.inj added).1]
          rfl

theorem table_concat (patterns : List Text) (pattern : Text) :
    table (patterns ++ [pattern]) = Branch.add patterns.length (elements pattern) (table patterns) := by
  simp [table, List.zipIdx_append]

theorem add_iff {router later : Router} {path : Text} {handler : Option RequestHandler} :
    router.add regex path handler = (.ok (), later) ↔
      Router.addBelow regex handler (elements path) router.root = (.ok (), later.root) := by
  obtain ⟨root⟩ := later
  unfold Router.add elements
  cases Router.addBelow regex handler (split path.length path) router.root with
  | mk result level => simp

/-- The handlers have the numbers of their routes. -/
def Numbers (handlers : Nat → Option RequestHandler) (routes : List Route) : Prop :=
  ∀ (number : Nat) route, routes[number]? = some route → handlers number = route.handler

theorem Numbers.concat {routes : List Route} {route : Route} (numbers : Numbers handlers (routes ++ [route])) :
    Numbers handlers routes ∧ handlers routes.length = route.handler := by
  constructor
  · intro number other here
    apply numbers
    rw [List.getElem?_append_left (List.getElem?_eq_some_iff.1 here).1]
    exact here
  · apply numbers
    simp

/-- The handlers of routes under their numbers. -/
def handlersOf (routes : List Route) (number : Nat) : Option RequestHandler := routes[number]?.bind Route.handler

theorem handlersOf_numbers (routes : List Route) : Numbers (handlersOf routes) routes := by
  intro number route here
  rw [handlersOf, here]
  rfl

/-- The router stands for the table of its patterns. -/
theorem Registered.root_eq {routes : List Route} {router : Router} (registered : Registered regex routes router)
    (numbers : Numbers handlers routes) :
    router.root = (table (routes.map Route.pattern)).map (Branch.segment regex handlers) := by
  induction registered with
  | none => rfl
  | @add routes router later before route added rootBefore =>
      obtain ⟨numbersBefore, numbered⟩ := numbers.concat
      rw [add_iff, rootBefore numbersBefore] at added
      rw [← List.length_map (f := Route.pattern)] at numbered
      have did := addBelow_map numbered _ added
      rw [added] at did
      rw [List.map_append, List.map_singleton, table_concat]
      exact (Prod.mk.inj did).2

/-- The same patterns enter with other handlers. -/
theorem Registered.retag {routes : List Route} {router : Router} (registered : Registered regex routes router)
    {others : List Route} (same : others.map Route.pattern = routes.map Route.pattern) (numbers : Numbers handlers others) :
    Registered regex others ⟨(table (routes.map Route.pattern)).map (Branch.segment regex handlers)⟩ := by
  induction registered generalizing others with
  | none =>
      rw [List.map_nil, List.map_eq_nil_iff] at same
      rw [same]
      exact .none
  | @add routes router later before route added addedBefore =>
      obtain ⟨others, other, rfl⟩ := List.eq_nil_or_concat' others |>.resolve_left (by
        rintro rfl
        simp at same)
      rw [List.map_append, List.map_append] at same
      obtain ⟨same, last⟩ := List.append_inj' same rfl
      have pattern : other.pattern = route.pattern := by simpa using last
      obtain ⟨numbersBefore, numbered⟩ := numbers.concat
      have length : others.length = (routes.map Route.pattern).length := by
        rw [← same, List.length_map]
      rw [length] at numbered
      apply Registered.add (addedBefore same numbersBefore)
      rw [add_iff, before.root_eq (handlersOf_numbers routes)] at added
      rw [add_iff, pattern, List.map_append, List.map_singleton, table_concat]
      exact addBelow_map numbered _ added

/-- The search in the router finds the segments of the nodes that are taken. -/
theorem Registered.found_eq {routes : List Route} {router : Router} (registered : Registered regex routes router)
    (numbers : Numbers handlers routes) (path : Text) :
    firstSegments (elements path) router.root =
      (taken regex (routes.map Route.pattern) path).map (List.map (Branch.segment regex handlers)) := by
  rw [registered.root_eq numbers]
  exact firstPath_map segment_children segment_matches (elements path) _

theorem Registered.invoked_eq {routes : List Route} {router : Router} (registered : Registered regex routes router)
    (numbers : Numbers handlers routes) (path : Text) :
    router.invoked path = (taken regex (routes.map Route.pattern) path).bind fun nodes =>
      (nodes.getLast?.bind Branch.route).bind handlers := by
  obtain ⟨found, last⟩ := Search.path_result (elements path) router.root .init
  rw [registered.found_eq numbers] at found last
  unfold Router.invoked
  cases result : Search.path (elements path) router.root .init with
  | mk fine search =>
      rw [result] at found last
      cases nodes : taken regex (routes.map Route.pattern) path with
      | none =>
          rw [nodes] at found
          cases found
          rfl
      | some nodes' =>
          rw [nodes] at found last
          cases found
          simp only [Option.map_some, List.getLast?_map] at last
          simp only [last, Option.bind_some]
          cases nodes'.getLast? with
          | none => rfl
          | some branch => simp

/-- A pattern finds a node by the element that made it, or by the regular expression of this element. -/
def Finds (made element : Text) : Prop := made = element ∨ (regularExpression made).getD made = element

/-- A node of the table below these elements is the end of a route. -/
inductive Entry : List Branch → List Text → Nat → Prop where
  | here {level : List Branch} {branch : Branch} {number : Nat} (inside : branch ∈ level)
      (route : branch.route = some number) : Entry level [branch.element] number
  | deeper {level : List Branch} {branch : Branch} {number : Nat} {texts : List Text} (inside : branch ∈ level)
      (entry : Entry branch.children texts number) : Entry level (branch.element :: texts) number

theorem entry_of_path {nodes : List Branch} {ended : Nat} (path : IsPath Branch.children level nodes)
    (route : nodes.getLast?.bind Branch.route = some ended) : Entry level (nodes.map Branch.element) ended := by
  induction nodes generalizing level with
  | nil => cases route
  | cons branch rest below =>
      obtain ⟨inside, path⟩ := path
      cases rest with
      | nil => exact .here inside route
      | cons next rest =>
          rw [List.getLast?_cons_cons] at route
          exact .deeper inside (below path route)

theorem Entry.mono {texts : List Text} {ended : Nat} {later : List Branch} (entry : Entry level texts ended)
    (part : ∀ branch ∈ level, branch ∈ later) : Entry later texts ended := by
  cases entry with
  | here inside route => exact .here (part _ inside) route
  | deeper inside entry => exact .deeper (part _ inside) entry

/-- An entry of a level with one other node is an entry of the level or begins at this node. -/
theorem Entry.split {texts : List Text} {ended : Nat} {later : List Branch} {branch : Branch}
    (entry : Entry later texts ended) (members : ∀ other ∈ later, other = branch ∨ other ∈ level) :
    Entry level texts ended ∨ Entry [branch] texts ended := by
  cases entry with
  | @here _ other _ inside route =>
      obtain rfl | inside := members _ inside
      · exact Or.inr (.here (List.mem_singleton.2 rfl) route)
      · exact Or.inl (.here inside route)
  | @deeper _ other _ _ inside entry =>
      obtain rfl | inside := members _ inside
      · exact Or.inr (.deeper (List.mem_singleton.2 rfl) entry)
      · exact Or.inl (.deeper inside entry)

/-- A new node ends at the new route only. -/
theorem grow_entry {texts pattern : List Text} {ended : Nat} (entry : Entry (Branch.grow number pattern level) texts ended) :
    Entry level texts ended ∨ ended = number ∧ List.Forall₂ Finds texts pattern := by
  induction pattern generalizing level texts with
  | nil => exact Or.inl entry
  | cons element pattern below =>
      unfold Branch.grow at entry
      have split : Entry level texts ended ∨ Entry [Branch.node element
          (if pattern.isEmpty then some number else none) (Branch.grow number pattern [])] texts ended := by
        apply entry.split
        intro other member
        by_cases braced : PathSegment.isBraced element = true
        · simp only [braced, if_true, List.mem_append, List.mem_singleton] at member
          exact member.symm
        · simp only [braced, if_false, List.mem_cons, Bool.false_eq_true] at member
          exact member
      refine split.imp_right ?_
      intro entry
      cases entry with
      | here inside route =>
          rw [List.mem_singleton] at inside
          subst inside
          cases pattern with
          | nil => exact ⟨(Option.some.inj route).symm, .cons (Or.inl rfl) .nil⟩
          | cons next pattern => cases route
      | deeper inside entry =>
          rw [List.mem_singleton] at inside
          subst inside
          obtain nothing | ⟨same, finds⟩ := below entry
          · cases nothing with
            | here inside => cases inside
            | deeper inside => cases inside
          · exact ⟨same, .cons (Or.inl rfl) finds⟩

theorem change_some_branch {changed : Branch → Branch} {name : Text} {later : List Branch}
    (did : Branch.change changed name level = some later) :
    ∃ before branch after, level = before ++ branch :: after ∧ branch.name = name ∧
      later = before ++ changed branch :: after := by
  induction level generalizing later with
  | nil => cases did
  | cons branch rest others =>
      unfold Branch.change at did
      split at did
      · rename_i same
        cases did
        exact ⟨[], branch, rest, rfl, by simpa using same, rfl⟩
      · obtain ⟨restLater, didRest, rfl⟩ := Option.map_eq_some_iff.1 did
        obtain ⟨before, found, after, rfl, same, rfl⟩ := others didRest
        exact ⟨branch :: before, found, after, rfl, same, rfl⟩

/-- A new entry of the table is the one of the new pattern. -/
theorem add_entry {texts pattern : List Text} {ended : Nat} (entry : Entry (Branch.add number pattern level) texts ended) :
    Entry level texts ended ∨ ended = number ∧ List.Forall₂ Finds texts pattern := by
  induction pattern generalizing level texts with
  | nil => exact Or.inl entry
  | cons element pattern below =>
      rw [add_cons] at entry
      cases did : Branch.change (Branch.follow number pattern) element level with
      | none =>
          rw [did] at entry
          exact grow_entry entry
      | some later =>
          rw [did, Option.getD_some] at entry
          obtain ⟨before, ⟨made, old, children⟩, after, rfl, named, rfl⟩ := change_some_branch did
          have finds : Finds made element := Or.inr named
          have split : Entry (before ++ after) texts ended ∨ Entry [Branch.follow number pattern (.node made old children)]
              texts ended := by
            apply entry.split
            intro other member
            rw [List.mem_append, List.mem_cons] at member
            rw [List.mem_append]
            tauto
          obtain entry | entry := split
          · refine Or.inl (entry.mono ?_)
            intro other member
            rw [List.mem_append] at member
            rw [List.mem_append, List.mem_cons]
            tauto
          · have inside : Branch.node made old children ∈ before ++ Branch.node made old children :: after := by simp
            cases entry with
            | here member route =>
                rw [List.mem_singleton] at member
                subst member
                cases pattern with
                | nil => exact Or.inr ⟨(Option.some.inj route).symm, .cons finds .nil⟩
                | cons next pattern => exact Or.inl (@Entry.here _ (.node made old children) _ inside route)
            | deeper member entry =>
                rw [List.mem_singleton] at member
                subst member
                obtain entry | ⟨same, rest⟩ := below entry
                · exact Or.inl (@Entry.deeper _ (.node made old children) _ _ inside entry)
                · exact Or.inr ⟨same, .cons finds rest⟩

/-- An entry of the table is the one of the pattern with its number. -/
theorem table_entry {patterns : List Text} {texts : List Text} {ended : Nat} (entry : Entry (table patterns) texts ended) :
    ∃ pattern, patterns[ended]? = some pattern ∧ List.Forall₂ Finds texts (elements pattern) := by
  induction patterns using List.reverseRecOn with
  | nil =>
      cases entry with
      | here inside => cases inside
      | deeper inside => cases inside
  | append_singleton patterns pattern before =>
      rw [table_concat] at entry
      obtain entry | ⟨rfl, finds⟩ := add_entry entry
      · obtain ⟨found, here, finds⟩ := before entry
        refine ⟨found, ?_, finds⟩
        rw [List.getElem?_append_left (List.getElem?_eq_some_iff.1 here).1]
        exact here
      · exact ⟨pattern, by simp, finds⟩

/-- The route that ends at the taken nodes found them, and their own elements accept the path. -/
theorem taken_finds {patterns : List Text} {path : Text} {nodes : List Branch} {ended : Nat}
    (took : taken regex patterns path = some nodes) (route : nodes.getLast?.bind Branch.route = some ended) :
    ∃ pattern, patterns[ended]? = some pattern ∧ List.Forall₂ Finds (nodes.map Branch.element) (elements pattern) ∧
      List.Forall₂ (fun branch part => takes regex (Branch.element branch) part = true) nodes (elements path) := by
  obtain ⟨isPath, accepted⟩ := firstPath_isPath took
  obtain ⟨pattern, here, finds⟩ := table_entry (entry_of_path isPath route)
  exact ⟨pattern, here, finds, accepted⟩

theorem ending_eq {patterns : List Text} {path : Text} {nodes : List Branch} {ended : Nat} {pattern : Text}
    (took : taken regex patterns path = some nodes) (route : nodes.getLast?.bind Branch.route = some ended)
    (here : patterns[ended]? = some pattern) : ending regex patterns path = some pattern := by
  rw [ending, took, Option.bind_some, route, Option.bind_some, here]

/-- A pattern that keeps its own rules matches the path whose nodes are taken. -/
theorem matches_of_keeps {patterns : List Text} {path : Text} {nodes : List Branch} {ended : Nat}
    (keeps : KeepsOwnRules regex patterns path) (took : taken regex patterns path = some nodes)
    (route : nodes.getLast?.bind Branch.route = some ended) :
    ∃ pattern, patterns[ended]? = some pattern ∧ Matches regex pattern path := by
  obtain ⟨pattern, here, finds, accepted⟩ := taken_finds took route
  refine ⟨pattern, here, ?_⟩
  have own := keeps nodes pattern took (ending_eq took route here)
  obtain ⟨partLength, accepted⟩ := List.forall₂_iff_get.1 accepted
  have patternLength := finds.length_eq
  rw [List.length_map] at patternLength
  refine List.forall₂_iff_get.2 ⟨patternLength.symm.trans partLength, ?_⟩
  intro place inPattern inPath
  have inNodes : place < nodes.length := by omega
  have fits := accepted place inNodes inPath
  have given := own place _ _ _ (List.getElem?_eq_getElem inNodes) (List.getElem?_eq_getElem inPattern)
    (List.getElem?_eq_getElem inPath)
  by_cases same : nodes[place].element = (elements pattern)[place]
  · by_cases read : regularExpression (elements pattern)[place] = writtenExpression (elements pattern)[place]
    · rw [List.get_eq_getElem, same, takes, read] at fits
      exact fits
    · exact given (Or.inr read)
  · exact given (Or.inl same)

/-- A handler for each number. -/
def numberedHandler (number : Nat) : RequestHandler := fun _ => .error (.invalidArgument (List.replicate number 0))

theorem numberedHandler_injective : Function.Injective numberedHandler := by
  intro one two same
  have here := congrFun same ⟨.M_GET, .empty, ⟨text "HTTP", 1, 1⟩, .empty, none, []⟩
  have lists : List.replicate one (0 : UInt8) = List.replicate two 0 := by
    simpa [numberedHandler] using here
  simpa using congrArg List.length lists

/-- Routes with a handler for each number. -/
def numberedRoutes (patterns : List Text) : List Route :=
  patterns.zipIdx.map fun (pattern, number) => ⟨pattern, some (numberedHandler number)⟩

theorem numberedRoutes_patterns (patterns : List Text) : (numberedRoutes patterns).map Route.pattern = patterns := by
  rw [numberedRoutes, List.map_map]
  exact List.zipIdx_map_fst 0 patterns

theorem numberedRoutes_getElem (patterns : List Text) (number : Nat) :
    (numberedRoutes patterns)[number]? = patterns[number]?.map fun pattern => ⟨pattern, some (numberedHandler number)⟩ := by
  simp [numberedRoutes, List.getElem?_zipIdx, Function.comp_def]

theorem numberedRoutes_numbers (patterns : List Text) :
    Numbers (fun number => some (numberedHandler number)) (numberedRoutes patterns) := by
  intro number route here
  rw [numberedRoutes_getElem] at here
  obtain ⟨pattern, -, rfl⟩ := Option.map_eq_some_iff.1 here
  rfl

/-- The numbered routes of patterns that can be added are registered. -/
theorem Addable.numbered {patterns : List Text} (addable : Addable regex patterns) :
    ∃ router, Registered regex (numberedRoutes patterns) router := by
  obtain ⟨routes, router, rfl, registered⟩ := addable
  exact ⟨_, registered.retag (numberedRoutes_patterns _) (numberedRoutes_numbers _)⟩

/-- The number of an invoked numbered handler is the one of a matching pattern. -/
theorem numbered_matches {patterns : List Text} {path : Text} {route : Route} {ended : Nat}
    (inside : route ∈ numberedRoutes patterns) (same : route.handler = some (numberedHandler ended))
    (fits : Matches regex route.pattern path) : ∃ pattern, patterns[ended]? = some pattern ∧ Matches regex pattern path := by
  obtain ⟨number, here⟩ := List.mem_iff_getElem?.1 inside
  rw [numberedRoutes_getElem] at here
  obtain ⟨pattern, there, rfl⟩ := Option.map_eq_some_iff.1 here
  cases numberedHandler_injective (Option.some.inj same)
  exact ⟨pattern, there, fits⟩

/-- A pattern that matches the path whose nodes are taken keeps its own rules. -/
theorem keeps_of_matches {patterns : List Text} {path : Text}
    (fits : ∀ pattern, ending regex patterns path = some pattern → Matches regex pattern path) :
    KeepsOwnRules regex patterns path := by
  intro nodes pattern _ ends place branch element part _ inPattern inPath _
  obtain ⟨_, accepted⟩ := List.forall₂_iff_get.1 (fits pattern ends)
  obtain ⟨inside, rfl⟩ := List.getElem?_eq_some_iff.1 inPattern
  obtain ⟨within, rfl⟩ := List.getElem?_eq_some_iff.1 inPath
  exact accepted place inside within

end Table

/-- The search in the router makes the moves of the table. -/
theorem Registered.popsEntries_iff {regex : Text → Except Text (Text → Bool)} {routes : List Route} {router : Router}
    (registered : Registered regex routes router) (path : Text) :
    router.PopsEntries path ↔ ∀ front, front <+: moves Branch.children (Branch.matches regex) Branch.isParam
      (elements path) (table (routes.map Route.pattern)) → front.count false ≤ front.count true := by
  have height := Search.path_height (elements path) router.root .init
  rw [registered.root_eq (handlersOf_numbers routes), moves_map segment_children segment_matches segment_isParam] at height
  unfold Router.PopsEntries
  rw [registered.root_eq (handlersOf_numbers routes)]
  have popped := congrArg Prod.snd height
  rw [Search.height] at popped
  simp only at popped
  rw [popped]
  simpa [Search.height, Search.init] using replay_iff _ 0

/-- The answer for an invoked handler is the one of the handler. -/
theorem answersWith_of_invoked {router : Router} {request : Request} {handler : RequestHandler}
    (invoked : router.invoked request.uri.path.component = some handler) : router.AnswersWith request handler := by
  unfold Router.invoked elements at invoked
  cases result : Search.path (split request.uri.path.component.length request.uri.path.component) router.root .init with
  | mk found search =>
      rw [result] at invoked
      cases found with
      | false => cases invoked
      | true =>
          refine ⟨search.stack.foldl Router.setPathParameter request.parameters, ?_⟩
          intro asked answer defined
          have called : (do Router.checkBody asked (← Router.call (search.seg.bind PathSegment.handler) asked)) = answer := by
            simp only at invoked
            rw [invoked]
            rfl
          unfold Router.handle
          simp only [result]
          rw [show ({ request with parameters := search.stack.foldl Router.setPathParameter request.parameters } : Request) =
            asked from rfl, called]
          cases same : answer with
          | ok response => rfl
          | error fault =>
              cases fault
              case badFunctionCall => exact absurd same defined
              all_goals rfl

/-- A handler is invoked only for a path that its pattern matches if and only if no pattern takes the path through the
node of another element, unless its own element accepts this part of the path too. -/
theorem routing_sound_iff (regex : Text → Except Text (Text → Bool)) (patterns : List Text)
    (addable : Addable regex patterns) (path : Text) :
    RoutesSoundly regex patterns path ↔ KeepsOwnRules regex patterns path := by
  constructor
  · intro soundly
    apply keeps_of_matches
    intro pattern ends
    obtain ⟨router, registered⟩ := addable.numbered
    have invoked := registered.invoked_eq (numberedRoutes_numbers patterns) path
    rw [numberedRoutes_patterns] at invoked
    unfold ending at ends
    obtain ⟨nodes, took, ends⟩ := Option.bind_eq_some_iff.1 ends
    obtain ⟨ended, route, here⟩ := Option.bind_eq_some_iff.1 ends
    rw [took, Option.bind_some, route, Option.bind_some] at invoked
    obtain ⟨found, inside, same, fits⟩ := soundly _ router (numberedRoutes_patterns patterns) registered _ invoked
    obtain ⟨matching, there, fits⟩ := numbered_matches inside same fits
    rw [here] at there
    cases there
    exact fits
  · rintro keeps routes router rfl registered handler invoked
    rw [registered.invoked_eq (handlersOf_numbers routes)] at invoked
    obtain ⟨nodes, took, invoked⟩ := Option.bind_eq_some_iff.1 invoked
    obtain ⟨ended, route, handled⟩ := Option.bind_eq_some_iff.1 invoked
    obtain ⟨pattern, here, fits⟩ := matches_of_keeps keeps took route
    obtain ⟨found, there, same⟩ := Option.bind_eq_some_iff.1 handled
    rw [List.getElem?_map, there] at here
    cases here
    exact ⟨found, List.mem_of_getElem? there, same, fits⟩

/-- When a pattern matches a path, the handler of a matching pattern is invoked and gives the response if and only if
the first nodes that accept the path are those of a whole pattern with its own rules, and the search for them pops what
it pushed. -/
theorem routing_complete_iff (regex : Text → Except Text (Text → Bool)) (patterns : List Text)
    (addable : Addable regex patterns) (path : Text) :
    ((∃ pattern ∈ patterns, Matches regex pattern path) → RoutesCompletely regex patterns path) ↔
      ((∃ pattern ∈ patterns, Matches regex pattern path) → Served regex patterns path) := by
  apply imp_congr_right
  intro _
  constructor
  · intro completely
    obtain ⟨router, registered⟩ := addable.numbered
    have given : ∀ route ∈ numberedRoutes patterns, route.handler ≠ none := by
      intro route inside
      obtain ⟨number, here⟩ := List.mem_iff_getElem?.1 inside
      rw [numberedRoutes_getElem] at here
      obtain ⟨pattern, -, rfl⟩ := Option.map_eq_some_iff.1 here
      exact Option.some_ne_none _
    obtain ⟨route, inside, handler, fits, handled, pops, invoked, -⟩ :=
      completely _ router (numberedRoutes_patterns patterns) registered given
    rw [registered.invoked_eq (numberedRoutes_numbers patterns), numberedRoutes_patterns] at invoked
    obtain ⟨nodes, took, invoked⟩ := Option.bind_eq_some_iff.1 invoked
    obtain ⟨ended, last, same⟩ := Option.bind_eq_some_iff.1 invoked
    obtain ⟨pattern, here, fits⟩ := numbered_matches inside (handled.trans same.symm) fits
    have ends := ending_eq took last here
    refine ⟨by rw [ends]; rfl, ?_, ?_⟩
    · apply keeps_of_matches
      intro other otherEnds
      rw [ends] at otherEnds
      cases otherEnds
      exact fits
    · have pushes := (registered.popsEntries_iff path).1 pops
      rwa [numberedRoutes_patterns] at pushes
  · rintro served routes router rfl registered given
    obtain ⟨pattern, ends⟩ := Option.isSome_iff_exists.1 served.ends
    unfold ending at ends
    obtain ⟨nodes, took, ends⟩ := Option.bind_eq_some_iff.1 ends
    obtain ⟨ended, last, here⟩ := Option.bind_eq_some_iff.1 ends
    obtain ⟨matching, there, fits⟩ := matches_of_keeps served.ownRules took last
    rw [List.getElem?_map] at there
    obtain ⟨route, inside, rfl⟩ := Option.map_eq_some_iff.1 there
    obtain ⟨handler, handled⟩ := Option.ne_none_iff_exists'.1 (given route (List.mem_of_getElem? inside))
    have invoked : router.invoked path = some handler := by
      rw [registered.invoked_eq (handlersOf_numbers routes), took, Option.bind_some, last, Option.bind_some, handlersOf,
        inside, Option.bind_some, handled]
    refine ⟨route, List.mem_of_getElem? inside, handler, fits, handled, (registered.popsEntries_iff path).2 served.pushes,
      invoked, ?_⟩
    rintro request rfl
    exact answersWith_of_invoked invoked

theorem Registered.step {regex : Text → Except Text (Text → Bool)} {routes : List Route} {router : Router}
    (before : Registered regex routes router) (route : Route)
    (fine : (router.add regex route.pattern route.handler).1.toBool = true) :
    Registered regex (routes ++ [route]) (router.add regex route.pattern route.handler).2 := by
  apply Registered.add before
  cases added : router.add regex route.pattern route.handler with
  | mk result later =>
      rw [added] at fine
      cases result with
      | error fault => cases fine
      | ok => rfl

/-- A regular expression whose only special character is the dot. -/
def dotRegex (name : Text) : Except Text (Text → Bool) := .ok fun part =>
  name.length == part.length && (name.zip part).all fun (one, two) => one == byte '.' || one == two

/-- The literal of the second pattern is the regular expression of the first one. -/
def clashingPatterns : List Text := [text "\x7bname=a.c\x7d/p", text "a.c/q"]

/-- The router of these patterns, where the literal of the second one is found as the parameter. -/
instance clashingPatterns_added :
    let first := Router.add dotRegex (text "\x7bname=a.c\x7d/p") (some (numberedHandler 0)) ⟨[]⟩
    Fact (first.1.toBool = true ∧ (first.2.add dotRegex (text "a.c/q") (some (numberedHandler 1))).1.toBool = true) :=
  ⟨by decide +kernel⟩

instance clashingPatterns_taken :
    Fact ((taken dotRegex clashingPatterns (text "/abc/q")).bind (fun nodes => nodes.getLast?.bind Branch.route) = some 1 ∧
      accepts dotRegex (text "a.c") (text "abc") = false ∧ elements (text "/abc/q") = [text "abc", text "q"] ∧
      elements (text "a.c/q") = [text "a.c", text "q"]) :=
  ⟨by decide +kernel⟩

theorem clashingPatterns_addable : Addable dotRegex clashingPatterns := by
  have first := @Registered.step dotRegex _ _ .none ⟨text "\x7bname=a.c\x7d/p", some (numberedHandler 0)⟩
    clashingPatterns_added.out.1
  have second := first.step ⟨text "a.c/q", some (numberedHandler 1)⟩ clashingPatterns_added.out.2
  exact ⟨_, _, rfl, second⟩

theorem routing_sound_iff_clashing :
    RoutesSoundly dotRegex clashingPatterns (text "/a.c/q") ↔ KeepsOwnRules dotRegex clashingPatterns (text "/a.c/q") :=
  routing_sound_iff dotRegex clashingPatterns clashingPatterns_addable (text "/a.c/q")

/-- The path does not begin with the literal of the second pattern, but its handler is invoked. -/
theorem clashingPatterns_unsound : ¬ ∀ regex patterns path, Addable regex patterns → RoutesSoundly regex patterns path := by
  intro claimed
  obtain ⟨router, registered⟩ := clashingPatterns_addable.numbered
  have soundly := claimed dotRegex clashingPatterns (text "/abc/q") clashingPatterns_addable
  have invoked := registered.invoked_eq (numberedRoutes_numbers clashingPatterns) (text "/abc/q")
  obtain ⟨ended, rejects, parts, own⟩ := clashingPatterns_taken.out
  rw [numberedRoutes_patterns, ← Option.bind_assoc, ended] at invoked
  obtain ⟨route, inside, same, fits⟩ := soundly _ router (numberedRoutes_patterns _) registered _ invoked
  obtain ⟨pattern, here, fits⟩ := numbered_matches inside same fits
  cases here
  rw [Matches, parts, own, List.forall₂_cons, rejects] at fits
  cases fits.1

/-- The first pattern passes a node for the literal of the path, and the second one is a parameter. -/
def hidingPatterns : List Text := [text "ab/c", text "\x7bname=..\x7d"]

/-- The router of these patterns. -/
instance hidingPatterns_added :
    let first := Router.add dotRegex (text "ab/c") (some (numberedHandler 0)) ⟨[]⟩
    Fact (first.1.toBool = true ∧
      (first.2.add dotRegex (text "\x7bname=..\x7d") (some (numberedHandler 1))).1.toBool = true) :=
  ⟨by decide +kernel⟩

instance hidingPatterns_taken :
    Fact ((taken dotRegex hidingPatterns (text "/ab")).bind (fun nodes => nodes.getLast?.bind Branch.route) = none ∧
      accepts dotRegex (text "\x7bname=..\x7d") (text "ab") = true ∧ elements (text "/ab") = [text "ab"] ∧
      elements (text "\x7bname=..\x7d") = [text "\x7bname=..\x7d"]) :=
  ⟨by decide +kernel⟩

theorem hidingPatterns_addable : Addable dotRegex hidingPatterns := by
  have first := @Registered.step dotRegex _ _ .none ⟨text "ab/c", some (numberedHandler 0)⟩ hidingPatterns_added.out.1
  have second := first.step ⟨text "\x7bname=..\x7d", some (numberedHandler 1)⟩ hidingPatterns_added.out.2
  exact ⟨_, _, rfl, second⟩

theorem routing_complete_iff_hiding :
    ((∃ pattern ∈ hidingPatterns, Matches dotRegex pattern (text "/de")) →
      RoutesCompletely dotRegex hidingPatterns (text "/de")) ↔
        ((∃ pattern ∈ hidingPatterns, Matches dotRegex pattern (text "/de")) →
          Served dotRegex hidingPatterns (text "/de")) :=
  routing_complete_iff dotRegex hidingPatterns hidingPatterns_addable (text "/de")

/-- The node of the literal has no handler, but the search ends there. -/
theorem hidingPatterns_incomplete : ¬ ∀ regex patterns path, Addable regex patterns →
    (∃ pattern ∈ patterns, Matches regex pattern path) → RoutesCompletely regex patterns path := by
  intro claimed
  obtain ⟨router, registered⟩ := hidingPatterns_addable.numbered
  obtain ⟨ended, accepted, parts, own⟩ := hidingPatterns_taken.out
  have fits : ∃ pattern ∈ hidingPatterns, Matches dotRegex pattern (text "/ab") := by
    refine ⟨text "\x7bname=..\x7d", by simp [hidingPatterns], ?_⟩
    rw [Matches, parts, own]
    exact .cons accepted .nil
  have given : ∀ route ∈ numberedRoutes hidingPatterns, route.handler ≠ none := by
    intro route inside
    simp only [numberedRoutes, hidingPatterns, List.zipIdx_cons, List.zipIdx_nil, List.map_cons, List.map_nil,
      List.mem_cons, List.not_mem_nil, or_false] at inside
    obtain rfl | rfl := inside
    · exact Option.some_ne_none _
    · exact Option.some_ne_none _
  obtain ⟨route, -, handler, -, -, -, invoked, -⟩ :=
    claimed dotRegex hidingPatterns (text "/ab") hidingPatterns_addable fits _ router (numberedRoutes_patterns _) registered given
  rw [registered.invoked_eq (numberedRoutes_numbers hidingPatterns), numberedRoutes_patterns, ← Option.bind_assoc,
    ended] at invoked
  cases invoked

end SimpleNFast.Http
