import SimpleNFast.Proof.Http.UriDots

set_option maxRecDepth 100000

namespace SimpleNFast.Http

namespace Resolution

open UriPath

variable {path rest last : Text} {segments place others found : List Text}

theorem walk_inside (inside : ∀ segment ∈ place, Inside segment) (whole : ∀ part ∈ found, byte '/' ∉ part) :
    ∀ segment ∈ Move.walk place (found.map move), Inside segment :=
  Move.walk_forall inside fun segment member => (items_move whole segment member).2

theorem walk_last (place others : List Text) (last : Text) :
    Move.walk place ((others ++ [last]).map move) = (move last).apply (Move.walk place (others.map move)) := by
  rw [List.map_append, Move.walk_append]
  rfl

/-- The segments of an absolute path are the way of its parts. -/
theorem remaining_absolute (shape : parts rest = others ++ [last]) :
    remaining (byte '/' :: rest) = (move last).apply (Move.walk [] (others.map move)) := by
  rw [remaining, ← Move.walk_root, parts_slash, shape, List.map_cons, Move.walk_cons, move_empty, walk_last]
  rfl

theorem component_absolute (slashAtEnd : Bool) (same : slashAtEnd = decide (last = [])) :
    segmentsToPath segments true slashAtEnd =
      if segments = [] then [] else rooted segments ++ if last = [] then text "/" else [] := by
  by_cases none : segments = []
  · rw [if_pos none, none]
    rfl
  · rw [if_neg none, segmentsToPath_rooted none, same]
    by_cases empty : last = []
    · rw [if_pos empty, if_pos (decide_eq_true empty)]
      rfl
    · rw [if_neg empty, decide_eq_false empty, if_neg Bool.false_ne_true]

theorem removeDotSegments_absolute (shape : parts rest = others ++ [last]) (proper : ∀ segment ∈ others, Whole segment)
    (whole : byte '/' ∉ last) :
    removeDotSegments (byte '/' :: rest) = rooted (stem (Move.walk [] (others.map move)) last ++ [tip last]) := by
  rw [← rooted_parts, shape, removeDotSegments_rooted proper whole]

/-- The path of a URI with a host is the one from which the dots are removed. -/
theorem normal_reaches (single : ¬ text "//" <:+: path) (begins : path = [] ∨ path.head? = some (byte '/')) :
    ∃ segments, removeDotSegments path = rooted segments ∧ Reaches (normal path) (rooted segments) path := by
  obtain rfl | begins := begins
  · exact ⟨[], rfl, rfl, .inl rfl⟩
  · obtain ⟨rest, others, last, rfl, shape, proper, whole⟩ := absolute_parts single begins
    have parts : parts (byte '/' :: rest) = ([] :: others) ++ [last] := by rw [parts_slash, shape, List.cons_append]
    refine ⟨_, removeDotSegments_absolute shape proper whole, ?_⟩
    have inside : ∀ segment ∈ Move.walk [] (others.map move), Whole segment := fun segment member =>
      (walk_inside (by simp) (fun segment member => (proper segment member).whole) segment member).toWhole
    refine (reaches_iff inside whole (lastPart_parts parts) ?_).2 (remaining_absolute shape)
    exact component_absolute _ (getLast_parts parts (List.cons_ne_nil _ _))

theorem Reaches.absolute {path : UriPath} {named : Text} (reaches : Reaches path (rooted segments) named) :
    path.component = [] ∨ path.component.head? = some (byte '/') := by
  cases segments with
  | nil =>
      obtain same | ⟨same, -⟩ := reaches.get
      · exact .inl same
      · exact .inl (List.append_eq_nil_iff.1 same).1
  | cons first segments =>
      rw [rooted_cons] at reaches
      obtain same | ⟨same, -⟩ := reaches.get
      · rw [same]
        exact .inr rfl
      · cases shape : path.component with
        | nil => exact .inl rfl
        | cons char component =>
            rw [shape, List.cons_append, List.cons.injEq] at same
            exact .inr (congrArg some same.1)

/-- The target of a reference with a relative path. -/
theorem removeDotSegments_merged {base reference baseLast : Text} {baseOthers : List Text}
    (baseShape : parts base = baseOthers ++ [baseLast]) (baseProper : ∀ segment ∈ baseOthers, Whole segment)
    (baseWhole : byte '/' ∉ baseLast) (shape : parts reference = others ++ [last])
    (proper : ∀ segment ∈ others, Whole segment) (whole : byte '/' ∉ last) :
    removeDotSegments (mergePaths (removeDotSegments (byte '/' :: base)) reference) =
      rooted (stem (Move.walk (stem (Move.walk [] (baseOthers.map move)) baseLast) (others.map move)) last ++
        [tip last]) := by
  have ahead : ∀ segment ∈ stem (Move.walk [] (baseOthers.map move)) baseLast, Inside segment :=
    stem_forall (walk_inside (by simp) fun segment member => (baseProper segment member).whole) baseLast
  rw [removeDotSegments_absolute baseShape baseProper baseWhole]
  generalize stem (Move.walk [] (baseOthers.map move)) baseLast = above at ahead
  have plain : byte '/' ∉ (tip baseLast).reverse := by
    rw [List.mem_reverse]
    exact tip_whole baseWhole
  have filled : rooted above ++ byte '/' :: tip baseLast ≠ [] :=
    List.append_ne_nil_of_right_ne_nil _ (List.cons_ne_nil _ _)
  have behind : ((rooted above ++ byte '/' :: tip baseLast).reverse.dropWhile (· != byte '/')).reverse =
      rooted above ++ [byte '/'] := by
    rw [List.reverse_append, List.reverse_cons, List.append_assoc, List.singleton_append, Uri.dropWhile_before plain,
      List.reverse_cons, List.reverse_reverse]
  have merged : mergePaths (rooted (above ++ [tip baseLast])) reference = rooted ((above ++ others) ++ [last]) := by
    rw [rooted_snoc, mergePaths, if_neg filled, behind, List.append_assoc, List.singleton_append, ← rooted_parts,
      ← rooted_append, shape, List.append_assoc]
  have moves : above.map move = above.map Move.down := List.map_congr_left fun segment member => (ahead segment member).move
  rw [merged, removeDotSegments_rooted _ whole, List.map_append, Move.walk_append, moves, Move.walk_down, List.nil_append]
  rw [List.forall_mem_append]
  exact ⟨fun segment member => (ahead segment member).toWhole, proper⟩

theorem mergeSegment_move {segment : Text} (filled : segment ≠ []) (place : List Text) :
    mergeSegment place segment = (move segment).apply place := by
  rw [mergeSegment, move]
  by_cases double : segment = text ".."
  · simp [double, Move.apply]
  · by_cases single : segment = text "."
    · have other : text "." ≠ text ".." := by decide
      simp [single, other, Move.apply]
    · simp [double, single, filled, Move.apply]

/-- Merging walks along the segments of the relative path. -/
theorem foldl_mergeSegment (place found : List Text) :
    (found.filter fun part => !part.isEmpty).foldl mergeSegment place = Move.walk place (found.map move) := by
  induction found generalizing place with
  | nil => rfl
  | cons first found inductionHypothesis =>
      cases first with
      | nil => exact inductionHypothesis place
      | cons char first =>
          rw [List.map_cons, Move.walk_cons, ← mergeSegment_move (List.cons_ne_nil _ _), ← inductionHypothesis]
          rfl

/-- A relative path is merged by a walk, and its segments are set again. -/
theorem merge_walk {base : UriPath} (begins : path.head? ≠ some (byte '/')) :
    base.merge (normal path) =
      if Move.walk base.segments.dropLast ((parts path).map move) = [] then .ok .empty
      else UriPath.set .empty (segmentsToPath (Move.walk base.segments.dropLast ((parts path).map move))
        base.slashAtStart (path.getLast? == some (byte '/'))) := by
  have relative : (path.head? == some (byte '/')) = false := beq_eq_false_iff_ne.2 begins
  have found : mergeSegments base (normal path) = Move.walk base.segments.dropLast ((parts path).map move) := by
    rw [mergeSegments, normal, relative]
    exact foldl_mergeSegment _ _
  rw [merge, found]
  change (if (path.head? == some (byte '/')) = true then _ else _) = _
  rw [relative, if_neg Bool.false_ne_true]
  simp only [List.isEmpty_iff]
  rfl

/-- The path that a relative path is merged into. -/
theorem merge_relative {base : UriPath} (begins : path.head? ≠ some (byte '/'))
    (whole : ∀ segment ∈ base.segments, Whole segment)
    (start : base.slashAtStart = true → ∀ segment ∈ base.segments, Inside segment)
    (kept : ∀ segment ∈ Move.walk base.segments.dropLast ((parts path).map move), ∀ char ∈ segment,
      keeps (toInt char) = true) :
    ∃ merged, base.merge (normal path) = .ok merged ∧
      merged.segments = Move.walk base.segments.dropLast ((parts path).map move) ∧
      merged.component = segmentsToPath merged.segments base.slashAtStart (path.getLast? == some (byte '/')) := by
  have inner := fun segment member => (items_move (parts_whole path) segment member).2
  rw [merge_walk begins]
  generalize walked : Move.walk base.segments.dropLast ((parts path).map move) = way at kept ⊢
  have above {holds : Text → Prop} (ahead : ∀ segment ∈ base.segments, holds segment)
      (proper : ∀ segment, Inside segment → holds segment) : ∀ segment ∈ way, holds segment := by
    rw [← walked]
    exact Move.walk_forall (fun segment member => ahead segment ((List.dropLast_subset _) member))
      fun segment member => proper segment (inner segment member)
  by_cases none : way = []
  · rw [if_pos none, none]
    exact ⟨.empty, rfl, rfl, rfl⟩
  · have decoded := decodeKeeping_all (segmentsToPath_chars (by decide) kept base.slashAtStart
      (path.getLast? == some (byte '/')))
    have normal := normal_segmentsToPath none (above whole fun segment inside => inside.toWhole) base.slashAtStart
      (path.getLast? == some (byte '/')) fun absolute => above (start absolute) fun segment inside => inside
    rw [if_neg none, set_decoded decoded, normal]
    exact ⟨_, rfl, rfl, rfl⟩

section Targets

variable {base reference result : Uri}

/-- What remains to be shown of a target with the authority of the base URI. -/
theorem resolves_base (host : reference.host = []) (target : targetPath base reference = rooted segments)
    (path : UriPath) (query : Text) :
    Resolves base reference { base with path, query, fragment := reference.fragment } ↔
      Reaches path (rooted segments) (lastPath base reference) ∧ query = targetQuery base reference := by
  constructor
  · intro resolves
    rw [← target]
    exact ⟨resolves.path, resolves.query⟩
  · rintro ⟨reaches, same⟩
    exact ⟨rfl, by rw [if_neg (not_not.2 host)], by rwa [target], reaches.absolute, same, rfl⟩

theorem exists_ok {program : Except Fault Uri} {holds : Uri → Prop} (found : program = .ok result) :
    (∃ given, program = .ok given ∧ holds given) ↔ holds result := by
  rw [found]
  constructor
  · rintro ⟨given, same, proved⟩
    cases same
    exact proved
  · exact fun proved => ⟨result, rfl, proved⟩

section Shapes

variable (relative : reference.scheme = [])
include relative

theorem merge_host (host : reference.host ≠ []) :
    base.merge reference = .ok { reference with scheme := base.scheme } := by
  obtain ⟨scheme, userinfo, name, port, path, query, fragment⟩ := reference
  cases relative
  cases userinfo <;> cases port <;> simp_all [Uri.merge, Uri.empty, pure, Except.pure]

theorem merge_same (host : reference.host = []) (none : reference.path.component = []) :
    base.merge reference = .ok { base with
      query := if reference.query = [] then base.query else reference.query
      fragment := reference.fragment } := by
  rw [Uri.merge, relative, host, none]
  cases reference.query <;> rfl

theorem merge_map (host : reference.host = []) (some : reference.path.component ≠ []) :
    base.merge reference = (base.path.merge reference.path).map fun path =>
      { base with path, query := reference.query, fragment := reference.fragment } := by
  have filled : (!reference.path.component.isEmpty) = true := by simpa using some
  rw [Uri.merge, relative, host]
  simp only [filled]
  cases base.path.merge reference.path <;> rfl

theorem merge_path {path : UriPath} (host : reference.host = []) (some : reference.path.component ≠ [])
    (merged : base.path.merge reference.path = .ok path) :
    base.merge reference = .ok { base with path, query := reference.query, fragment := reference.fragment } := by
  rw [merge_map relative host some, merged]
  rfl

end Shapes

variable (relative : reference.scheme = []) (literal : base.Literal) (given : reference.Literal)

/-- A reference with a host has its own path. -/
theorem host_resolves (relative : reference.scheme = []) (given : reference.Literal) (host : reference.host ≠ []) :
    ∃ result, base.merge reference = .ok result ∧ Resolves base reference result := by
  refine ⟨_, merge_host relative host, ?_⟩
  obtain ⟨segments, target, reaches⟩ := normal_reaches given.path.single (given.rooted host)
  rw [← given.normal] at reaches
  have last : lastPath base reference = reference.path.path := by rw [lastPath, if_neg fun both => host both.1]
  have query : targetQuery base reference = reference.query := by rw [targetQuery, if_neg fun both => host both.1]
  refine ⟨rfl, by rw [if_pos host], ?_, reaches.absolute, query.symm, rfl⟩
  rw [targetPath, if_pos host, target, last]
  exact reaches

/-- A reference without a path has the path of the base URI. -/
theorem empty_resolves (relative : reference.scheme = []) (literal : base.Literal) (given : reference.Literal)
    (authority : base.host ≠ []) (host : reference.host = []) (none : reference.path.path = []) :
    ∃ result, base.merge reference = .ok result ∧ Resolves base reference result := by
  have component : reference.path.component = [] := by
    rw [given.normal, none]
    rfl
  refine ⟨_, merge_same relative host component, ?_⟩
  obtain ⟨segments, target, reaches⟩ := normal_reaches literal.path.single (literal.rooted authority)
  rw [← literal.normal] at reaches
  have absent : ¬ reference.host ≠ [] := not_not.2 host
  have last : lastPath base reference = base.path.path := by rw [lastPath, if_pos ⟨host, none⟩]
  have whole : targetPath base reference = rooted segments := by rw [targetPath, if_neg absent, if_pos none, target]
  refine (resolves_base host whole _ _).2 ⟨by rwa [last], ?_⟩
  rw [targetQuery]
  simp only [host, none, true_and]

/-- An absolute path replaces that of the base URI, unless all its segments are removed. -/
theorem absolute_resolves (authority : base.host ≠ []) (relative : reference.scheme = []) (literal : base.Literal)
    (given : reference.Literal) (host : reference.host = []) (begins : reference.path.path.head? = some (byte '/')) :
    (∃ result, base.merge reference = .ok result ∧ Resolves base reference result) ↔
      (remaining reference.path.path ≠ [] ∨
        remaining base.path.path = [] ∧ (reference.query ≠ [] ∨ base.query = [])) := by
  have filled : reference.path.path ≠ [] := by
    intro none
    rw [none] at begins
    cases begins
  have absent : ¬ reference.host ≠ [] := not_not.2 host
  obtain ⟨segments, target, reaches⟩ := normal_reaches given.path.single (.inr begins)
  rw [← given.normal] at reaches
  have whole : targetPath base reference = rooted segments := by
    rw [targetPath, if_neg absent, if_neg filled, if_pos begins, target]
  have last : lastPath base reference = reference.path.path := by
    rw [lastPath, if_neg fun both => filled both.2]
  have query : targetQuery base reference = reference.query := by
    rw [targetQuery, if_neg fun both => filled both.2.1]
  have kept : reference.path.segments = remaining reference.path.path := by
    rw [given.normal, normal_segments (.inr begins)]
    rfl
  have ahead : base.path.segments = remaining base.path.path := by
    rw [literal.normal, normal_segments (literal.rooted authority)]
    rfl
  have component : reference.path.component = [] ↔ remaining reference.path.path = [] := by
    rw [given.normal, normal_component, normal_segments (.inr begins)]
    rfl
  by_cases none : remaining reference.path.path = []
  · have empty := component.2 none
    rw [exists_ok (merge_same relative host empty), resolves_base host whole, query]
    have targeted : UriPath.filled (rooted segments) = [] := by rw [← reaches.segments, kept, none]
    have path : Reaches base.path (rooted segments) (lastPath base reference) ↔ remaining base.path.path = [] := by
      rw [← ahead]
      constructor
      · intro found
        rw [found.segments, targeted]
      · intro left
        have bare : base.path.component = [] := by
          rw [literal.normal, normal_component, ← literal.normal, left]
        rw [last]
        exact ⟨by rw [left, targeted], by rw [bare, ← empty]; exact reaches.get⟩
    change Reaches base.path _ _ ∧ (if reference.query = [] then base.query else reference.query) = _ ↔ _
    rw [path, or_iff_right (not_not.2 none)]
    by_cases question : reference.query = []
    · simp [question]
    · simp [question]
  · have merged : base.path.merge reference.path = .ok reference.path := by
      rw [given.normal, merge, normal, beq_iff_eq.2 begins]
      rfl
    rw [exists_ok (merge_path relative host (mt component.1 none) merged), resolves_base host whole, last]
    exact iff_of_true ⟨reaches, query.symm⟩ (.inl none)

/-- The segments of a base URI end above the reference when its last part is a segment. -/
theorem climb_iff (way : List Text) (last : Text) (moves : List (Move Text)) :
    Move.walk ((move last).apply way).dropLast moves = Move.walk (stem way last) moves ↔
      (∃ segment, move last = .down segment) ∨ ((move last).apply way).length ≤ Move.rises moves := by
  rw [stem, move]
  by_cases double : last = text ".."
  · rw [if_pos double, if_pos double]
    simp [Move.apply, Move.walk_dropLast_iff]
  · rw [if_neg double, if_neg double]
    by_cases stays : last = text "." ∨ last = []
    · rw [if_pos stays]
      simp [Move.apply, Move.walk_dropLast_iff]
    · rw [if_neg stays]
      simp [Move.apply]

/-- A relative path needs a base path whose last part is a segment, or it climbs to the root. -/
theorem relative_resolves (authority : base.host ≠ []) (relative : reference.scheme = []) (literal : base.Literal)
    (given : reference.Literal) (host : reference.host = []) (filled : reference.path.path ≠ [])
    (begins : reference.path.path.head? ≠ some (byte '/')) :
    (∃ result, base.merge reference = .ok result ∧ Resolves base reference result) ↔
      if base.path.path = [] then Move.left (climbs reference) = []
      else (∃ segment, move (lastPart base.path.path) = .down segment) ∨
        (remaining base.path.path).length ≤ Move.rises (climbs reference) := by
  have absent : ¬ reference.host ≠ [] := not_not.2 host
  have lastNamed : lastPath base reference = reference.path.path := by
    rw [lastPath, if_neg fun both => filled both.2]
  have query : targetQuery base reference = reference.query := by
    rw [targetQuery, if_neg fun both => filled both.2.1]
  have targeted : targetPath base reference =
      removeDotSegments (mergePaths (removeDotSegments base.path.path) reference.path.path) := by
    rw [targetPath, if_neg absent, if_neg filled, if_neg begins]
  obtain ⟨others, last, shape, proper, whole⟩ := relative_parts given.path.single begins
  have ends : (reference.path.path.getLast? == some (byte '/')) = decide (last = []) := getLast_parts shape filled
  have component : reference.path.component ≠ [] := by
    rw [given.normal, Ne, normal_component, normal, beq_eq_false_iff_ne.2 begins]
    change UriPath.filled reference.path.path ≠ []
    intro none
    rw [UriPath.filled, List.filter_eq_nil_iff, shape] at none
    have empty : last = [] := by simpa using none last (by simp)
    cases others with
    | nil =>
        have joined := join_parts reference.path.path
        rw [shape, empty] at joined
        exact filled joined.symm
    | cons first others =>
        exact (proper first List.mem_cons_self).filled (by simpa using none first (by simp))
  have ahead : base.path.segments = remaining base.path.path := by
    rw [literal.normal, normal_segments (literal.rooted authority)]
    rfl
  have inside : ∀ segment ∈ base.path.segments, Inside segment := by
    rw [ahead]
    exact remaining_inside base.path.path
  have kept : ∀ segment ∈ base.path.segments, ∀ char ∈ segment, keeps (toInt char) = true := by
    rw [ahead]
    intro segment member char within
    have part := (items_move (parts_whole base.path.path) segment ((Move.left_sublist _).subset member)).1
    exact literal.path.chars char (parts_chars part within)
  have taken : ∀ segment ∈ Move.walk base.path.segments.dropLast ((parts reference.path.path).map move),
      ∀ char ∈ segment, keeps (toInt char) = true :=
    Move.walk_forall (fun segment member => kept segment ((List.dropLast_subset _) member))
      fun segment member char within =>
        given.path.chars char (parts_chars (items_move (parts_whole _) segment member).1 within)
  obtain ⟨merged, found, segments, get⟩ :=
    merge_relative begins (fun segment member => (inside segment member).toWhole) (fun _ => inside) taken
  rw [← given.normal] at found
  rw [← climbs, ahead] at segments
  have moved (place : List Text) :
      Move.walk place (climbs reference) = (move last).apply (Move.walk place (others.map move)) := by
    rw [climbs, shape, walk_last]
  rw [exists_ok (merge_path relative host component found)]
  by_cases none : base.path.path = []
  · have left : remaining base.path.path = [] := by
      rw [none]
      decide
    have start : base.path.slashAtStart = false := by
      rw [literal.normal, none]
      rfl
    have way : merged.segments = Move.left (climbs reference) := by
      rw [segments, left, ← Move.walk_root]
      rfl
    have target : targetPath base reference =
        rooted (stem (Move.walk [] (others.map move)) last ++ [tip last]) := by
      have empty : removeDotSegments [] = [] := rfl
      rw [targeted, none, empty, mergePaths, if_pos rfl, removeDotSegments_absolute shape proper whole]
    have above : ∀ segment ∈ Move.walk [] (others.map move), Whole segment := fun segment member =>
      (walk_inside (by simp) (fun segment member => (proper segment member).whole) segment member).toWhole
    have below : ∀ segment ∈ merged.segments, Whole segment := by
      rw [segments, left, climbs]
      exact fun segment member => (walk_inside (by simp) (parts_whole _) segment member).toWhole
    rw [resolves_base host target, if_pos none, ← way, lastNamed, and_iff_left query.symm]
    constructor
    · intro reaches
      by_contra more
      rw [start] at get
      obtain bare | slash := reaches.absolute
      · have same := filled_segmentsToPath more below false (reference.path.path.getLast? == some (byte '/'))
        rw [← get, bare] at same
        exact more same.symm
      · have head := head_segmentsToPath more below false (reference.path.path.getLast? == some (byte '/'))
        rw [← get, slash] at head
        cases head
    · intro bare
      refine (reaches_iff above whole (lastPart_parts shape) ?_).2 ?_
      · rw [get, bare]
        rfl
      · rw [← moved, Move.walk_root, ← way]
  · have slash := (literal.rooted authority).resolve_left none
    have start : base.path.slashAtStart = true := by
      rw [literal.normal, UriPath.normal, beq_iff_eq.2 slash]
    obtain ⟨rest, baseOthers, baseLast, path, baseShape, baseProper, baseWhole⟩ :=
      absolute_parts literal.path.single slash
    have baseParts : parts base.path.path = ([] :: baseOthers) ++ [baseLast] := by
      rw [path, parts_slash, baseShape, List.cons_append]
    have target : targetPath base reference =
        rooted (stem (Move.walk (stem (Move.walk [] (baseOthers.map move)) baseLast) (others.map move)) last ++
          [tip last]) := by
      rw [targeted, path, removeDotSegments_merged baseShape baseProper baseWhole shape proper whole]
    have stemmed : ∀ segment ∈ stem (Move.walk [] (baseOthers.map move)) baseLast, Inside segment :=
      stem_forall (walk_inside (by simp) fun segment member => (baseProper segment member).whole) baseLast
    have above : ∀ segment ∈ Move.walk (stem (Move.walk [] (baseOthers.map move)) baseLast) (others.map move),
        Whole segment := fun segment member =>
      (walk_inside stemmed (fun segment member => (proper segment member).whole) segment member).toWhole
    rw [start, component_absolute _ ends] at get
    rw [resolves_base host target, if_neg none, lastNamed, and_iff_left query.symm,
      reaches_iff above whole (lastPart_parts shape) get, segments, ← moved, lastPart_parts baseParts, path,
      remaining_absolute baseShape, climb_iff]

end Targets

/-- A reference without a scheme is resolved against a URI with a host exactly when no segment is lost or misplaced. -/
theorem merge_resolves_iff (baseString referenceString : Text) (base reference : Uri)
    (plain : byte '%' ∉ baseString ∧ byte '%' ∉ referenceString)
    (parsed : Uri.parse baseString = .ok base ∧ Uri.parse referenceString = .ok reference)
    (host : base.host ≠ []) (relative : reference.scheme = []) :
    (∃ result, base.merge reference = .ok result ∧ Resolves base reference result) ↔ Sound base reference := by
  rw [Uri.parse_read, Uri.parse_read] at parsed
  have literal := Uri.read_literal plain.1 parsed.1
  have given := Uri.read_literal plain.2 parsed.2
  rw [Sound]
  by_cases named : reference.host = []
  · by_cases empty : reference.path.path = []
    · rw [if_pos (.inr empty)]
      exact iff_of_true (empty_resolves relative literal given host named empty) trivial
    · rw [if_neg (by simp [named, empty])]
      by_cases begins : reference.path.path.head? = some (byte '/')
      · rw [if_pos begins]
        exact absolute_resolves host relative literal given named begins
      · rw [if_neg begins]
        exact relative_resolves host relative literal given named empty begins
  · rw [if_pos (.inl named)]
    exact iff_of_true (host_resolves relative given named) trivial

theorem merge_resolves_root :
    (∃ result, Uri.merge ⟨text "h", [], text "a", [], .empty, [], []⟩ { Uri.empty with path := .normal (text "..") } =
        .ok result ∧
      Resolves ⟨text "h", [], text "a", [], .empty, [], []⟩ { Uri.empty with path := .normal (text "..") } result) ↔
      Sound ⟨text "h", [], text "a", [], .empty, [], []⟩ { Uri.empty with path := .normal (text "..") } :=
  merge_resolves_iff (text "h://a") (text "..") _ _ (by decide) (by decide) (by decide) rfl

/-- A reference to a base URI without a path is glued to its host. -/
theorem merge_resolves_glued : ¬ ∀ baseString referenceString base reference,
    byte '%' ∉ baseString ∧ byte '%' ∉ referenceString →
    Uri.parse baseString = .ok base ∧ Uri.parse referenceString = .ok reference →
    base.scheme ≠ [] → base.host ≠ [] → reference.scheme = [] →
    ∃ result, base.merge reference = .ok result ∧ Resolves base reference result := by
  intro holds
  obtain ⟨result, merged, resolves⟩ := holds (text "h://a") (text "g")
    ⟨text "h", [], text "a", [], .empty, [], []⟩ { Uri.empty with path := .normal (text "g") } (by decide) (by decide)
    (by decide) (by decide) rfl
  have found : Uri.merge ⟨text "h", [], text "a", [], .empty, [], []⟩ { Uri.empty with path := .normal (text "g") } =
      .ok ⟨text "h", [], text "a", [], .normal (text "g"), [], []⟩ := by decide
  rw [found] at merged
  cases merged
  exact absurd resolves.absolute (by decide)

end Resolution

end SimpleNFast.Http
