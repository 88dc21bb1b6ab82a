import SimpleNFast.Proof.Http.UriSplitting

set_option maxRecDepth 100000

namespace SimpleNFast.Http

namespace UriPath

/-- A segment that a path can hold. -/
structure Whole (segment : Text) : Prop where
  filled : segment ≠ []
  whole : byte '/' ∉ segment

theorem Inside.toWhole {segment : Text} (inside : Inside segment) : Whole segment := ⟨inside.filled, inside.whole⟩

theorem Inside.move {segment : Text} (inside : Inside segment) : move segment = .down segment := by
  rw [UriPath.move, if_neg inside.double, if_neg]
  rw [not_or]
  exact ⟨inside.single, inside.filled⟩

/-- The segments with a slash before each. -/
def rooted (segments : List Text) : Text := segments.flatMap (byte '/' :: ·)

theorem rooted_cons (segment : Text) (segments : List Text) :
    rooted (segment :: segments) = byte '/' :: (segment ++ rooted segments) := rfl

theorem rooted_append (first second : List Text) : rooted (first ++ second) = rooted first ++ rooted second :=
  List.flatMap_append

/-- The text between the first slash and the end. -/
theorem rooted_join {segments : List Text} (filled : segments ≠ []) :
    rooted segments = byte '/' :: List.intercalate [byte '/'] segments := by
  induction segments with
  | nil => exact absurd rfl filled
  | cons first segments inductionHypothesis =>
      cases segments with
      | nil => simp [rooted]
      | cons second segments =>
          rw [rooted_cons, inductionHypothesis (List.cons_ne_nil _ _), List.intercalate_cons_cons]
          simp

theorem parts_join {segments : List Text} (filled : segments ≠ []) (whole : ∀ segment ∈ segments, byte '/' ∉ segment) :
    parts (List.intercalate [byte '/'] segments) = segments := List.splitOn_intercalate _ whole filled

theorem parts_rooted {segments : List Text} (whole : ∀ segment ∈ segments, byte '/' ∉ segment) :
    parts (rooted segments) = [] :: segments := by
  cases segments with
  | nil => rfl
  | cons first segments =>
      rw [rooted_join (List.cons_ne_nil _ _), parts_slash, parts_join (List.cons_ne_nil _ _) whole]

/-- A slash between two texts separates their parts. -/
theorem parts_between (first second : Text) : parts (first ++ byte '/' :: second) = parts first ++ parts second := by
  induction length : first.length using Nat.strong_induction_on generalizing first with
  | _ bound inductionHypothesis =>
      by_cases member : byte '/' ∈ first
      · obtain ⟨segment, more, rfl, whole⟩ := List.eq_append_cons_of_mem member
        rw [List.append_assoc, List.cons_append, parts_cons whole, parts_cons whole,
          inductionHypothesis more.length (by rw [← length, List.length_append, List.length_cons]; omega) more rfl]
        rfl
      · rw [parts_cons member, parts_of_plain member]
        rfl

theorem parts_ne_nil (path : Text) : parts path ≠ [] := List.splitOn_ne_nil _ _

theorem parts_last (path : Text) : ∃ others last, parts path = others ++ [last] := by
  obtain none | ⟨others, last, shape⟩ := List.eq_nil_or_concat (parts path)
  · exact absurd none (parts_ne_nil path)
  · exact ⟨others, last, by rw [shape, List.concat_eq_append]⟩

theorem join_parts (path : Text) : List.intercalate [byte '/'] (parts path) = path := List.intercalate_splitOn _

/-- A path that begins with a slash has a slash before each of its parts. -/
theorem rooted_parts (path : Text) : rooted (parts path) = byte '/' :: path := by
  rw [rooted_join (parts_ne_nil path), join_parts]

theorem parts_chars {path part : Text} {char : UInt8} (member : part ∈ parts path) (inside : char ∈ part) : char ∈ path := by
  have later : char ∈ rooted (parts path) := List.mem_flatMap.2 ⟨part, member, List.mem_cons_of_mem _ inside⟩
  rw [rooted_parts, List.mem_cons] at later
  obtain rfl | found := later
  · exact absurd inside (parts_whole path part member)
  · exact found

theorem join_last {others : List Text} (filled : others ≠ []) (last : Text) :
    List.intercalate [byte '/'] (others ++ [last]) = List.intercalate [byte '/'] others ++ byte '/' :: last := by
  induction others with
  | nil => exact absurd rfl filled
  | cons first others inductionHypothesis =>
      cases others with
      | nil => simp
      | cons second others =>
          rw [List.cons_append, List.cons_append, List.intercalate_cons_cons, List.intercalate_cons_cons,
            ← List.cons_append, inductionHypothesis (List.cons_ne_nil _ _)]
          simp

/-- The last part begins the path, or a slash stands before it. -/
theorem last_cases {path last : Text} {others : List Text} (shape : parts path = others ++ [last]) :
    byte '/' ∉ last ∧ (others = [] ∧ path = last ∨
      others ≠ [] ∧ path = List.intercalate [byte '/'] others ++ byte '/' :: last) := by
  have whole := parts_whole path last (by rw [shape]; simp)
  have joined := join_parts path
  rw [shape] at joined
  refine ⟨whole, ?_⟩
  cases others with
  | nil => exact .inl ⟨rfl, by rw [← joined]; simp⟩
  | cons first others =>
      refine .inr ⟨List.cons_ne_nil _ _, ?_⟩
      rw [← joined, join_last (List.cons_ne_nil _ _)]

/-- A path ends with a slash exactly when its last part is empty, if it is not empty. -/
theorem getLast_parts {path last : Text} {others : List Text} (shape : parts path = others ++ [last]) (filled : path ≠ []) :
    (path.getLast? == some (byte '/')) = decide (last = []) := by
  obtain ⟨whole, ⟨-, rfl⟩ | ⟨-, rfl⟩⟩ := last_cases shape
  · have other : path.getLast? ≠ some (byte '/') := fun same => whole (List.mem_of_getLast? same)
    rw [beq_eq_false_iff_ne.2 other, decide_eq_false filled]
  · cases last with
    | nil => simp
    | cons char last =>
        have other : (char :: last).getLast? ≠ some (byte '/') := fun same => whole (List.mem_of_getLast? same)
        rw [List.getLast?_append, List.getLast?_cons_cons, beq_eq_false_iff_ne.2, decide_eq_false (List.cons_ne_nil _ _)]
        rw [List.getLast?_eq_some_getLast (List.cons_ne_nil _ _)] at other ⊢
        exact other

section Joined

variable {segments : List Text} (filled : segments ≠ []) (proper : ∀ segment ∈ segments, Whole segment)
include filled

theorem segmentsToPath_join (slashAtStart slashAtEnd : Bool) :
    segmentsToPath segments slashAtStart slashAtEnd = (if slashAtStart then [byte '/'] else []) ++
      List.intercalate [byte '/'] segments ++ (if slashAtEnd then [byte '/'] else []) := by
  rw [segmentsToPath, if_neg (by simpa using filled)]

/-- An absolute path is written with a slash before each segment. -/
theorem segmentsToPath_rooted (slashAtEnd : Bool) :
    segmentsToPath segments true slashAtEnd = rooted segments ++ (if slashAtEnd then [byte '/'] else []) := by
  rw [segmentsToPath_join filled, rooted_join filled]
  rfl

include proper

theorem parts_segmentsToPath (slashAtStart slashAtEnd : Bool) :
    parts (segmentsToPath segments slashAtStart slashAtEnd) =
      (if slashAtStart then [[]] else []) ++ segments ++ (if slashAtEnd then [[]] else []) := by
  have joined := parts_join filled fun segment member => (proper segment member).whole
  have ended : parts (List.intercalate [byte '/'] segments ++ if slashAtEnd then [byte '/'] else []) =
      segments ++ if slashAtEnd then [[]] else [] := by
    cases slashAtEnd with
    | false =>
        rw [if_neg Bool.false_ne_true, if_neg Bool.false_ne_true, List.append_nil, List.append_nil, joined]
    | true =>
        rw [if_pos rfl, if_pos rfl, parts_between, joined]
        rfl
  rw [segmentsToPath_join filled, List.append_assoc]
  cases slashAtStart with
  | false =>
      rw [if_neg Bool.false_ne_true, if_neg Bool.false_ne_true, List.nil_append, List.nil_append]
      exact ended
  | true =>
      rw [if_pos rfl, if_pos rfl, List.singleton_append, parts_slash, ended]
      rfl

/-- A path that is written from its segments begins with a slash when it says so. -/
theorem head_segmentsToPath (slashAtStart slashAtEnd : Bool) :
    ((segmentsToPath segments slashAtStart slashAtEnd).head? == some (byte '/')) = slashAtStart := by
  rw [segmentsToPath_join filled]
  cases slashAtStart with
  | true => rfl
  | false =>
      obtain ⟨first, others, rfl⟩ := List.exists_cons_of_ne_nil filled
      obtain ⟨some, whole⟩ := proper first List.mem_cons_self
      obtain ⟨char, more, rfl⟩ := List.exists_cons_of_ne_nil some
      have other : char ≠ byte '/' := fun same => whole (by rw [same]; exact List.mem_cons_self)
      cases others with
      | nil => simp [other]
      | cons second others =>
          rw [List.intercalate_cons_cons]
          simp [other]

theorem last_segmentsToPath (slashAtStart slashAtEnd : Bool) :
    ((segmentsToPath segments slashAtStart slashAtEnd).getLast? == some (byte '/')) = slashAtEnd := by
  have shape := parts_segmentsToPath filled proper slashAtStart slashAtEnd
  have some : segmentsToPath segments slashAtStart slashAtEnd ≠ [] := by
    intro none
    rw [none] at shape
    obtain ⟨first, others, rfl⟩ := List.exists_cons_of_ne_nil filled
    have single : parts [] = [[]] := rfl
    rw [single] at shape
    cases slashAtStart with
    | true => simp at shape
    | false =>
        rw [if_neg Bool.false_ne_true, List.nil_append, List.cons_append, List.cons.injEq] at shape
        exact (proper first List.mem_cons_self).filled shape.1.symm
  cases slashAtEnd with
  | true =>
      rw [if_pos rfl] at shape
      rw [getLast_parts shape some]
      rfl
  | false =>
      obtain ⟨others, last, rfl⟩ : ∃ others last, segments = others ++ [last] := by
        obtain none | ⟨others, last, shape⟩ := List.eq_nil_or_concat segments
        · exact absurd none filled
        · exact ⟨others, last, by rw [shape, List.concat_eq_append]⟩
      rw [if_neg Bool.false_ne_true, List.append_nil, ← List.append_assoc] at shape
      rw [getLast_parts shape some, decide_eq_false (proper last (by simp)).filled]

theorem filled_segmentsToPath (slashAtStart slashAtEnd : Bool) :
    UriPath.filled (segmentsToPath segments slashAtStart slashAtEnd) = segments := by
  have all : segments.filter (fun part => !part.isEmpty) = segments := by
    rw [List.filter_eq_self]
    intro segment member
    simpa using (proper segment member).filled
  rw [UriPath.filled, parts_segmentsToPath filled proper, List.filter_append, List.filter_append, all]
  cases slashAtStart <;> cases slashAtEnd <;> simp

omit proper in
theorem remaining_segmentsToPath (inside : ∀ segment ∈ segments, Inside segment) (slashAtStart slashAtEnd : Bool) :
    remaining (segmentsToPath segments slashAtStart slashAtEnd) = segments := by
  have moves : segments.map move = segments.map Move.down :=
    List.map_congr_left fun segment member => (inside segment member).move
  have found := filled_segmentsToPath filled (fun segment member => (inside segment member).toWhole) slashAtStart slashAtEnd
  rw [remaining, ← Move.walk_root, ← walk_filled]
  change Move.walk [] ((UriPath.filled (segmentsToPath segments slashAtStart slashAtEnd)).map move) = _
  rw [found, moves, Move.walk_down, List.nil_append]

/-- A path that is written from its segments is normal. -/
theorem normal_segmentsToPath (slashAtStart slashAtEnd : Bool)
    (inside : slashAtStart = true → ∀ segment ∈ segments, Inside segment) :
    normal (segmentsToPath segments slashAtStart slashAtEnd) =
      ⟨segmentsToPath segments slashAtStart slashAtEnd, segmentsToPath segments slashAtStart slashAtEnd, segments,
        slashAtStart, slashAtEnd⟩ := by
  rw [normal, head_segmentsToPath filled proper, last_segmentsToPath filled proper]
  cases slashAtStart with
  | true =>
      simp only [if_true]
      rw [remaining_segmentsToPath filled (inside rfl)]
  | false =>
      simp only [Bool.false_eq_true, if_false]
      rw [filled_segmentsToPath filled proper]

end Joined

theorem segmentsToPath_chars {segments : List Text} {holds : UInt8 → Prop} (slash : holds (byte '/'))
    (inside : ∀ segment ∈ segments, ∀ char ∈ segment, holds char) (slashAtStart slashAtEnd : Bool) :
    ∀ char ∈ segmentsToPath segments slashAtStart slashAtEnd, holds char := by
  by_cases none : segments = []
  · subst none
    simp [segmentsToPath]
  · have joined : ∀ char ∈ List.intercalate [byte '/'] segments, holds char := by
      intro char member
      have later : char ∈ rooted segments := by
        rw [rooted_join none]
        exact List.mem_cons_of_mem _ member
      rw [rooted, List.mem_flatMap] at later
      obtain ⟨segment, isSegment, named⟩ := later
      obtain rfl | within := List.mem_cons.1 named
      · exact slash
      · exact inside segment isSegment char within
    have slashes (flag : Bool) : ∀ char ∈ (if flag then [byte '/'] else []), holds char := by
      cases flag with
      | true => simpa using slash
      | false => simp
    rw [segmentsToPath_join none, List.forall_mem_append, List.forall_mem_append]
    exact ⟨⟨slashes slashAtStart, joined⟩, slashes slashAtEnd⟩

end UriPath

end SimpleNFast.Http
