import SimpleNFast.Proof.Http.UriCoding

set_option maxRecDepth 100000

namespace SimpleNFast.Http

namespace UriPath

/-- A character inside of a segment. -/
def inSegment (char : UInt8) : Bool := keeps (toInt char) && char != byte '/'

/-- A segment that `set` keeps in an absolute path. -/
structure Segment (segment : Text) : Prop where
  filled : segment ≠ []
  proper : segment ≠ text "." ∧ segment ≠ text ".."
  inside : ∀ char ∈ segment, inSegment char = true

theorem pieces_chars (fuel : Nat) (rest : Text) :
    ∀ piece ∈ pieces fuel rest, ∀ char ∈ piece, char ∈ rest ∧ char ≠ byte '/' := by
  induction fuel generalizing rest with
  | zero => simp [pieces]
  | succ fuel inductionHypothesis =>
      cases rest with
      | nil => simp [pieces]
      | cons first rest =>
          intro piece member char inside
          rw [pieces.eq_def] at member
          simp only [List.mem_cons] at member
          obtain rfl | later := member
          · exact ⟨List.takeWhile_subset _ inside, by simpa using List.all_eq_true.1 List.all_takeWhile char inside⟩
          · obtain ⟨there, other⟩ := inductionHypothesis _ piece later char inside
            exact ⟨List.mem_of_mem_drop there, other⟩

/-- An absolute path keeps pieces that are neither empty nor dots. -/
theorem foldl_addSegment_mem (found segments : List Text) :
    ∀ segment ∈ found.foldl (addSegment true) segments,
      segment ∈ segments ∨ segment ∈ found ∧ segment ≠ [] ∧ segment ≠ text "." ∧ segment ≠ text ".." := by
  induction found generalizing segments with
  | nil => exact fun segment member => Or.inl member
  | cons first found inductionHypothesis =>
      intro segment member
      rw [List.foldl_cons] at member
      obtain early | ⟨later, proper⟩ := inductionHypothesis _ segment member
      · rw [addSegment] at early
        simp only [if_true] at early
        split at early
        · exact Or.inl (List.dropLast_subset _ early)
        · rename_i notParent
          split at early
          · exact Or.inl early
          · rename_i notSelf
            split at early
            · exact Or.inl early
            · rename_i filled
              obtain before | last := List.mem_append.1 early
              · exact Or.inl before
              · rw [List.mem_singleton.1 last]
                exact Or.inr ⟨List.mem_cons_self, by simpa using filled, by simpa using notSelf, by simpa using notParent⟩
      · exact Or.inr ⟨List.mem_cons_of_mem _ later, proper⟩

/-- Proper segments stay as they are. -/
theorem foldl_addSegment_proper {found : List Text} (segments : List Text) (proper : ∀ segment ∈ found, Segment segment) :
    found.foldl (addSegment true) segments = segments ++ found := by
  induction found generalizing segments with
  | nil => rw [List.foldl_nil, List.append_nil]
  | cons first found inductionHypothesis =>
      obtain ⟨filled, ⟨notSelf, notParent⟩, _⟩ := proper first List.mem_cons_self
      have added : addSegment true segments first = segments ++ [first] := by
        simp [addSegment, filled, notSelf, notParent]
      rw [List.foldl_cons, added, inductionHypothesis _ fun segment member => proper segment (List.mem_cons_of_mem _ member),
        List.append_assoc]
      rfl

/-- The segments and the component of an absolute path without escapes. -/
theorem set_spec {string : Text} {path : UriPath} (set : UriPath.set .empty string = .ok path)
    (absolute : path.slashAtStart = true) (unescaped : ∀ char ∈ path.path, keeps (toInt char) = true) :
    (∀ segment ∈ path.segments, Segment segment) ∧
      path.component = segmentsToPath path.segments true path.slashAtEnd := by
  rw [UriPath.set] at set
  cases decoded : decodeOrThrow keeps "invalid path: " string with
  | error fault =>
      rw [decoded] at set
      cases set
  | ok inner =>
      rw [decoded] at set
      change Except.ok _ = Except.ok path at set
      cases set
      simp only [empty, Bool.false_or] at absolute unescaped ⊢
      simp only [absolute, if_true]
      refine ⟨fun segment member => ?_, ?_⟩
      · obtain early | ⟨among, filled, notSelf, notParent⟩ := foldl_addSegment_mem _ _ segment member
        · cases early
        · refine ⟨filled, ⟨notSelf, notParent⟩, fun char inside => ?_⟩
          obtain ⟨there, other⟩ := pieces_chars _ _ segment among char inside
          rw [inSegment, unescaped char (List.mem_of_mem_drop there)]
          simpa using other
      · split
        · rename_i none
          rw [List.isEmpty_iff.1 none]
          rfl
        · rfl

/-- The part of a path behind its first slash. -/
def relative (segments : List Text) (slashAtEnd : Bool) : Text :=
  List.intercalate [byte '/'] segments ++ if slashAtEnd then [byte '/'] else []

theorem segmentsToPath_absolute {segments : List Text} (filled : segments ≠ []) (slashAtEnd : Bool) :
    segmentsToPath segments true slashAtEnd = byte '/' :: relative segments slashAtEnd := by
  have present : segments.isEmpty = false := by simpa using filled
  rw [segmentsToPath, present]
  simp [relative]

theorem relative_cons (first second : Text) (segments : List Text) (slashAtEnd : Bool) :
    relative (first :: second :: segments) slashAtEnd = first ++ byte '/' :: relative (second :: segments) slashAtEnd := by
  rw [relative, List.intercalate_cons_cons]
  simp [relative]

theorem relative_single (first : Text) (slashAtEnd : Bool) :
    relative [first] slashAtEnd = first ++ if slashAtEnd then [byte '/'] else [] := by
  rw [relative, List.intercalate_singleton]

theorem relative_chars {segments : List Text} (proper : ∀ segment ∈ segments, Segment segment) (slashAtEnd : Bool) :
    ∀ char ∈ relative segments slashAtEnd, keeps (toInt char) = true := by
  have slash : keeps (toInt (byte '/')) = true := by decide
  induction segments with
  | nil =>
      cases slashAtEnd with
      | true => simpa [relative] using slash
      | false => simp [relative]
  | cons first segments inductionHypothesis =>
      have kept : ∀ char ∈ first, keeps (toInt char) = true := by
        intro char member
        have inside := (proper first List.mem_cons_self).inside char member
        rw [inSegment, Bool.and_eq_true] at inside
        exact inside.1
      cases segments with
      | nil =>
          intro char member
          rw [relative_single, List.mem_append] at member
          obtain early | late := member
          · exact kept char early
          · cases slashAtEnd with
            | true => rwa [List.mem_singleton.1 late]
            | false => cases late
      | cons second segments =>
          have tail := inductionHypothesis fun segment member => proper segment (List.mem_cons_of_mem _ member)
          intro char member
          rw [relative_cons, List.mem_append, List.mem_cons] at member
          obtain early | rfl | late := member
          · exact kept char early
          · exact slash
          · exact tail char late

theorem pieces_step {rest : Text} (filled : rest ≠ []) (fuel : Nat) :
    pieces (fuel + 1) rest =
      rest.takeWhile (· != byte '/') :: pieces fuel (rest.drop ((rest.takeWhile (· != byte '/')).length + 1)) := by
  cases rest with
  | nil => exact absurd rfl filled
  | cons char rest => rfl

theorem pieces_nil (fuel : Nat) : pieces fuel [] = [] := by cases fuel <;> rfl

/-- The pieces of the printed segments are the segments. -/
theorem pieces_relative {segments : List Text} (proper : ∀ segment ∈ segments, Segment segment) (slashAtEnd : Bool)
    (filled : segments ≠ []) (fuel : Nat) (enough : segments.length ≤ fuel) :
    pieces fuel (relative segments slashAtEnd) = segments := by
  induction segments generalizing fuel with
  | nil => exact absurd rfl filled
  | cons first segments inductionHypothesis =>
      obtain ⟨fuel, rfl⟩ : ∃ smaller, fuel = smaller + 1 := ⟨fuel - 1, by simp at enough; omega⟩
      obtain ⟨some, _, inside⟩ := proper first List.mem_cons_self
      have all : ∀ char ∈ first, (char != byte '/') = true := by
        intro char member
        have kept := inside char member
        rw [inSegment, Bool.and_eq_true] at kept
        exact kept.2
      cases segments with
      | nil =>
          have taken : (relative [first] slashAtEnd).takeWhile (· != byte '/') = first := by
            rw [relative_single]
            cases slashAtEnd with
            | true => exact takeWhile_stop all (by decide) []
            | false => rw [List.takeWhile_append_of_pos all]; simp
          have nothing : (relative [first] slashAtEnd).drop (first.length + 1) = [] := by
            rw [relative_single]
            cases slashAtEnd with
            | true => exact drop_behind first _ []
            | false => simp
          rw [pieces_step (by simp [relative_single, some]), taken, nothing, pieces_nil]
      | cons second segments =>
          rw [relative_cons, pieces_step (by simp [some]), takeWhile_stop all (by decide), drop_behind,
            inductionHypothesis (fun segment member => proper segment (List.mem_cons_of_mem _ member))
              (List.cons_ne_nil _ _) fuel (by simpa using enough)]

theorem inSegment_valid : ∀ char, inSegment char = true →
    (uriUnreservedCharacter (toInt char) || uriSubcomponentDelimiter (toInt char) ||
      toInt char ∈ "@:".toList.map code) = true ∧ toInt char ≠ code '/' := by
  apply octet_forall
  decide

/-- A segment is accepted, and no slash stands at its end. -/
theorem validLoop_segment {segment : Text} (inside : ∀ char ∈ segment, inSegment char = true) (some : segment ≠ [])
    {rest : Text} (after : ∀ last, last ≠ code '/' → validLoop rest last = true) (last : Int) :
    validLoop (segment ++ rest) last = true := by
  induction segment generalizing last with
  | nil => exact absurd rfl some
  | cons char segment inductionHypothesis =>
      obtain ⟨plain, other⟩ := inSegment_valid char (inside char List.mem_cons_self)
      have step : validLoop (char :: (segment ++ rest)) last = validLoop (segment ++ rest) (toInt char) := by
        rw [validLoop.eq_def]
        simp only [plain, if_true]
      rw [List.cons_append, step]
      cases segment with
      | nil => exact after _ other
      | cons second segment =>
          exact inductionHypothesis (fun next member => inside next (List.mem_cons_of_mem _ member))
            (List.cons_ne_nil _ _) _

theorem validLoop_slash {last : Int} (single : last ≠ code '/') (rest : Text) :
    validLoop (byte '/' :: rest) last = validLoop rest (code '/') := by
  have same : toInt (byte '/') = code '/' := by decide
  have other : (byte '/' == byte '/' && last != code '/') = true := by simpa using single
  rw [validLoop.eq_def]
  simp only [other, if_true, same, ite_self]

theorem validLoop_relative {segments : List Text} (proper : ∀ segment ∈ segments, Segment segment) (slashAtEnd : Bool)
    (filled : segments ≠ []) (last : Int) : validLoop (relative segments slashAtEnd) last = true := by
  induction segments generalizing last with
  | nil => exact absurd rfl filled
  | cons first segments inductionHypothesis =>
      obtain ⟨some, _, inside⟩ := proper first List.mem_cons_self
      cases segments with
      | nil =>
          rw [relative_single]
          refine validLoop_segment inside some (fun last single => ?_) last
          cases slashAtEnd with
          | true => exact validLoop_slash single []
          | false => rfl
      | cons second segments =>
          rw [relative_cons]
          refine validLoop_segment inside some (fun last single => ?_) last
          rw [validLoop_slash single]
          exact inductionHypothesis (fun segment member => proper segment (List.mem_cons_of_mem _ member))
            (List.cons_ne_nil _ _) _

theorem length_le_relative (first : Text) (segments : List Text) (slashAtEnd : Bool) :
    segments.length ≤ (relative (first :: segments) slashAtEnd).length := by
  induction segments generalizing first with
  | nil => exact Nat.zero_le _
  | cons second segments inductionHypothesis =>
      have tail := inductionHypothesis second
      rw [relative_cons]
      simp only [List.length_append, List.length_cons]
      omega

/-- The printed path is valid, and `set` takes its segments back. -/
theorem set_component {segments : List Text} (proper : ∀ segment ∈ segments, Segment segment) (filled : segments ≠ [])
    (slashAtEnd : Bool) :
    isValid (byte '/' :: relative segments slashAtEnd) = true ∧
      ∃ path, UriPath.set .empty (byte '/' :: relative segments slashAtEnd) = .ok path ∧ path.segments = segments := by
  constructor
  · rw [isValid, validLoop_slash (by decide), validLoop_relative proper slashAtEnd filled, Bool.or_true]
  · have all : ∀ char ∈ byte '/' :: relative segments slashAtEnd, keeps (toInt char) = true := by
      intro char member
      obtain rfl | later := List.mem_cons.1 member
      · decide
      · exact relative_chars proper slashAtEnd char later
    have enough : segments.length ≤ (byte '/' :: relative segments slashAtEnd).length := by
      obtain ⟨first, others, rfl⟩ := List.exists_cons_of_ne_nil filled
      have short := length_le_relative first others slashAtEnd
      simp only [List.length_cons]
      omega
    have found := pieces_relative proper slashAtEnd filled _ enough
    have decoded : decodeOrThrow keeps "invalid path: " (byte '/' :: relative segments slashAtEnd) =
        .ok (byte '/' :: relative segments slashAtEnd) := by
      rw [decodeOrThrow, decodeKeeping_all all]
    refine ⟨_, by rw [UriPath.set, decoded]; rfl, ?_⟩
    have begins : ((byte '/' :: relative segments slashAtEnd).head? == some (byte '/')) = true := by simp
    simp only [begins, empty, Bool.or_true, if_true, List.drop_one, List.tail_cons, found]
    rw [foldl_addSegment_proper [] proper, List.nil_append]

end UriPath

end SimpleNFast.Http
