import Mathlib.Data.List.TakeWhile
import SimpleNFast.Construction.Http.UriReading
import SimpleNFast.Proof.Http.UriPaths

set_option maxRecDepth 100000

namespace SimpleNFast.Http.UriPath

theorem parts_of_plain {segment : Text} (whole : byte '/' ∉ segment) : parts segment = [segment] :=
  List.splitOn_eq_singleton whole

theorem parts_cons {segment : Text} (whole : byte '/' ∉ segment) (rest : Text) :
    parts (segment ++ byte '/' :: rest) = segment :: parts rest :=
  List.splitOn_append_cons_self_of_not_mem whole rest

theorem parts_slash (rest : Text) : parts (byte '/' :: rest) = [] :: parts rest :=
  @parts_cons [] List.not_mem_nil rest

theorem parts_whole (path : Text) : ∀ part ∈ parts path, byte '/' ∉ part := by
  induction length : path.length using Nat.strong_induction_on generalizing path with
  | _ bound inductionHypothesis =>
      by_cases member : byte '/' ∈ path
      · obtain ⟨segment, more, rfl, whole⟩ := List.eq_append_cons_of_mem member
        rw [parts_cons whole, List.forall_mem_cons]
        refine ⟨whole, inductionHypothesis more.length ?_ more rfl⟩
        rw [← length, List.length_append, List.length_cons]
        omega
      · rw [parts_of_plain member, List.forall_mem_singleton]
        exact member

/-- The pieces are the parts without the last one where that is empty. -/
theorem pieces_filled (fuel : Nat) (rest : Text) (enough : rest.length ≤ fuel) :
    (pieces fuel rest).filter (fun part => !part.isEmpty) = filled rest := by
  induction fuel generalizing rest with
  | zero =>
      rw [List.length_eq_zero_iff.1 (Nat.le_zero.1 enough)]
      rfl
  | succ fuel inductionHypothesis =>
      by_cases empty : rest = []
      · subst empty
        rfl
      rw [pieces_step empty, filled]
      by_cases member : byte '/' ∈ rest
      · obtain ⟨segment, more, rfl, whole⟩ := List.eq_append_cons_of_mem member
        have all : ∀ char ∈ segment, (char != byte '/') = true := by
          intro char inside
          rw [bne_iff_ne]
          rintro rfl
          exact whole inside
        rw [List.length_append, List.length_cons] at enough
        rw [takeWhile_stop all (by decide), drop_behind, parts_cons whole, List.filter_cons, List.filter_cons,
          inductionHypothesis more (by omega)]
        rfl
      · have all : ∀ char ∈ rest, (char != byte '/') = true := by
          intro char inside
          rw [bne_iff_ne]
          rintro rfl
          exact member inside
        rw [List.takeWhile_eq_self_iff.2 (by simpa using all), List.drop_of_length_le (Nat.le_succ _), pieces_nil,
          parts_of_plain member]

/-- An absolute path goes from segment to segment. -/
theorem addSegment_absolute (segments : List Text) (segment : Text) :
    addSegment true segments segment = (move segment).apply segments := by
  rw [addSegment, move]
  by_cases double : segment = text ".."
  · simp [double, Move.apply]
  · by_cases single : segment = text "."
    · have other : ¬ text "." = text ".." := by decide
      simp [single, other, Move.apply]
    · by_cases empty : segment = []
      · subst empty
        have other : ¬ (([] : Text) == text "..") = true := by decide
        have another : ¬ (([] : Text) == text ".") = true := by decide
        have stays : ([] : Text) = text "." ∨ ([] : Text) = [] := .inr rfl
        rw [if_neg other, if_neg another, if_neg double, if_pos stays]
        rfl
      · simp [double, single, empty, Move.apply]

theorem addSegment_relative (segments : List Text) (segment : Text) :
    addSegment false segments segment = segments ++ [segment].filter fun part => !part.isEmpty := by
  rw [addSegment]
  cases segment with
  | nil =>
      have other : ¬ (([] : Text) == text "..") = true := by decide
      have another : ¬ (([] : Text) == text ".") = true := by decide
      simp [other, another]
  | cons char segment => simp

theorem foldl_addSegment_relative (found segments : List Text) :
    found.foldl (addSegment false) segments = segments ++ found.filter fun part => !part.isEmpty := by
  induction found generalizing segments with
  | nil => exact (List.append_nil _).symm
  | cons first found inductionHypothesis =>
      rw [List.foldl_cons, addSegment_relative, inductionHypothesis, List.append_assoc, ← List.filter_append,
        List.singleton_append]

theorem foldl_addSegment_absolute (found segments : List Text) :
    found.foldl (addSegment true) segments = Move.walk segments (found.map move) := by
  induction found generalizing segments with
  | nil => rfl
  | cons first found inductionHypothesis =>
      rw [List.foldl_cons, addSegment_absolute, inductionHypothesis, List.map_cons, Move.walk_cons]

theorem move_empty : move [] = .stay := by decide

/-- Empty parts move nowhere. -/
theorem walk_filled (segments found : List Text) :
    Move.walk segments ((found.filter fun part => !part.isEmpty).map move) = Move.walk segments (found.map move) := by
  induction found generalizing segments with
  | nil => rfl
  | cons first found inductionHypothesis =>
      rw [List.filter_cons, List.map_cons, Move.walk_cons]
      cases first with
      | nil => exact inductionHypothesis segments
      | cons char first => exact inductionHypothesis _

/-- The flags and the segments of a path that is set again. -/
def ontoPieces (path : UriPath) (decoded : Text) : UriPath :=
  let slashAtEnd := path.slashAtEnd || decoded.getLast? == some (byte '/')
  let slashAtStart := path.slashAtStart || decoded.head? == some (byte '/')
  let segments := (pieces decoded.length (if decoded.head? == some (byte '/') then decoded.drop 1 else decoded)).foldl
    (addSegment slashAtStart) path.segments
  ⟨if segments.isEmpty then path.component else segmentsToPath segments slashAtStart slashAtEnd, decoded, segments,
    slashAtStart, slashAtEnd⟩

theorem set_pieces (path : UriPath) (string : Text) :
    path.set string = (decodeOrThrow keeps "invalid path: " string).map path.ontoPieces := by
  rw [UriPath.set]
  cases decodeOrThrow keeps "invalid path: " string <;> rfl

/-- The pieces of an absolute path move the segments of an earlier one. -/
theorem pieces_absolute (segments : List Text) (decoded : Text) :
    (pieces decoded.length (if decoded.head? == some (byte '/') then decoded.drop 1 else decoded)).foldl
        (addSegment true) segments = Move.walk segments ((parts decoded).map move) := by
  rw [foldl_addSegment_absolute, ← walk_filled]
  cases decoded with
  | nil => rfl
  | cons first rest =>
      by_cases slash : first = byte '/'
      · have begins : ((first :: rest).head? == some (byte '/')) = true := by simp [slash]
        rw [begins, if_pos rfl, pieces_filled _ _ (by simp), slash, parts_slash, List.map_cons, move_empty,
          Move.walk_cons, List.drop_one, List.tail_cons, filled, walk_filled]
        rfl
      · have begins : ((first :: rest).head? == some (byte '/')) = false := by simp [slash]
        rw [begins, if_neg Bool.false_ne_true, pieces_filled _ _ le_rfl, filled, walk_filled]

theorem pieces_appended (segments : List Text) {decoded : Text} (begins : (decoded.head? == some (byte '/')) = false) :
    (pieces decoded.length (if decoded.head? == some (byte '/') then decoded.drop 1 else decoded)).foldl
        (addSegment false) segments = segments ++ filled decoded := by
  rw [begins, if_neg Bool.false_ne_true, foldl_addSegment_relative, pieces_filled _ _ le_rfl]

/-- The segments of an earlier path are where a new one begins. -/
theorem ontoPieces_segments (path : UriPath) (decoded : Text) :
    (path.ontoPieces decoded).segments =
      if (path.slashAtStart || decoded.head? == some (byte '/')) = true
      then Move.walk path.segments ((parts decoded).map move) else path.segments ++ filled decoded := by
  rw [ontoPieces]
  cases start : path.slashAtStart || decoded.head? == some (byte '/') with
  | true => exact pieces_absolute path.segments decoded
  | false =>
      rw [Bool.or_eq_false_iff] at start
      exact pieces_appended path.segments start.2

/-- A fresh path takes the normal form of its decoded text. -/
theorem ontoPieces_empty (decoded : Text) : empty.ontoPieces decoded = normal decoded := by
  have segments := ontoPieces_segments empty decoded
  rw [empty, Bool.false_or, Move.walk_root, List.nil_append] at segments
  have component (slashAtStart slashAtEnd : Bool) (segments : List Text) :
      (if segments.isEmpty then [] else segmentsToPath segments slashAtStart slashAtEnd) =
        segmentsToPath segments slashAtStart slashAtEnd := by
    split
    · rename_i none
      rw [segmentsToPath, if_pos none]
    · rfl
  have shape : empty.ontoPieces decoded = ⟨segmentsToPath (empty.ontoPieces decoded).segments
      (decoded.head? == some (byte '/')) (decoded.getLast? == some (byte '/')), decoded,
      (empty.ontoPieces decoded).segments, decoded.head? == some (byte '/'), decoded.getLast? == some (byte '/')⟩ := by
    rw [← component]
    rfl
  rw [shape, empty, segments]
  rfl

theorem set_fresh (string : Text) :
    UriPath.set .empty string = (decodeOrThrow keeps "invalid path: " string).map normal := by
  rw [set_pieces]
  cases decodeOrThrow keeps "invalid path: " string with
  | error fault => rfl
  | ok decoded => exact congrArg _ (ontoPieces_empty decoded)

/-- A valid path is decoded. -/
theorem validLoop_decoded {string : Text} {last : Int} (valid : validLoop string last = true) :
    ∃ decoded, decodeKeeping keeps string = some decoded := by
  induction length : string.length using Nat.strong_induction_on generalizing string last with
  | _ bound inductionHypothesis =>
      cases string with
      | nil => exact ⟨[], rfl⟩
      | cons char rest =>
          have shorter : rest.length < bound := by rw [← length, List.length_cons]; omega
          have plain (kept : keeps (toInt char) = true) (more : validLoop rest (toInt char) = true) :
              ∃ decoded, decodeKeeping keeps (char :: rest) = some decoded := by
            obtain ⟨decoded, found⟩ := inductionHypothesis rest.length shorter more rfl
            exact ⟨char :: decoded, by rw [decodeKeeping_kept kept, found]; rfl⟩
          have literal : ∀ char, (uriUnreservedCharacter (toInt char) || uriSubcomponentDelimiter (toInt char) ||
              toInt char ∈ "@:".toList.map code) = true → keeps (toInt char) = true := by
            apply octet_forall
            decide
          rw [validLoop.eq_def] at valid
          dsimp only at valid
          split at valid
          · rename_i kept
            exact plain (literal char kept) valid
          split at valid
          · rename_i slash
            rw [Bool.and_eq_true, beq_iff_eq] at slash
            exact plain (by rw [slash.1]; decide) valid
          split at valid
          · rename_i first second rest
            rw [Bool.and_eq_true] at valid
            by_cases kept : keeps (toInt char) = true
            · have sign : char = byte '%' := by
                have escaped := valid.1
                simp only [uriPercentEncoded, Bool.and_eq_true, beq_iff_eq] at escaped
                exact escaped.1.1
              rw [sign] at kept
              exact absurd kept (by decide)
            · obtain ⟨decoded, found⟩ := inductionHypothesis rest.length (by
                rw [← length]
                simp only [List.length_cons]
                omega) valid.2 rfl
              refine ⟨toByte (number 16 [first, second]) :: decoded, ?_⟩
              rw [decodeKeeping_escape (by simpa using kept), if_pos valid.1, found]
              rfl
          · cases valid

theorem isValid_decoded {string : Text} (valid : isValid string = true) :
    ∃ decoded, decodeKeeping keeps string = some decoded := by
  rw [isValid, Bool.or_eq_true, Bool.or_eq_true, List.isEmpty_iff, beq_iff_eq] at valid
  obtain (rfl | rfl) | valid := valid
  · exact ⟨[], rfl⟩
  · exact ⟨[byte '/'], rfl⟩
  · exact validLoop_decoded valid

/-- Only proper segments are items of the moves. -/
theorem items_move {found : List Text} (whole : ∀ part ∈ found, byte '/' ∉ part) :
    ∀ segment ∈ Move.items (found.map move), segment ∈ found ∧ Inside segment := by
  intro segment member
  rw [Move.items, List.mem_filterMap] at member
  obtain ⟨step, isStep, goes⟩ := member
  obtain ⟨part, isPart, rfl⟩ := List.mem_map.1 isStep
  by_cases double : part = text ".."
  · rw [move, if_pos double] at goes
    cases goes
  by_cases stays : part = text "." ∨ part = []
  · rw [move, if_neg double, if_pos stays] at goes
    cases goes
  · rw [move, if_neg double, if_neg stays] at goes
    cases goes
    rw [not_or] at stays
    exact ⟨isPart, stays.2, stays.1, double, whole segment isPart⟩

/-- Only proper segments are left of a path. -/
theorem remaining_inside (path : Text) : ∀ segment ∈ remaining path, Inside segment := by
  intro segment member
  exact (items_move (parts_whole path) segment ((Move.left_sublist _).subset member)).2

theorem set_decoded {string decoded : Text} (found : decodeKeeping keeps string = some decoded) :
    UriPath.set .empty string = .ok (normal decoded) := by
  rw [set_fresh, decodeOrThrow, found]
  rfl

/-- A path that begins with a slash does not leave its root. -/
theorem set_confined (string : Text) (valid : isValid string = true) (absolute : string.head? = some (byte '/')) :
    ∃ path, UriPath.set .empty string = .ok path ∧ Confined string path := by
  obtain ⟨decoded, found⟩ := isValid_decoded valid
  refine ⟨normal decoded, set_decoded found, ?_⟩
  have begins : (decoded.head? == some (byte '/')) = true := by
    cases string with
    | nil => cases absolute
    | cons first rest =>
        cases absolute
        rw [decodeKeeping_kept (by decide)] at found
        obtain ⟨more, -, rfl⟩ := Option.map_eq_some_iff.1 found
        simp
  rw [normal]
  simp only [begins, if_true]
  refine ⟨found, remaining_inside decoded, rfl, ?_⟩
  rw [segmentsToPath]
  simp only [List.isEmpty_iff, beq_iff_eq, if_true, List.singleton_append]

/-- An encoded dot is a dot. -/
theorem set_confined_dot : ∃ path, UriPath.set .empty (text "/a/%2e") = .ok path ∧ Confined (text "/a/%2e") path :=
  set_confined (text "/a/%2e") (by decide) (by decide)

end SimpleNFast.Http.UriPath
