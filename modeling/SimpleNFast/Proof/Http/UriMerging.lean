import SimpleNFast.Proof.Http.UriResolution

set_option maxRecDepth 100000

namespace SimpleNFast.Http

/-- An escape loses a character that is not a slash. -/
theorem decodeKeeping_solid {keeps : Int → Bool} {string decoded : Text}
    (found : decodeKeeping keeps string = some decoded) :
    decoded.countP (· != byte '/') ≤ string.countP (· != byte '/') ∧
      (string.countP (· != byte '/') ≤ decoded.countP (· != byte '/') →
        ∀ char ∈ string, keeps (toInt char) = true) := by
  fun_induction decodeKeeping keeps string generalizing decoded with
  | case1 =>
      cases found
      exact ⟨le_rfl, fun _ => by simp⟩
  | case2 char rest kept inductionHypothesis =>
      obtain ⟨tail, read, rfl⟩ := Option.map_eq_some_iff.1 found
      obtain ⟨fewer, all⟩ := inductionHypothesis read
      rw [List.countP_cons, List.countP_cons, List.forall_mem_cons]
      exact ⟨by omega, fun many => ⟨kept, all (by omega)⟩⟩
  | case3 char kept first second rest escaped inductionHypothesis =>
      obtain ⟨tail, read, rfl⟩ := Option.map_eq_some_iff.1 found
      have fewer := (inductionHypothesis read).1
      have digit : ∀ char, isXdigit (toInt char) = true → (char != byte '/') = true := by
        apply octet_forall
        decide
      simp only [uriPercentEncoded, Bool.and_eq_true, beq_iff_eq] at escaped
      have one := digit first escaped.1.2
      have two := digit second escaped.2
      simp only [List.countP_cons, one, two, if_true]
      split <;> omega
  | case4 => cases found
  | case5 => cases found

namespace UriPath

variable {path : Text} {segments found : List Text}

/-- The characters besides the slashes are those of the parts. -/
theorem solid_parts (path : Text) : path.countP (· != byte '/') = ((parts path).map List.length).sum := by
  have rooted_solid (found : List Text) (whole : ∀ part ∈ found, byte '/' ∉ part) :
      (rooted found).countP (· != byte '/') = (found.map List.length).sum := by
    induction found with
    | nil => rfl
    | cons first found inductionHypothesis =>
        rw [List.forall_mem_cons] at whole
        have all : first.countP (· != byte '/') = first.length := by
          rw [List.countP_eq_length]
          intro char member
          rw [bne_iff_ne]
          rintro rfl
          exact whole.1 member
        rw [rooted_cons, List.countP_cons, List.countP_append, all, inductionHypothesis whole.2, List.map_cons,
          List.sum_cons]
        simp
  have same := rooted_solid (parts path) (parts_whole path)
  rw [rooted_parts, List.countP_cons] at same
  simpa using same

theorem solid_segmentsToPath (filled : segments ≠ []) (whole : ∀ segment ∈ segments, Whole segment)
    (slashAtStart slashAtEnd : Bool) :
    (segmentsToPath segments slashAtStart slashAtEnd).countP (· != byte '/') = (segments.map List.length).sum := by
  rw [solid_parts, parts_segmentsToPath filled whole]
  cases slashAtStart <;> cases slashAtEnd <;> simp

/-- Segments that are set again stay only when decoding leaves them alone. -/
theorem set_again (filled : segments ≠ []) (whole : ∀ segment ∈ segments, Whole segment) {slashAtStart slashAtEnd : Bool}
    {path : UriPath} (set : UriPath.set .empty (segmentsToPath segments slashAtStart slashAtEnd) = .ok path)
    (same : path.segments = segments) : ∀ segment ∈ segments, ∀ char ∈ segment, keeps (toInt char) = true := by
  rw [set_fresh, decodeOrThrow] at set
  cases read : decodeKeeping keeps (segmentsToPath segments slashAtStart slashAtEnd) with
  | none =>
      rw [read] at set
      cases set
  | some decoded =>
      rw [read] at set
      cases set
      have fewer : ((normal decoded).segments.map List.length).sum ≤ decoded.countP (· != byte '/') := by
        rw [solid_parts]
        exact ((normal_sublist decoded).map _).sum_le_sum (by simp)
      rw [same, ← solid_segmentsToPath filled whole slashAtStart slashAtEnd] at fewer
      have all := (decodeKeeping_solid read).2 fewer
      intro segment member char within
      have part : segment ∈ parts (segmentsToPath segments slashAtStart slashAtEnd) := by
        rw [parts_segmentsToPath filled whole]
        simp [member]
      exact all char (parts_chars part within)

end UriPath

namespace Uri

open Components UriPath

variable {base reference : Uri}

theorem parse_normal {string : Text} {uri : Uri} (parsed : Uri.parse string = .ok uri) :
    ∃ decoded, uri.path = normal decoded := by
  rw [parse_read] at parsed
  obtain ⟨scheme, rest, -, read⟩ := split_read parsed
  obtain ⟨-, -, decoded, -, -, -, -, same⟩ :=
    readAuthorities_path (bare_empty.frame (scheme.getD []) [] [] []) (Nat.lt_succ_self _) read
  exact ⟨decoded, same⟩

/-- The result takes a path as it is. -/
theorem decodedOnce_same {result : Uri} (merged : base.merge reference = .ok result)
    (same : result.path.segments = taken base reference)
    (held : taken base reference = base.path.segments ∨ taken base reference = reference.path.segments) :
    ∃ result, base.merge reference = .ok result ∧ DecodedOnce base reference result := by
  refine ⟨result, merged, same, fun segment member => ?_⟩
  rw [same] at member
  obtain ahead | ahead := held
  · exact .inl (by rwa [ahead] at member)
  · exact .inr (by rwa [ahead] at member)

/-- A relative path is merged exactly when decoding leaves its segments and those above it alone. -/
theorem relative_once_iff {path above : Text} (begins : path.head? ≠ some (byte '/')) (first : base.path = normal above)
    (second : reference.path = normal path) (scheme : reference.scheme = []) (host : reference.host = [])
    (component : reference.path.component ≠ [])
    (found : taken base reference = Move.walk base.path.segments.dropLast (reference.path.segments.map move)) :
    (∃ result, base.merge reference = .ok result ∧ DecodedOnce base reference result) ↔
      ∀ segment ∈ taken base reference, ∀ char ∈ segment, keeps (toInt char) = true := by
  have relative : (path.head? == some (byte '/')) = false := beq_eq_false_iff_ne.2 begins
  have same : reference.path.segments = UriPath.filled path := by
    rw [second, normal, relative]
    rfl
  have walked : taken base reference = Move.walk base.path.segments.dropLast ((parts path).map move) := by
    rw [found, same]
    exact walk_filled _ _
  have whole : ∀ segment ∈ base.path.segments, Whole segment := by
    rw [first]
    exact normal_whole above
  have start : base.path.slashAtStart = true → ∀ segment ∈ base.path.segments, Inside segment := by
    rw [first]
    exact normal_inside above
  have held : ∀ segment ∈ taken base reference, segment ∈ base.path.segments ∨ segment ∈ reference.path.segments := by
    rw [found]
    refine Move.walk_forall (fun segment member => .inl ((List.dropLast_subset _) member)) fun segment member => .inr ?_
    exact (items_sublist _).subset member
  have proper : ∀ segment ∈ taken base reference, Whole segment := by
    rw [walked]
    exact Move.walk_forall (fun segment member => whole segment ((List.dropLast_subset _) member))
      fun segment member => (items_move (parts_whole path) segment member).2.toWhole
  constructor
  · rintro ⟨result, merged, once⟩
    rw [Resolution.merge_map scheme host component] at merged
    cases set : base.path.merge reference.path with
    | error fault =>
        rw [set] at merged
        cases merged
    | ok target =>
        rw [set] at merged
        cases merged
        have again : target.segments = taken base reference := once.segments
        rw [second, Resolution.merge_walk begins, ← walked] at set
        by_cases none : taken base reference = []
        · rw [none]
          simp
        · rw [if_neg none] at set
          exact set_again none proper set again
  · intro kept
    rw [walked] at kept
    obtain ⟨target, set, segments, -⟩ := Resolution.merge_relative begins whole start kept
    rw [← second] at set
    have again : target.segments = taken base reference := by rw [segments, walked]
    refine ⟨_, Resolution.merge_path scheme host component set, again, fun segment member => ?_⟩
    exact held segment (by rw [← again]; exact member)

/-- A result has segments that were decoded once exactly when decoding leaves them alone where a relative path is merged. -/
theorem merge_once_iff {path above : Text} (first : base.path = normal above) (second : reference.path = normal path) :
    (∃ result, base.merge reference = .ok result ∧ DecodedOnce base reference result) ↔ Untouched base reference := by
  rw [Untouched]
  by_cases scheme : reference.scheme = []
  · by_cases host : reference.host = []
    · have inner : ¬ (reference.scheme ≠ [] ∨ reference.host ≠ []) := by simp [scheme, host]
      by_cases component : reference.path.component = []
      · have same : taken base reference = base.path.segments := by rw [taken, if_neg inner, if_pos component]
        exact iff_of_true (decodedOnce_same (Resolution.merge_same scheme host component) same.symm (.inl same))
          fun _ _ other => absurd component other
      · cases start : reference.path.slashAtStart with
        | true =>
            have same : taken base reference = reference.path.segments := by
              rw [taken, if_neg inner, if_neg component, if_pos start]
            have merged : base.path.merge reference.path = .ok reference.path := by
              rw [UriPath.merge, start]
              rfl
            refine iff_of_true ?_ fun _ _ _ other => by cases other
            exact decodedOnce_same (Resolution.merge_path scheme host component merged) same.symm (.inr same)
        | false =>
            have begins : path.head? ≠ some (byte '/') := by
              rw [second, normal] at start
              exact beq_eq_false_iff_ne.1 start
            have same : taken base reference =
                Move.walk base.path.segments.dropLast (reference.path.segments.map move) := by
              rw [taken, if_neg inner, if_neg component, start, if_neg Bool.false_ne_true]
            rw [relative_once_iff begins first second scheme host component same]
            exact ⟨fun kept _ _ _ _ => kept, fun kept => kept scheme host component rfl⟩
    · have same : taken base reference = reference.path.segments := by rw [taken, if_pos (.inr host)]
      exact iff_of_true (decodedOnce_same (Resolution.merge_host scheme host) same.symm (.inr same))
        fun _ other => absurd other host
  · have same : taken base reference = reference.path.segments := by rw [taken, if_pos (.inl scheme)]
    have merged : base.merge reference = .ok reference := by
      have filled : (!reference.scheme.isEmpty) = true := by simpa using scheme
      rw [Uri.merge, if_pos filled]
      rfl
    exact iff_of_true (decodedOnce_same merged same.symm (.inr same)) fun other => absurd other scheme

/-- A copy of a path is the path exactly when its component has no escape and no character that is not kept. -/
theorem copy_iff (path : UriPath) :
    (∃ copied, path.copy = .ok copied ∧ path.Copied copied) ↔
      ∀ char ∈ path.component, componentKeeps (toInt char) = true := by
  constructor
  · rintro ⟨copied, done, same⟩
    obtain ⟨component, decoded, built⟩ := ok_of_bind done
    cases built
    have get : component = path.component := same.get
    rw [decodeOrThrow_ok] at decoded
    exact ((decodeKeeping_length decoded).2 (by rw [get])).2
  · intro kept
    refine ⟨path, ?_, rfl, rfl, rfl⟩
    rw [copy, decodeOrThrow, decodeKeeping_all kept]
    rfl

/-- Segments and components are decoded again, which changes them or fails unless every character is kept. -/
theorem decoded_once_iff (baseString referenceString : Text) (base reference : Uri)
    (parsed : Uri.parse baseString = .ok base ∧ Uri.parse referenceString = .ok reference) (path : UriPath) :
    ((∃ result, base.merge reference = .ok result ∧ DecodedOnce base reference result) ↔ Untouched base reference) ∧
      ((∃ copied, path.copy = .ok copied ∧ path.Copied copied) ↔
        ∀ char ∈ path.component, componentKeeps (toInt char) = true) := by
  obtain ⟨above, first⟩ := parse_normal parsed.1
  obtain ⟨below, second⟩ := parse_normal parsed.2
  exact ⟨merge_once_iff first second, copy_iff path⟩

theorem decoded_once_segment :
    ((∃ result, Uri.merge .empty { Uri.empty with path := normal (text "a") } = .ok result ∧
        DecodedOnce .empty { Uri.empty with path := normal (text "a") } result) ↔
      Untouched .empty { Uri.empty with path := normal (text "a") }) ∧
    ((∃ copied, (normal (text "a")).copy = .ok copied ∧ (normal (text "a")).Copied copied) ↔
      ∀ char ∈ (normal (text "a")).component, componentKeeps (toInt char) = true) :=
  decoded_once_iff [] (text "a") .empty { Uri.empty with path := normal (text "a") } (by decide) (normal (text "a"))

/-- An encoded space in a relative path is refused when it is merged. -/
theorem decoded_once_space : ¬ ∀ baseString referenceString base reference,
    Uri.parse baseString = .ok base ∧ Uri.parse referenceString = .ok reference →
    ∀ path : UriPath, (∃ result, base.merge reference = .ok result ∧
      ∀ segment ∈ result.path.segments, segment ∈ base.path.segments ∨ segment ∈ reference.path.segments) ∧
    ∃ copied, path.copy = .ok copied ∧ path.Copied copied := by
  intro holds
  obtain ⟨⟨result, merged, -⟩, -⟩ :=
    holds [] (text "%20") .empty { Uri.empty with path := normal (text " ") } (by decide) .empty
  have refused : Uri.merge .empty { Uri.empty with path := normal (text " ") } =
      .error (.badUri (text "invalid path:  ")) := by decide
  rw [refused] at merged
  cases merged

end Uri

end SimpleNFast.Http
