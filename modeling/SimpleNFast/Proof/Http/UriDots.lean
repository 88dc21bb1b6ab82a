import SimpleNFast.Construction.Http.UriMerge
import SimpleNFast.Proof.Http.UriLiterals

set_option maxRecDepth 100000

namespace SimpleNFast.Http

namespace UriPath

theorem rooted_snoc (segments : List Text) (segment : Text) :
    rooted (segments ++ [segment]) = rooted segments ++ byte '/' :: segment := by
  rw [rooted_append, rooted_cons]
  simp [rooted]

end UriPath

namespace Resolution

open UriPath

variable {segment last : Text} {segments way others : List Text}

/-- The segments above the last part of a path. -/
def stem (way : List Text) (last : Text) : List Text := if last = text ".." then way.dropLast else way

/-- The dots at the end of a path leave nothing behind the last slash. -/
def tip (last : Text) : Text := if last = text ".." ∨ last = text "." then [] else last

theorem apply_move (way : List Text) (last : Text) :
    (move last).apply way = stem way last ++ [tip last].filter fun part => !part.isEmpty := by
  rw [move, stem, tip]
  by_cases double : last = text ".."
  · simp [double, Move.apply]
  · by_cases single : last = text "."
    · have other : text "." ≠ text ".." := by decide
      simp [single, other, Move.apply]
    · cases last with
      | nil => simp [double, single, Move.apply]
      | cons char last => simp [double, single, Move.apply]

theorem stem_forall {holds : Text → Prop} (above : ∀ segment ∈ way, holds segment) (last : Text) :
    ∀ segment ∈ stem way last, holds segment := by
  intro segment member
  rw [stem] at member
  split at member
  · exact above segment ((List.dropLast_subset way) member)
  · exact above segment member

theorem tip_whole (whole : byte '/' ∉ last) : byte '/' ∉ tip last := by
  rw [tip]
  split
  · exact List.not_mem_nil
  · exact whole

theorem withoutLast_rooted (whole : ∀ segment ∈ segments, byte '/' ∉ segment) :
    withoutLast (rooted segments) = rooted segments.dropLast := by
  obtain rfl | ⟨others, last, rfl⟩ := List.eq_nil_or_concat segments
  · rfl
  · rw [List.concat_eq_append] at whole ⊢
    have plain : byte '/' ∉ last.reverse := by
      rw [List.mem_reverse]
      exact whole last (by simp)
    have shape : (rooted (others ++ [last])).reverse = last.reverse ++ byte '/' :: (rooted others).reverse := by
      rw [rooted_snoc, List.reverse_append, List.reverse_cons, List.append_assoc, List.singleton_append]
    rw [withoutLast, shape, Uri.dropWhile_before plain, List.drop_one, List.tail_cons, List.reverse_reverse,
      List.dropLast_concat]

/-- A word and a slash begin a path when the word is its first segment and another one follows. -/
theorem prefix_rooted {word : Text} (plain : byte '/' ∉ word) (whole : byte '/' ∉ segment) :
    (word ++ [byte '/']).isPrefixOf (segment ++ rooted segments) = true ↔ segment = word ∧ segments ≠ [] := by
  rw [List.isPrefixOf_iff_prefix]
  cases segments with
  | nil =>
      refine iff_of_false (fun begins => ?_) fun both => both.2 rfl
      rw [rooted, List.flatMap_nil, List.append_nil] at begins
      exact whole (begins.subset (by simp))
  | cons first segments =>
      constructor
      · rintro ⟨rest, same⟩
        rw [List.append_assoc, List.singleton_append, rooted_cons] at same
        have words := congrArg (List.takeWhile (· != byte '/')) same
        rw [Uri.takeWhile_before plain, Uri.takeWhile_before whole] at words
        exact ⟨words.symm, List.cons_ne_nil _ _⟩
      · rintro ⟨rfl, -⟩
        exact ⟨first ++ rooted segments, by rw [rooted_cons, List.append_assoc, List.singleton_append]⟩

theorem eq_rooted {word : Text} (plain : byte '/' ∉ word) : segment ++ rooted segments = word ↔ segment = word ∧ segments = [] := by
  cases segments with
  | nil => simp [rooted]
  | cons first segments =>
      refine iff_of_false (fun same => ?_) fun both => List.cons_ne_nil _ _ both.2
      rw [rooted_cons] at same
      exact plain (by rw [← same]; simp)

/-- One step takes the first segment of a path. -/
theorem removeStep_rooted (whole : byte '/' ∉ segment) (segments : List Text) (output : Text) :
    removeStep (rooted (segment :: segments)) output =
      (if segments = [] ∧ (segment = text ".." ∨ segment = text ".") then text "/" else rooted segments,
        if segment = text ".." then withoutLast output
        else if segment = text "." then output
        else output ++ byte '/' :: segment) := by
  have dot : byte '/' ∉ text "." := by decide
  have dots : byte '/' ∉ text ".." := by decide
  have different : text "." ≠ text ".." := by decide
  have other : (text "../").isPrefixOf (byte '/' :: (segment ++ rooted segments)) = false := rfl
  have another : (text "./").isPrefixOf (byte '/' :: (segment ++ rooted segments)) = false := rfl
  have single : (text "/./").isPrefixOf (byte '/' :: (segment ++ rooted segments)) =
      (text "." ++ [byte '/']).isPrefixOf (segment ++ rooted segments) := rfl
  have double : (text "/../").isPrefixOf (byte '/' :: (segment ++ rooted segments)) =
      (text ".." ++ [byte '/']).isPrefixOf (segment ++ rooted segments) := rfl
  have singleEnd : byte '/' :: (segment ++ rooted segments) = text "/." ↔ segment = text "." ∧ segments = [] := by
    rw [← eq_rooted dot]
    exact List.cons_inj_right _
  have doubleEnd : byte '/' :: (segment ++ rooted segments) = text "/.." ↔ segment = text ".." ∧ segments = [] := by
    rw [← eq_rooted dots]
    exact List.cons_inj_right _
  have apart : ¬ (byte '/' :: (segment ++ rooted segments) = text "." ∨
      byte '/' :: (segment ++ rooted segments) = text "..") := by
    have other : some (byte '/') ≠ some (byte '.') := by decide
    rintro (same | same)
    · exact other (congrArg List.head? same)
    · exact other (congrArg List.head? same)
  have taken : (segment ++ rooted segments).takeWhile (· != byte '/') = segment := by
    cases segments with
    | nil => rw [rooted, List.flatMap_nil, List.append_nil, Uri.takeWhile_other whole]
    | cons first segments => rw [rooted_cons, Uri.takeWhile_before whole]
  rw [rooted_cons, removeStep]
  simp only [other, another, single, double, prefix_rooted dot whole, prefix_rooted dots whole, singleEnd, doubleEnd, apart,
    Bool.false_eq_true, if_false, List.drop_one, List.tail_cons, taken]
  by_cases up : segment = text ".."
  · subst up
    by_cases none : segments = []
    · subst none
      simp [different.symm]
    · simp [different.symm, none]
      rfl
  · by_cases stay : segment = text "."
    · subst stay
      by_cases none : segments = []
      · subst none
        simp [different]
      · simp [different, none]
        rfl
    · simp [up, stay, Nat.add_comm 1]

theorem removeLoop_nil (fuel : Nat) (output : Text) : removeLoop fuel [] output = output := by
  cases fuel with
  | zero => rfl
  | succ fuel => rfl

theorem removeLoop_step (fuel : Nat) (segments : List Text) (output : Text) :
    removeLoop (fuel + 1) (rooted (segment :: segments)) output =
      removeLoop fuel (removeStep (rooted (segment :: segments)) output).1
        (removeStep (rooted (segment :: segments)) output).2 := by
  have filled : rooted (segment :: segments) ≠ [] := List.cons_ne_nil _ _
  rw [removeLoop, if_neg filled]

theorem removeLoop_root (fuel : Nat) (output : Text) : removeLoop (fuel + 1) (text "/") output = output ++ text "/" := by
  have shape : text "/" = rooted [[]] := rfl
  rw [shape, removeLoop_step, removeStep_rooted List.not_mem_nil]
  exact removeLoop_nil fuel _

/-- The dots in the last segment leave a slash. -/
theorem removeLoop_last (whole : byte '/' ∉ last) (inside : ∀ segment ∈ way, byte '/' ∉ segment) {fuel : Nat}
    (enough : last.length < fuel) :
    removeLoop (fuel + 1) (rooted [last]) (rooted way) = rooted (stem way last ++ [tip last]) := by
  have different : text "." ≠ text ".." := by decide
  obtain ⟨fuel, rfl⟩ : ∃ more, fuel = more + 1 := ⟨fuel - 1, by omega⟩
  rw [removeLoop_step, removeStep_rooted whole, rooted_snoc, stem, tip]
  by_cases up : last = text ".."
  · subst up
    rw [if_pos ⟨rfl, .inl rfl⟩, if_pos rfl, if_pos rfl, if_pos (.inl rfl), withoutLast_rooted inside]
    exact removeLoop_root fuel _
  · by_cases stay : last = text "."
    · subst stay
      rw [if_pos ⟨rfl, .inr rfl⟩, if_neg different, if_pos rfl, if_neg different, if_pos (.inr rfl)]
      exact removeLoop_root fuel _
    · rw [if_neg (by simp [up, stay]), if_neg up, if_neg stay, if_neg up, if_neg (by simp [up, stay])]
      exact removeLoop_nil _ _

/-- Removing dots walks along the segments. -/
theorem removeLoop_rooted (proper : ∀ segment ∈ others, Whole segment) (whole : byte '/' ∉ last)
    (inside : ∀ segment ∈ way, byte '/' ∉ segment) {fuel : Nat} (enough : (rooted (others ++ [last])).length < fuel) :
    removeLoop fuel (rooted (others ++ [last])) (rooted way) =
      rooted (stem (Move.walk way (others.map move)) last ++ [tip last]) := by
  induction others generalizing way fuel with
  | nil =>
      rw [List.nil_append, rooted_cons, List.length_cons, List.length_append] at enough
      obtain ⟨fuel, rfl⟩ : ∃ more, fuel = more + 1 := ⟨fuel - 1, by omega⟩
      exact removeLoop_last whole inside (by omega)
  | cons first others inductionHypothesis =>
      obtain ⟨filled, plain⟩ := proper first List.mem_cons_self
      rw [List.cons_append, rooted_cons, List.length_cons, List.length_append] at enough
      obtain ⟨fuel, rfl⟩ : ∃ more, fuel = more + 1 := ⟨fuel - 1, by omega⟩
      have more : others ++ [last] ≠ [] := List.append_ne_nil_of_right_ne_nil _ (List.cons_ne_nil _ _)
      have moved : (if first = text ".." then withoutLast (rooted way)
          else if first = text "." then rooted way else rooted way ++ byte '/' :: first) =
            rooted ((move first).apply way) := by
        rw [move]
        by_cases up : first = text ".."
        · rw [if_pos up, if_pos up, withoutLast_rooted inside]
          rfl
        · by_cases stay : first = text "."
          · rw [if_neg up, if_pos stay, if_neg up, if_pos (.inl stay)]
            rfl
          · rw [if_neg up, if_neg stay, if_neg up, if_neg (by simp [stay, filled])]
            exact (rooted_snoc way first).symm
      have kept : ∀ segment ∈ (move first).apply way, byte '/' ∉ segment := by
        rw [apply_move]
        intro segment member
        rw [List.mem_append, List.mem_filter, List.mem_singleton, stem, tip] at member
        obtain member | ⟨rfl, -⟩ := member
        · split at member
          · exact inside segment ((List.dropLast_subset way) member)
          · exact inside segment member
        · split
          · exact List.not_mem_nil
          · exact plain
      rw [List.cons_append, removeLoop_step, removeStep_rooted plain, if_neg fun both => more both.1, moved,
        inductionHypothesis (fun segment member => proper segment (List.mem_cons_of_mem _ member)) kept (by omega)]
      rfl

/-- The path that is left is the way of its segments, and it ends with a slash where its last segment has dots. -/
theorem removeDotSegments_rooted (proper : ∀ segment ∈ others, Whole segment) (whole : byte '/' ∉ last) :
    removeDotSegments (rooted (others ++ [last])) =
      rooted (stem (Move.walk [] (others.map move)) last ++ [tip last]) :=
  @removeLoop_rooted last [] others proper whole (by simp) _ (Nat.lt_succ_self _)

theorem filled_rooted (whole : ∀ segment ∈ segments, byte '/' ∉ segment) :
    UriPath.filled (rooted segments) = segments.filter fun part => !part.isEmpty := by
  rw [UriPath.filled, parts_rooted whole]
  rfl

theorem lastPart_parts {path : Text} (shape : parts path = others ++ [last]) : lastPart path = last := by
  obtain ⟨whole, ⟨-, rfl⟩ | ⟨-, rfl⟩⟩ := last_cases shape
  · rw [lastPart, Uri.takeWhile_other (by rwa [List.mem_reverse]), List.reverse_reverse]
  · have reversed : (List.intercalate [byte '/'] others ++ byte '/' :: last).reverse =
        last.reverse ++ byte '/' :: (List.intercalate [byte '/'] others).reverse := by simp
    rw [lastPart, reversed, Uri.takeWhile_before (by rwa [List.mem_reverse]), List.reverse_reverse]

/-- A path with the segments of the target is the target up to the slash at its end. -/
theorem reaches_iff {path : UriPath} {named : Text} (inside : ∀ segment ∈ way, Whole segment) (whole : byte '/' ∉ last)
    (ends : lastPart named = last)
    (get : path.component = if path.segments = [] then [] else
      rooted path.segments ++ if last = [] then text "/" else []) :
    Reaches path (rooted (stem way last ++ [tip last])) named ↔ path.segments = (move last).apply way := by
  have proper : ∀ segment ∈ stem way last, Whole segment := stem_forall inside last
  have target : UriPath.filled (rooted (stem way last ++ [tip last])) = (move last).apply way := by
    rw [filled_rooted, List.filter_append, apply_move]
    · congr 1
      rw [List.filter_eq_self]
      intro segment member
      simpa using (proper segment member).filled
    · intro segment member
      obtain member | single := List.mem_append.1 member
      · exact (proper segment member).whole
      · rw [List.mem_singleton.1 single]
        exact tip_whole whole
  refine ⟨fun reaches => by rw [reaches.segments, target], fun same => ⟨by rw [same, target], ?_⟩⟩
  rw [same, apply_move] at get
  rw [get, rooted_snoc]
  by_cases dots : last = text ".." ∨ last = text "."
  · have filled : last ≠ [] := by
      rintro rfl
      exact absurd dots (by decide)
    have none : tip last = [] := if_pos dots
    refine .inr ⟨?_, .inr (by rw [ends]; exact dots.symm)⟩
    rw [none, if_neg filled]
    by_cases empty : stem way last = []
    · simp [empty, rooted]
      rfl
    · simp [empty]
      rfl
  · have same : tip last = last := if_neg dots
    rw [same]
    by_cases none : last = []
    · subst none
      by_cases empty : stem way [] = []
      · refine .inr ⟨?_, .inl ?_⟩
        · simp [empty, rooted]
          rfl
        · simp [empty, rooted]
          rfl
      · left
        simp [empty]
        rfl
    · left
      have some : ([last].filter fun part => !part.isEmpty) = [last] := by simp [none]
      rw [some, if_neg (by simp), if_neg none, List.append_nil, rooted_snoc]

end Resolution

end SimpleNFast.Http
