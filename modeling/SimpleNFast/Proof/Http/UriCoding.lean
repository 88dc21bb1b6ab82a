import SimpleNFast.Construction.Http.RequestHead
import SimpleNFast.Proof.Text

set_option maxRecDepth 100000

namespace SimpleNFast.Http

theorem takeWhile_stop {accepts : UInt8 → Bool} {word : Text} (all : ∀ char ∈ word, accepts char = true) {stop : UInt8}
    (refused : accepts stop = false) (rest : Text) : (word ++ stop :: rest).takeWhile accepts = word := by
  rw [List.takeWhile_append_of_pos all, List.takeWhile_cons, refused]
  simp

theorem drop_behind (before : Text) (mark : UInt8) (rest : Text) :
    (before ++ mark :: rest).drop (before.length + 1) = rest := by
  rw [← List.drop_drop, List.drop_left]
  rfl

section Coding

variable {keeps : Int → Bool} {string decoded : Text}

theorem decodeKeeping_kept {char : UInt8} (kept : keeps (toInt char) = true) (rest : Text) :
    decodeKeeping keeps (char :: rest) = (decodeKeeping keeps rest).map (char :: ·) := by
  rw [decodeKeeping.eq_def]
  simp only [kept, if_true]

theorem decodeKeeping_escape {char : UInt8} (other : keeps (toInt char) = false) (first second : UInt8) (rest : Text) :
    decodeKeeping keeps (char :: first :: second :: rest) =
      if uriPercentEncoded (char :: first :: second :: rest) then
        (decodeKeeping keeps rest).map (toByte (number 16 [first, second]) :: ·)
      else none := by
  rw [decodeKeeping, if_neg (by simp [other])]

/-- A text without escapes is decoded to itself. -/
theorem decodeKeeping_all (all : ∀ char ∈ string, keeps (toInt char) = true) :
    decodeKeeping keeps string = some string := by
  induction string with
  | nil => rfl
  | cons char string inductionHypothesis =>
      rw [decodeKeeping_kept (all char List.mem_cons_self),
        inductionHypothesis fun other member => all other (List.mem_cons_of_mem _ member)]
      rfl

theorem encodeKeeping_all (all : ∀ char ∈ string, keeps (toInt char) = true) : encodeKeeping keeps string = string := by
  induction string with
  | nil => rfl
  | cons char string inductionHypothesis =>
      rw [encodeKeeping, List.flatMap_cons, if_pos (all char List.mem_cons_self), List.singleton_append]
      exact congrArg _ (inductionHypothesis fun other member => all other (List.mem_cons_of_mem _ member))

/-- The two loops accept the same texts. -/
theorem validKeeping_eq (string : Text) : validKeeping keeps string = (decodeKeeping keeps string).isSome := by
  fun_induction decodeKeeping keeps string with
  | case1 => rfl
  | case2 char rest kept inductionHypothesis =>
      rw [validKeeping.eq_def]
      simp only [kept, if_true, inductionHypothesis, Option.isSome_map]
  | case3 char kept first second rest escaped inductionHypothesis =>
      rw [validKeeping, if_neg kept, inductionHypothesis, Option.isSome_map]
      simp [escaped]
  | case4 char kept first second rest escaped =>
      rw [validKeeping, if_neg kept]
      simp [escaped]
  | case5 char rest kept short =>
      rw [validKeeping, if_neg kept]
      · rfl
      · exact short

/-- Decoding does not lengthen a text, and it keeps the length only of a text without escapes. -/
theorem decodeKeeping_length (read : decodeKeeping keeps string = some decoded) :
    decoded.length ≤ string.length ∧
      (string.length ≤ decoded.length → decoded = string ∧ ∀ char ∈ string, keeps (toInt char) = true) := by
  fun_induction decodeKeeping keeps string generalizing decoded with
  | case1 =>
      cases read
      exact ⟨le_rfl, fun _ => ⟨rfl, by simp⟩⟩
  | case2 char rest kept inductionHypothesis =>
      obtain ⟨tail, found, rfl⟩ := Option.map_eq_some_iff.1 read
      obtain ⟨shorter, same⟩ := inductionHypothesis found
      refine ⟨by simpa using shorter, fun long => ?_⟩
      obtain ⟨rfl, all⟩ := same (by simpa using long)
      exact ⟨rfl, by simpa [kept] using all⟩
  | case3 char kept first second rest escaped inductionHypothesis =>
      obtain ⟨tail, found, rfl⟩ := Option.map_eq_some_iff.1 read
      have shorter := (inductionHypothesis found).1
      simp only [List.length_cons]
      omega
  | case4 => cases read
  | case5 => cases read

/-- A text that is decoded has kept characters, percent signs and hexadecimal digits only. -/
theorem decodeKeeping_chars (read : decodeKeeping keeps string = some decoded) :
    ∀ char ∈ string, keeps (toInt char) = true ∨ char = byte '%' ∨ isXdigit (toInt char) = true := by
  fun_induction decodeKeeping keeps string generalizing decoded with
  | case1 => simp
  | case2 char rest kept inductionHypothesis =>
      obtain ⟨tail, found, rfl⟩ := Option.map_eq_some_iff.1 read
      intro other member
      obtain rfl | later := List.mem_cons.1 member
      · exact Or.inl kept
      · exact inductionHypothesis found other later
  | case3 char kept first second rest escaped inductionHypothesis =>
      obtain ⟨tail, found, rfl⟩ := Option.map_eq_some_iff.1 read
      simp only [uriPercentEncoded, Bool.and_eq_true, beq_iff_eq] at escaped
      intro other member
      simp only [List.mem_cons] at member
      obtain rfl | rfl | rfl | later := member
      · exact Or.inr (Or.inl escaped.1.1)
      · exact Or.inr (Or.inr escaped.1.2)
      · exact Or.inr (Or.inr escaped.2)
      · exact inductionHypothesis found other later
  | case4 => cases read
  | case5 => cases read

end Coding

/-- A loop that keeps more characters decodes the same texts in the same way. -/
theorem decodeKeeping_mono {few many : Int → Bool} (less : ∀ char, few (toInt char) = true → many (toInt char) = true)
    (percent : many (toInt (byte '%')) = false) {string decoded : Text}
    (found : decodeKeeping few string = some decoded) : decodeKeeping many string = some decoded := by
  fun_induction decodeKeeping few string generalizing decoded with
  | case1 => exact found
  | case2 char rest kept inductionHypothesis =>
      obtain ⟨tail, read, rfl⟩ := Option.map_eq_some_iff.1 found
      rw [decodeKeeping_kept (less char kept), inductionHypothesis read]
      rfl
  | case3 char kept first second rest escaped inductionHypothesis =>
      obtain ⟨tail, read, rfl⟩ := Option.map_eq_some_iff.1 found
      have sign : char = byte '%' := by
        simp only [uriPercentEncoded, Bool.and_eq_true, beq_iff_eq] at escaped
        exact escaped.1.1
      rw [← sign] at percent
      rw [decodeKeeping_escape percent, if_pos escaped, inductionHypothesis read]
      rfl
  | case4 => cases found
  | case5 => cases found

/-- A component keeps digits, no percent sign, and no character from 128 on. -/
structure Literals (keeps : Int → Bool) : Prop where
  percent : keeps (toInt (byte '%')) = false
  digits : ∀ char, isDigit (toInt char) = true → keeps (toInt char) = true
  ascii : ∀ char, keeps (toInt char) = true → char < 128

theorem component_literals : Literals componentKeeps where
  percent := by decide
  digits := by
    apply octet_forall
    decide
  ascii := by
    apply octet_forall
    decide

/-- A view of characters in which an escape is another character when its number has two digits. -/
structure Telling (view : UInt8 → UInt8) : Prop where
  tells : ∀ char : UInt8, char < 128 → (decodeKeeping isDigit (percentEncode char)).any (fun decoded =>
    decide (decoded.head?.map view = some (view char)) == decide (char < 10) && !decoded.isEmpty &&
      (!decide (char < 10) || decoded.tail.isEmpty)) = true

theorem id_telling : Telling id where
  tells := by
    apply octet_forall
    decide

section Escapes

variable {keeps : Int → Bool} {view : UInt8 → UInt8} (literals : Literals keeps) (telling : Telling view)
include literals telling

/-- The decoded form of an escape is its character for the numbers below ten, and else it begins otherwise. -/
theorem decode_percentEncode {char : UInt8} (small : char < 128) :
    ∃ first more, decodeKeeping keeps (percentEncode char) = some (first :: more) ∧
      (view first = view char ↔ char < 10) ∧ (char < 10 → more = []) := by
  have found := telling.tells char small
  cases decoded : decodeKeeping isDigit (percentEncode char) with
  | none => simp [decoded] at found
  | some string =>
      cases string with
      | nil => simp [decoded] at found
      | cons first more =>
          refine ⟨first, more, decodeKeeping_mono literals.digits literals.percent decoded, ?_, ?_⟩
          · by_cases ten : char < 10
            · simp_all
            · simp_all
          · intro ten
            simp_all

end Escapes

/-- The number of a character from 128 on has a sign, which no escape has. -/
theorem percentEncode_large {char : UInt8} (large : 128 ≤ char) :
    ∃ digit more, percentEncode char = byte '%' :: byte '-' :: digit :: more := by
  have checked : ∀ char : UInt8, 128 ≤ char →
      (percentEncode char).take 2 = [byte '%', byte '-'] ∧ 3 ≤ (percentEncode char).length := by
    apply octet_forall
    decide
  obtain ⟨begins, long⟩ := checked char large
  match encoded : percentEncode char with
  | [] | [_] | [_, _] => simp [encoded] at long
  | first :: second :: digit :: more =>
      rw [encoded] at begins
      simp only [List.take_succ_cons, List.take_zero, List.cons.injEq] at begins
      rw [begins.1, begins.2.1]
      exact ⟨digit, more, rfl⟩

theorem decodeKeeping_append {keeps : Int → Bool} {string decoded : Text} (rest : Text)
    (read : decodeKeeping keeps string = some decoded) :
    decodeKeeping keeps (string ++ rest) = (decodeKeeping keeps rest).map (decoded ++ ·) := by
  fun_induction decodeKeeping keeps string generalizing decoded with
  | case1 =>
      cases read
      simp
  | case2 char string kept inductionHypothesis =>
      obtain ⟨tail, found, rfl⟩ := Option.map_eq_some_iff.1 read
      rw [List.cons_append, decodeKeeping_kept kept, inductionHypothesis found, Option.map_map]
      rfl
  | case3 char kept first second string escaped inductionHypothesis =>
      obtain ⟨tail, found, rfl⟩ := Option.map_eq_some_iff.1 read
      have same : uriPercentEncoded (char :: first :: second :: (string ++ rest)) = true := escaped
      rw [List.cons_append, List.cons_append, List.cons_append, decodeKeeping_escape (by simpa using kept), if_pos same,
        inductionHypothesis found, Option.map_map]
      rfl
  | case4 => cases read
  | case5 => cases read

section Encoding

variable {keeps : Int → Bool} {view : UInt8 → UInt8} (literals : Literals keeps) (telling : Telling view)
include literals

theorem literals_large {char : UInt8} (large : 128 ≤ char) : keeps (toInt char) = false := by
  rw [← Bool.not_eq_true]
  exact fun kept => absurd (literals.ascii char kept) (UInt8.not_lt.2 large)

/-- A character from 128 on is encoded to a text that is not decoded. -/
theorem decode_encode_large {char : UInt8} (large : 128 ≤ char) (string : Text) :
    decodeKeeping keeps (encodeKeeping keeps (char :: string)) = none := by
  have shape : encodeKeeping keeps (char :: string) =
      (if keeps (toInt char) then [char] else percentEncode char) ++ encodeKeeping keeps string := rfl
  obtain ⟨digit, more, encoded⟩ := percentEncode_large large
  have sign : isXdigit (toInt (byte '-')) = false := by decide
  rw [shape, literals_large literals large, if_neg Bool.false_ne_true, encoded, List.cons_append, List.cons_append,
    List.cons_append, decodeKeeping_escape literals.percent, if_neg]
  simp [uriPercentEncoded, sign]

include telling

/-- One character of an encoded component is decoded on its own. -/
theorem decode_encode_cons {char : UInt8} (small : char < 128) (string : Text) :
    ∃ first more, decodeKeeping keeps (encodeKeeping keeps (char :: string)) =
        (decodeKeeping keeps (encodeKeeping keeps string)).map ((first :: more) ++ ·) ∧
      (view first = view char ↔ keeps (toInt char) = true ∨ char < 10) ∧ (view first = view char → more = []) := by
  have shape : encodeKeeping keeps (char :: string) =
      (if keeps (toInt char) then [char] else percentEncode char) ++ encodeKeeping keeps string := rfl
  rw [shape]
  cases kept : keeps (toInt char) with
  | true =>
      refine ⟨char, [], ?_, by simp, fun _ => rfl⟩
      rw [if_pos rfl, List.singleton_append, decodeKeeping_kept kept]
      rfl
  | false =>
      obtain ⟨first, more, decoded, same, alone⟩ := decode_percentEncode literals telling small
      refine ⟨first, more, ?_, by simpa using same, fun equal => alone (same.1 equal)⟩
      rw [if_neg Bool.false_ne_true, decodeKeeping_append _ decoded]

/-- A component comes back from its encoded form, as far as the view tells, when each escape has a number below ten. -/
theorem decode_encode_view (string : Text) :
    (∃ decoded, decodeKeeping keeps (encodeKeeping keeps string) = some decoded ∧ decoded.map view = string.map view) ↔
      ∀ char ∈ string, keeps (toInt char) = true ∨ char < 10 := by
  induction string with
  | nil => exact iff_of_true ⟨[], rfl, rfl⟩ (by simp)
  | cons char string inductionHypothesis =>
      rw [List.forall_mem_cons, ← inductionHypothesis]
      by_cases large : 128 ≤ char
      · rw [decode_encode_large literals large]
        refine iff_of_false (by simp) ?_
        rintro ⟨kept | ten, -⟩
        · rw [literals_large literals large] at kept
          cases kept
        · exact absurd (UInt8.lt_of_lt_of_le ten (by decide : (10 : UInt8) ≤ 128)) (UInt8.not_lt.2 large)
      · obtain ⟨first, more, step, same, alone⟩ := decode_encode_cons literals telling (UInt8.not_le.1 large) string
        rw [step, ← same]
        constructor
        · rintro ⟨decoded, found, joined⟩
          obtain ⟨tail, read, rfl⟩ := Option.map_eq_some_iff.1 found
          rw [List.cons_append, List.map_cons, List.map_cons, List.cons.injEq] at joined
          rw [alone joined.1, List.nil_append] at joined
          exact ⟨joined.1, tail, read, joined.2⟩
        · rintro ⟨equal, tail, read, joined⟩
          refine ⟨first :: tail, by rw [read, alone equal]; rfl, ?_⟩
          rw [List.map_cons, List.map_cons, equal, joined]

end Encoding

/-- A component comes back from its encoded form when each escape has a number below ten. -/
theorem decode_encode_iff (string : Text) :
    decodeKeeping componentKeeps (encodeKeeping componentKeeps string) = some string ↔ isReadableQuery string = true := by
  have seen := decode_encode_view component_literals id_telling string
  simp only [List.map_id, exists_eq_right] at seen
  rw [seen, isReadableQuery, List.all_eq_true]
  simp

/-- The encoded form of a component is accepted when it has no character from 128 on. -/
theorem decode_encode_isSome (string : Text) :
    (decodeKeeping componentKeeps (encodeKeeping componentKeeps string)).isSome = string.all fun char => char < 128 := by
  induction string with
  | nil => rfl
  | cons char string inductionHypothesis =>
      rw [List.all_cons]
      by_cases large : 128 ≤ char
      · rw [decode_encode_large component_literals large]
        simp [UInt8.not_lt.2 large]
      · have small := UInt8.not_le.1 large
        obtain ⟨first, more, step, _⟩ := decode_encode_cons component_literals id_telling small string
        rw [step, Option.isSome_map, inductionHypothesis]
        simp [small]

theorem isReadableQuery_small {query : Text} (readable : isReadableQuery query = true) :
    (query.all fun char => char < 128) = true := by
  rw [← decode_encode_isSome, (decode_encode_iff query).2 readable]
  rfl

end SimpleNFast.Http
