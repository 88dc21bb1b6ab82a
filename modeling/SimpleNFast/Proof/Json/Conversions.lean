import SimpleNFast.Proof.Json.Ranges
import SimpleNFast.Proof.Json.Tokens

namespace SimpleNFast.Json

namespace Documented

theorem emit (codepoint : Nat) : Documented (emit codepoint) := by
  intro stream fault rest failed
  by_cases small : codepoint ≤ 0x10FFFF
  · rw [emit_small small] at failed
    cases failed
  · obtain ⟨what, thrown⟩ := emit_large (by omega : 0x10FFFF < codepoint) stream
    rw [thrown] at failed
    cases failed
    exact .inr trivial

theorem utf16Decode : Documented utf16Decode := by
  intro stream fault last failed
  obtain ⟨before, letter, first, rest, rfl, began⟩ | ⟨rest, none⟩ | ended := utf16DecodeSeq_cases stream
  · by_cases high : first.isHigh
    · rw [utf16Decode_high (utf16DecodeSeq_word began first rest) high] at failed
      obtain ⟨mark, sign, second, later, rfl, marked⟩ | ⟨later, none⟩ | ended := utf16DecodeSeq_cases rest
      · rw [utf16DecodeSeq_word marked] at failed
        dsimp only at failed
        by_cases low : 0xDC00 ≤ second.value
        · rw [if_pos low] at failed
          exact emit _ later fault last failed
        · rw [if_neg low] at failed
          cases failed
          exact .inr trivial
      · rw [none] at failed
        cases failed
        exact .inr trivial
      · rw [ended] at failed
        cases failed
        exact .inr trivial
    · rw [utf16Decode_alone (utf16DecodeSeq_word began first rest) high] at failed
      exact emit _ rest fault last failed
  · rw [Json.utf16Decode, run_bind_ok none] at failed
    cases failed
    exact .inr trivial
  · rw [Json.utf16Decode, run_bind_error ended] at failed
    cases failed
    exact .inr trivial

/-- A loop whose results go behind some bytes. -/
theorem prepend {loop : Lex Text} (documented : Documented loop) (bytes : Text) :
    Documented (do let rest ← loop; Pure.pure (bytes ++ rest) : Lex Text) :=
  bind documented fun _ => pure _

theorem escapeStep {loop : Lex Text} (documented : Documented loop) (letter : UInt8) :
    Documented (escapeStep loop letter) := by
  rw [Json.escapeStep]
  split
  · refine bind (ungetc _) fun _ => bind (ungetc _) fun _ => ?_
    exact bind (ofRead utf16Decode) fun bytes => documented.prepend bytes
  · split
    · exact documented.prepend [_]
    · exact parsingError _

theorem getStringLoop (fuel : Nat) : Documented (Lexer.getStringLoop fuel) := by
  induction fuel with
  | zero => exact throw (.inl rfl)
  | succ fuel inductionHypothesis =>
      rw [getStringLoop_succ]
      refine bind getc fun char => ?_
      rw [stringStep]
      split
      · exact bind getc inductionHypothesis.escapeStep
      · split
        · exact pure _
        · exact inductionHypothesis.prepend [_]

/-- A conversion that refuses a string as an invalid argument. -/
theorem stringUnescape (string : Text) : ∀ fault, stringUnescape string = .error fault → fault.IsDocumented := by
  intro fault failed
  obtain ⟨content, ran, -⟩ | ⟨what, ran⟩ := stringUnescape_total string
  · rw [ran] at failed
    cases failed
  · rw [ran] at failed
    cases failed
    trivial

theorem getString : Documented Lexer.getString := by
  rw [getString_eq]
  refine bind fuel fun count => bind (getStringLoop count) fun content => ?_
  exact bind (lift (stringUnescape content)) fun _ => pure _

theorem getWord (word : String) (token : Token) : Documented (Lexer.getWord word token) := by
  refine bind (ofRead ?_) fun buffer => ?_
  · intro stream fault rest failed
    rw [Lexer.getBuffer] at failed
    split at failed
    · cases failed
      exact .inr trivial
    · cases failed
  · split
    · exact parsingError _
    · exact pure _

/-- Only the tokens of numbers throw anything else. -/
theorem getToken {char : UInt8} (notNumber : ¬ (char = byte '-' ∨ digit char = true)) :
    Documented (Lexer.getToken char) := by
  rw [Lexer.getToken]
  iterate 6
    split
    · exact pure _
  iterate 3
    split
    · exact bind (ungetc _) fun _ => getWord _ _
  split
  · exact getString
  · exact parsingError _

end Documented

/-- The conversion of a number throws what is not named exactly when the number is out of range. -/
theorem Converts.undocumented_iff {numeral : Number} {run : Except Fault Token × Lexer} {rest : Text}
    (converts : Converts numeral run rest) (isRead : numeral.IsRead) : Undocumented run ↔ numeral.Overflows := by
  obtain ⟨first, whole, later, split, -, rfl⟩ := converts
  have integer : (numeral.point.isEmpty && (exponentKept numeral.exponent).isEmpty) = numeral.isInteger := by
    rw [numeral.point_isEmpty, exponentKept_isEmpty, Number.isInteger]
  have thrown (what : Text) : Undocumented ((.error (.outOfRange what), later) : Except Fault Token × Lexer) :=
    ⟨.outOfRange what, later, rfl, by simp, id⟩
  have returned (token : Token) : ¬ Undocumented ((.ok token, later) : Except Fault Token × Lexer) := by
    rintro ⟨fault, last, same, -⟩
    cases same
  rw [numberToken, integer, Number.Overflows, and_iff_right isRead]
  by_cases isInteger : numeral.isInteger = true
  · rw [if_pos isInteger, if_pos isInteger, List.append_assoc, split, stoll, numeral.signedNumber_eq]
    by_cases out : numeral.integer < -2 ^ 63 ∨ 2 ^ 63 ≤ numeral.integer
    · rw [if_pos out]
      exact iff_of_true (thrown _) (by omega)
    · rw [if_neg out]
      exact iff_of_false (returned _) (by omega)
  · have text : numeral.sign ++ first ++ whole ++ numeral.point ++ exponentKept numeral.exponent = numeral.kept := by
      rw [Number.kept_eq, List.append_assoc numeral.sign, split]
    rw [if_neg isInteger, if_neg isInteger, text, stold, numeral.decimalValue_kept]
    cases Double.toLongDouble numeral.magnitude with
    | some value => exact iff_of_false (returned _) (Option.some_ne_none _)
    | none => exact iff_of_true (thrown _) rfl

theorem get_undocumented (lexer : Lexer) : Undocumented (Lexer.get lexer) ↔ Undocumented (skipToken lexer) := by
  rw [get_eq]
  match skipToken lexer with
  | (.ok token, later) => rfl
  | (.error .failure, later) =>
      apply iff_of_false
      · rintro ⟨fault, last, same, -⟩
        cases same
      · rintro ⟨fault, last, same, -, notNamed⟩
        cases same
        exact notNamed trivial
  | (.error .running, later) => rfl
  | (.error (.parsingError _ _ _), later) => rfl
  | (.error (.invalidArgument _), later) => rfl
  | (.error (.outOfRange _), later) => rfl
  | (.error (.lengthError _), later) => rfl

/-- A call for a token throws what is not named exactly when a number out of range comes next. -/
theorem get_undocumented_iff (lexer : Lexer) : Undocumented (Lexer.get lexer) ↔ OverNumber lexer.rest := by
  rw [get_undocumented]
  constructor
  · intro thrown
    rw [skipToken] at thrown
    obtain ⟨count, same, isCount, thrown⟩ := bind_observed Documented.fuel settled_undocumented thrown
    cases isCount
    obtain ⟨⟨spaces, char⟩, later, ran, thrown⟩ :=
      bind_observed (Documented.getWhile _ _) settled_undocumented thrown
    obtain ⟨split, all, stops⟩ := getWhile_read (Nat.lt_succ_self _) ((Blind.getWhile _ _).read ran)
    dsimp only at thrown
    by_cases isNumber : char = byte '-' ∨ digit char = true
    · rw [getToken_number isNumber] at thrown
      obtain ⟨numeral, rest, isRead, ends, text, converts⟩ := getNumber_observed settled_undocumented thrown
      refine ⟨spaces, numeral, rest, all, (converts.undocumented_iff isRead).mp thrown, ends, ?_⟩
      rw [split, ← text]
    · exact absurd thrown ((Documented.getToken isNumber).not_undocumented later)
  · rintro ⟨spaces, numeral, rest, all, overflows, ⟨char, tail, rfl, ends⟩, split⟩
    obtain ⟨first, others, isText, isNumber⟩ := numeral.text_head
    rw [isText, List.cons_append] at split
    have skipped := outcome_getWhile all (number_not_space isNumber)
      (show spaces.length < lexer.rest.length + 1 by rw [split]; simp) (others ++ char :: tail)
    obtain ⟨last, isLast, step⟩ := run_bind_read (Blind.getWhile _ _) split skipped
      fun found => Lexer.getToken found.2
    have ran := (run_getNumber numeral ends tail).1 overflows.1
      ⟨first :: last.rest, last.position.backward first⟩ (by rw [isLast, isText]; rfl)
    have skips : skipToken lexer = Lexer.getToken first last :=
      (run_bind_ok (show Lexer.fuel lexer = (.ok (lexer.rest.length + 1), lexer) from rfl) _).trans step
    rw [skips, getToken_number isNumber]
    exact (ran.undocumented_iff overflows.1).mpr overflows

end SimpleNFast.Json
