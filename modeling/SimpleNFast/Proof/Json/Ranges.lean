import SimpleNFast.Proof.Json.Numerals
import SimpleNFast.Construction.Json.Documents

namespace SimpleNFast.Json

namespace Double

theorem roundEven_le (value : ℚ) : (roundEven value : ℚ) ≤ value + 1 := by
  have floor := Int.floor_le value
  rw [roundEven]
  split
  · linarith
  split
  · push_cast
    linarith
  split
  · linarith
  · push_cast
    linarith

theorem roundBits_le {value : ℚ} (positive : 0 < value) : roundBits 64 (-16445) value ≤ 2 * value + 1 := by
  rw [roundBits, if_neg positive.ne']
  generalize isExponent : max (Int.log 2 value - ((64 : Nat) - 1)) (-16445) = exponent
  have power : (0 : ℚ) < 2 ^ exponent := by positivity
  have small : (2 : ℚ) ^ exponent ≤ value + 1 := by
    rcases max_cases (Int.log 2 value - ((64 : Nat) - 1)) (-16445) with ⟨same, _⟩ | ⟨same, _⟩
    · have log := Int.zpow_log_le_self (b := 2) (by decide) positive
      have mono : (2 : ℚ) ^ exponent ≤ 2 ^ Int.log 2 value := by
        apply zpow_le_zpow_right₀ (by norm_num)
        omega
      push_cast at log
      linarith
    · have mono : (2 : ℚ) ^ exponent ≤ 2 ^ (0 : Int) := by
        apply zpow_le_zpow_right₀ (by norm_num)
        omega
      rw [zpow_zero] at mono
      linarith
  calc (roundEven (value / 2 ^ exponent) : ℚ) * 2 ^ exponent
      ≤ (value / 2 ^ exponent + 1) * 2 ^ exponent := by
        apply mul_le_mul_of_nonneg_right (roundEven_le _) power.le
    _ = value + 2 ^ exponent := by field_simp
    _ ≤ 2 * value + 1 := by linarith

theorem toLongDouble_isSome {value : ℚ}
    (range : value = 0 ∨ (1 / 2 ^ 1074 ≤ value ∧ value < 2 ^ 1024)) : (toLongDouble value).isSome = true := by
  have large : (2 : ℚ) ^ (1026 : Nat) ≤ 2 ^ (16384 : Nat) := pow_le_pow_right₀ (by norm_num) (by decide)
  have middle : (2 : ℚ) ^ (1026 : Nat) = 4 * 2 ^ (1024 : Nat) := by
    rw [show (1026 : Nat) = 1024 + 2 from rfl, pow_add, mul_comm]
    norm_num only
  have one : (1 : ℚ) ≤ 2 ^ (1024 : Nat) := one_le_pow₀ (by norm_num)
  have tiny : (1 : ℚ) / 2 ^ (16382 : Nat) ≤ 1 / 2 ^ (1074 : Nat) := by
    apply one_div_le_one_div_of_le (by positivity)
    exact pow_le_pow_right₀ (by norm_num) (by decide)
  have small : (0 : ℚ) < 1 / 2 ^ (1074 : Nat) := by positivity
  rw [toLongDouble]
  generalize (2 : ℚ) ^ (16384 : Nat) = huge at *
  generalize (1 : ℚ) / 2 ^ (16382 : Nat) = least at *
  generalize (1 : ℚ) / 2 ^ (1074 : Nat) = lower at *
  generalize (2 : ℚ) ^ (1026 : Nat) = upper at *
  generalize (2 : ℚ) ^ (1024 : Nat) = top at *
  obtain rfl | ⟨above, below⟩ := range
  · have zero : roundBits 64 (-16445) 0 = 0 := by rw [roundBits, if_pos rfl]
    rw [zero, if_neg (by linarith), if_neg (by simp)]
    rfl
  · have bound := roundBits_le (lt_of_lt_of_le small above)
    rw [if_neg (by linarith), if_neg (by rintro ⟨less, _⟩; linarith)]
    rfl

end Double

/-- Zeros at the beginning do not change a number. -/
theorem number_dropWhile_zero (digits : Text) :
    number 10 (digits.dropWhile (· == byte '0')) = number 10 digits := by
  induction digits with
  | nil => rfl
  | cons char rest inductionHypothesis =>
      rw [List.dropWhile_cons]
      split
      · rename_i isZero
        rw [inductionHypothesis, eq_of_beq isZero]
        rfl
      · rfl

theorem digit_ne_minus {char : UInt8} (isDigit : digit char = true) : char ≠ byte '-' := by
  rintro rfl
  revert isDigit
  decide

theorem signedNumber_digits {digits : Text} (all : ∀ char ∈ digits, digit char = true) :
    signedNumber digits = number 10 digits := by
  cases digits with
  | nil => rfl
  | cons first rest => exact if_neg (digit_ne_minus (all first (by simp)))

theorem signedNumber_minus (digits : Text) : signedNumber (byte '-' :: digits) = -(number 10 digits : Int) := rfl

theorem Number.whole_digits (numeral : Number) : ∀ char ∈ numeral.whole, digit char = true := by
  obtain zero | ⟨first, rest, isWhole, isDigit, areDigits⟩ := numeral.wholeForm
  · rw [zero]
    exact List.all_eq_true.1 (by decide)
  · rw [isWhole]
    intro char member
    obtain rfl | member := List.mem_cons.mp member
    · rw [digit, isDigit, Bool.or_true]
    · exact areDigits char member

theorem Number.signedNumber_eq (numeral : Number) : signedNumber (numeral.sign ++ numeral.whole) = numeral.integer := by
  rw [sign, integer]
  split
  · exact signedNumber_minus _
  · exact signedNumber_digits numeral.whole_digits

/-- Accepted characters end where a text begins with another one. -/
theorem takeWhile_stop {accepts : UInt8 → Bool} {taken rest : Text} (all : ∀ char ∈ taken, accepts char = true)
    (stops : ∀ char, rest.head? = some char → accepts char = false) : (taken ++ rest).takeWhile accepts = taken := by
  rw [List.takeWhile_append_of_pos all]
  cases rest with
  | nil => simp
  | cons char rest => rw [List.takeWhile_cons, stops char rfl, if_neg Bool.false_ne_true, List.append_nil]

theorem exponentKept_head (exponent : Option Exponent) :
    ∀ char, (exponentKept exponent).head? = some char → digit char = false ∧ char ≠ byte '.' := by
  intro char isHead
  match exponent with
  | none => cases isHead
  | some exponent =>
      cases isHead
      obtain same | same := exponent.letterForm
      · rw [same]
        decide
      · rw [same]
        decide

/-- The exponent that is converted is the one of the numeral. -/
theorem signedNumber_exponentKept (exponent : Option Exponent) :
    (if ((exponentKept exponent).drop 1).head? = some (byte '+')
      then signedNumber (((exponentKept exponent).drop 1).drop 1)
      else signedNumber ((exponentKept exponent).drop 1)) = (exponent.map Exponent.value).getD 0 := by
  match exponent with
  | none => rfl
  | some exponent =>
      have all : ∀ char ∈ exponent.kept, digit char = true := fun char member =>
        exponent.digitsForm.2 char (List.dropWhile_suffix _ |>.subset member)
      have same : number 10 exponent.kept = number 10 exponent.digits := number_dropWhile_zero _
      change (if (exponent.sign ++ exponent.kept).head? = some (byte '+')
        then signedNumber ((exponent.sign ++ exponent.kept).drop 1)
        else signedNumber (exponent.sign ++ exponent.kept)) = exponent.value
      rw [Exponent.value, ← same]
      obtain none | plus | minus := exponent.signForm
      · rw [none, List.nil_append, if_neg, if_neg (by decide), signedNumber_digits all]
        intro isHead
        have isDigit := all (byte '+') (List.mem_of_mem_head? isHead)
        revert isDigit
        decide
      · rw [plus, List.singleton_append, List.head?_cons, if_pos rfl, if_neg (by decide)]
        exact signedNumber_digits all
      · rw [minus, List.singleton_append, List.head?_cons, if_neg (by decide), if_pos rfl]
        exact signedNumber_minus _

theorem Number.point_head (numeral : Number) :
    ∀ char, (numeral.point ++ exponentKept numeral.exponent).head? = some char → digit char = false := by
  intro char isHead
  rw [point] at isHead
  split at isHead
  · exact (exponentKept_head _ char isHead).1
  · cases isHead
    decide

/-- The number that is converted is the one that the numeral denotes. -/
theorem Number.decimalValue_kept (numeral : Number) : decimalValue numeral.kept = numeral.magnitude := by
  have unsigned : (if numeral.kept.head? = some (byte '-') then numeral.kept.drop 1 else numeral.kept) =
      numeral.whole ++ (numeral.point ++ exponentKept numeral.exponent) := by
    rw [kept_eq, sign]
    split
    · simp
    · rename_i positive
      rw [List.nil_append, if_neg, List.append_assoc]
      intro isHead
      obtain ⟨first, rest, isWhole⟩ : ∃ first rest, numeral.whole = first :: rest := by
        obtain zero | ⟨first, rest, isWhole, -⟩ := numeral.wholeForm
        · exact ⟨_, _, zero⟩
        · exact ⟨first, rest, isWhole⟩
      rw [isWhole] at isHead
      cases isHead
      have isDigit := numeral.whole_digits (byte '-') (by rw [isWhole]; simp)
      revert isDigit
      decide
  have whole := takeWhile_stop numeral.whole_digits numeral.point_head
  have exponent := signedNumber_exponentKept numeral.exponent
  rw [decimalValue]
  simp only [unsigned, whole, List.drop_left]
  by_cases empty : numeral.fraction = []
  · have noPoint : (exponentKept numeral.exponent).head? ≠ some (byte '.') := fun isHead =>
      (exponentKept_head _ _ isHead).2 rfl
    rw [point, if_pos empty, List.nil_append, if_neg noPoint, if_neg noPoint, exponent, magnitude, empty]
  · have part : (numeral.fraction ++ exponentKept numeral.exponent).takeWhile digit = numeral.fraction :=
      takeWhile_stop numeral.fractionForm fun char isHead => (exponentKept_head _ char isHead).1
    rw [point, if_neg empty, List.cons_append, List.head?_cons, if_pos rfl, if_pos rfl, List.drop_one, List.tail_cons,
      part, List.drop_succ_cons, List.drop_left, exponent, magnitude]

/-- A number that fits has a token if the lexer reads it. -/
theorem Number.token_isSome {numeral : Number} (fits : numeral.InRange) : numeral.token ≠ none ↔ numeral.IsRead := by
  rw [token]
  by_cases isRead : numeral.IsRead
  · rw [if_pos isRead, iff_true_right isRead]
    rw [InRange] at fits
    split at fits
    · rename_i isInteger
      rw [if_pos isInteger, stoll, numeral.signedNumber_eq, if_neg (by omega)]
      exact Option.some_ne_none _
    · rename_i isReal
      obtain ⟨value, isValue⟩ := Option.isSome_iff_exists.mp (Double.toLongDouble_isSome fits)
      rw [if_neg isReal, stold, numeral.decimalValue_kept, isValue]
      exact Option.some_ne_none _
  · simp [isRead]

end SimpleNFast.Json
