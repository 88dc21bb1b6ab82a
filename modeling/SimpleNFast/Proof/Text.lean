import SimpleNFast.Construction.Text

namespace SimpleNFast

/-- A property of bytes can be checked on all of them. -/
theorem octet_forall {property : UInt8 → Prop} (all : ∀ index : Fin 256, property (UInt8.ofFin index))
    (octet : UInt8) : property octet := by
  have checked := all octet.toFin
  rwa [UInt8.ofFin_toFin] at checked

theorem digit_forall {property : Nat → Prop} (all : ∀ index : Fin 10, property index) {digit : Nat}
    (small : digit < 10) : property digit := all ⟨digit, small⟩

theorem digitValue_digitChar {digit : Nat} (small : digit < 10) :
    digitValue (toInt (byte (Nat.digitChar digit))) = digit := by
  revert digit
  apply digit_forall
  decide

theorem isDigit_digitChar {digit : Nat} (small : digit < 10) : isDigit (toInt (byte (Nat.digitChar digit))) = true := by
  revert digit
  apply digit_forall
  decide

/-- A number of several digits ends with its last one. -/
theorem digits_step {number : Nat} (large : 10 ≤ number) :
    digits 10 number = digits 10 (number / 10) ++ [byte (Nat.digitChar (number % 10))] := by
  rw [digits, Nat.toDigits_of_base_le (by decide) large, List.map_append]
  rfl

theorem digits_small {number : Nat} (small : number < 10) : digits 10 number = [byte (Nat.digitChar number)] := by
  rw [digits, Nat.toDigits_of_lt_base small]
  rfl

theorem digits_ne_nil (number : Nat) : digits 10 number ≠ [] := by
  rw [digits, Ne, List.map_eq_nil_iff]
  exact Nat.toDigits_ne_nil

/-- The printed digits denote the number. -/
theorem number_digits (value : Nat) : number 10 (digits 10 value) = value := by
  induction value using Nat.strong_induction_on with
  | _ value inductionHypothesis =>
      by_cases small : value < 10
      · rw [digits_small small, number, List.foldl_cons, List.foldl_nil, digitValue_digitChar small]
        omega
      · have tail := inductionHypothesis (value / 10) (by omega)
        rw [number] at tail
        rw [digits_step (by omega), number, List.foldl_append, tail, List.foldl_cons, List.foldl_nil,
          digitValue_digitChar (Nat.mod_lt _ (by decide))]
        omega

theorem digits_length_le {number count : Nat} (positive : 0 < count) (bound : number < 10 ^ count) :
    (digits 10 number).length ≤ count := by
  rw [digits, List.length_map]
  exact (Nat.length_toDigits_le_iff (by decide) positive).mpr bound

theorem isDigit_digits (value : Nat) : ∀ char ∈ digits 10 value, isDigit (toInt char) = true := by
  induction value using Nat.strong_induction_on with
  | _ value inductionHypothesis =>
      by_cases small : value < 10
      · rw [digits_small small]
        intro char member
        rw [List.mem_singleton.1 member]
        exact isDigit_digitChar small
      · rw [digits_step (by omega)]
        intro char member
        obtain early | last := List.mem_append.1 member
        · exact inductionHypothesis (value / 10) (by omega) char early
        · rw [List.mem_singleton.1 last]
          exact isDigit_digitChar (Nat.mod_lt _ (by decide))

/-- As many accepted characters as there should be, or another one among them, or the end. -/
theorem counted_cases (accepts : UInt8 → Prop) (count : Nat) (string : Text) :
    (∃ taken rest, string = taken ++ rest ∧ taken.length = count ∧ ∀ char ∈ taken, accepts char) ∨
    (∃ taken char rest, string = taken ++ char :: rest ∧ (taken.length < count ∧ ∀ char ∈ taken, accepts char) ∧
      ¬ accepts char) ∨
    (string.length < count ∧ ∀ char ∈ string, accepts char) := by
  induction count generalizing string with
  | zero => exact .inl ⟨[], string, rfl, rfl, by simp⟩
  | succ count inductionHypothesis =>
      match string with
      | [] => exact .inr (.inr ⟨Nat.succ_pos _, by simp⟩)
      | first :: string =>
          by_cases accepted : accepts first
          · obtain ⟨taken, rest, rfl, length, all⟩ | ⟨taken, char, rest, rfl, ⟨length, all⟩, other⟩ | ⟨length, all⟩ :=
              inductionHypothesis string
            · exact .inl ⟨first :: taken, rest, rfl, by rw [List.length_cons, length], List.forall_mem_cons.2 ⟨accepted, all⟩⟩
            · refine .inr (.inl ⟨first :: taken, char, rest, rfl, ⟨?_, List.forall_mem_cons.2 ⟨accepted, all⟩⟩, other⟩)
              exact Nat.succ_lt_succ length
            · exact .inr (.inr ⟨Nat.succ_lt_succ length, List.forall_mem_cons.2 ⟨accepted, all⟩⟩)
          · exact .inr (.inl ⟨[], first, string, rfl, ⟨Nat.succ_pos _, by simp⟩, accepted⟩)

theorem castInt_eq {value : Int} (lower : -2 ^ 31 ≤ value) (upper : value < 2 ^ 31) : castInt value = value := by
  rw [castInt, BitVec.toInt_ofInt]
  exact Int.bmod_eq_of_le (by omega) (by omega)

/-- A conversion to `int` changes a number by a multiple of 2^32. -/
theorem castInt_cases (value : Nat) (large : 2 ^ 31 ≤ value) :
    castInt value ≤ 0 ∨ castInt value + 2 ^ 32 ≤ value := by
  rw [castInt, BitVec.toInt_ofInt, Int.bmod_def]
  split <;> omega

/-- A number that is too large by less than 2^31 becomes negative. -/
theorem castInt_neg {value : Int} (lower : 2 ^ 31 ≤ value) (upper : value < 2 ^ 32) : castInt value < 0 := by
  rw [castInt, BitVec.toInt_ofInt, Int.bmod_def]
  split <;> omega

theorem castInt_le (value : Nat) : castInt value ≤ value := by
  rw [castInt, BitVec.toInt_ofInt, Int.bmod_def]
  split <;> omega

end SimpleNFast
