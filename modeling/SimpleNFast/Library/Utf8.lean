/-
This file develops UTF-8 on lists of bytes: the bytes of a character and the lists that characters have.
-/

import Mathlib.Tactic

namespace SimpleNFast.Utf8

def encode (characters : List Char) : List UInt8 := characters.flatMap String.utf8EncodeChar

def IsValid (bytes : List UInt8) : Prop := ∃ characters, encode characters = bytes

theorem encode_cons (first : Char) (rest : List Char) :
    encode (first :: rest) = String.utf8EncodeChar first ++ encode rest := List.flatMap_cons

theorem encode_append (front back : List Char) : encode (front ++ back) = encode front ++ encode back :=
  List.flatMap_append

theorem toNat_lt (char : Char) : char.toNat < 0x110000 := by
  obtain small | ⟨-, small⟩ := char.valid
  · exact small.trans (by decide)
  · exact small

/-- A surrogate is no character. -/
theorem toNat_not_surrogate (char : Char) : ¬ (0xD800 ≤ char.toNat ∧ char.toNat ≤ 0xDFFF) := by
  rintro ⟨above, below⟩
  obtain small | ⟨large, -⟩ := char.valid
  · exact absurd (above.trans_lt small) (by decide)
  · exact absurd (Nat.lt_of_lt_of_le large below) (by decide)

/-- A number that is no surrogate and not too large is the one of a character. -/
theorem exists_char {value : Nat} (valid : value.isValidChar) : ∃ char : Char, char.toNat = value :=
  ⟨Char.ofNatAux value valid, rfl⟩

section Lengths

variable {char : Char}

theorem encodeChar_one (small : char.toNat < 0x80) : String.utf8EncodeChar char = [UInt8.ofNat char.toNat] :=
  if_pos (Nat.lt_succ_iff.1 small)

theorem encodeChar_two (large : 0x80 ≤ char.toNat) (small : char.toNat < 0x800) :
    String.utf8EncodeChar char =
      [UInt8.ofNat (0xC0 + char.toNat / 64), UInt8.ofNat (0x80 + char.toNat % 64)] := by
  refine (if_neg (Nat.not_le.2 large)).trans ((if_pos (Nat.lt_succ_iff.1 small)).trans ?_)
  change [UInt8.ofNat (char.toNat / 64 % 32 + 0xC0), UInt8.ofNat (char.toNat % 64 + 0x80)] = _
  rw [Nat.mod_eq_of_lt (by omega), Nat.add_comm, Nat.add_comm _ 0x80]

theorem encodeChar_three (large : 0x800 ≤ char.toNat) (small : char.toNat < 0x10000) :
    String.utf8EncodeChar char =
      [UInt8.ofNat (0xE0 + char.toNat / 4096), UInt8.ofNat (0x80 + char.toNat / 64 % 64),
        UInt8.ofNat (0x80 + char.toNat % 64)] := by
  refine (if_neg (Nat.not_le.2 (by omega : 0x7F < char.toNat))).trans ((if_neg (Nat.not_le.2 large)).trans
    ((if_pos (Nat.lt_succ_iff.1 small)).trans ?_))
  change [UInt8.ofNat (char.toNat / 4096 % 16 + 0xE0), UInt8.ofNat (char.toNat / 64 % 64 + 0x80),
    UInt8.ofNat (char.toNat % 64 + 0x80)] = _
  rw [Nat.mod_eq_of_lt (by omega), Nat.add_comm, Nat.add_comm _ 0x80, Nat.add_comm _ 0x80]

theorem encodeChar_four (large : 0x10000 ≤ char.toNat) :
    String.utf8EncodeChar char =
      [UInt8.ofNat (0xF0 + char.toNat / 262144), UInt8.ofNat (0x80 + char.toNat / 4096 % 64),
        UInt8.ofNat (0x80 + char.toNat / 64 % 64), UInt8.ofNat (0x80 + char.toNat % 64)] := by
  have bound := toNat_lt char
  refine (if_neg (Nat.not_le.2 (by omega : 0x7F < char.toNat))).trans
    ((if_neg (Nat.not_le.2 (by omega : 0x7FF < char.toNat))).trans ((if_neg (Nat.not_le.2 large)).trans ?_))
  change [UInt8.ofNat (char.toNat / 262144 % 8 + 0xF0), UInt8.ofNat (char.toNat / 4096 % 64 + 0x80),
    UInt8.ofNat (char.toNat / 64 % 64 + 0x80), UInt8.ofNat (char.toNat % 64 + 0x80)] = _
  rw [Nat.mod_eq_of_lt (by omega), Nat.add_comm, Nat.add_comm _ 0x80, Nat.add_comm _ 0x80, Nat.add_comm _ 0x80]

end Lengths

/-- A byte from 128 on. -/
theorem le_ofNat {value : Nat} (large : 0x80 ≤ value) (small : value < 0x100) : 0x80 ≤ UInt8.ofNat value := by
  rw [UInt8.le_iff_toNat_le, UInt8.toNat_ofNat', Nat.mod_eq_of_lt small]
  exact large

/-- A character is one byte below 128, or it has two bytes from 128 on at least. -/
theorem encodeChar_cases (char : Char) :
    (char.toNat < 0x80 ∧ String.utf8EncodeChar char = [UInt8.ofNat char.toNat]) ∨
      (0x80 ≤ char.toNat ∧ 2 ≤ (String.utf8EncodeChar char).length ∧
        ∀ byte ∈ String.utf8EncodeChar char, 0x80 ≤ byte) := by
  have bound := toNat_lt char
  by_cases one : char.toNat < 0x80
  · exact .inl ⟨one, encodeChar_one one⟩
  refine .inr ⟨by omega, ?_⟩
  by_cases two : char.toNat < 0x800
  · rw [encodeChar_two (by omega) two]
    refine ⟨le_refl 2, ?_⟩
    simp only [List.forall_mem_cons]
    exact ⟨le_ofNat (by omega) (by omega), le_ofNat (by omega) (by omega), by simp⟩
  by_cases three : char.toNat < 0x10000
  · rw [encodeChar_three (by omega) three]
    refine ⟨Nat.le_succ 2, ?_⟩
    simp only [List.forall_mem_cons]
    exact ⟨le_ofNat (by omega) (by omega), le_ofNat (by omega) (by omega), le_ofNat (by omega) (by omega), by simp⟩
  · rw [encodeChar_four (by omega)]
    refine ⟨Nat.le_add_left 2 2, ?_⟩
    simp only [List.forall_mem_cons]
    exact ⟨le_ofNat (by omega) (by omega), le_ofNat (by omega) (by omega), le_ofNat (by omega) (by omega),
      le_ofNat (by omega) (by omega), by simp⟩

theorem length_le_encode (characters : List Char) : characters.length ≤ (encode characters).length := by
  induction characters with
  | nil => exact Nat.zero_le _
  | cons first characters inductionHypothesis =>
      have positive := first.utf8Size_pos
      rw [encode_cons, List.length_append, String.length_utf8EncodeChar, List.length_cons]
      omega

namespace IsValid

theorem nil : IsValid [] := ⟨[], rfl⟩

theorem char (char : Char) : IsValid (String.utf8EncodeChar char) := ⟨[char], List.flatMap_singleton _ _⟩

theorem append {front back : List UInt8} (first : IsValid front) (second : IsValid back) : IsValid (front ++ back) := by
  obtain ⟨early, rfl⟩ := first
  obtain ⟨late, rfl⟩ := second
  exact ⟨early ++ late, encode_append early late⟩

/-- A byte below 128 is a character of its own. -/
theorem ascii {byte : UInt8} (small : byte < 0x80) : IsValid [byte] := by
  rw [UInt8.lt_iff_toNat_lt] at small
  change byte.toNat < 128 at small
  obtain ⟨char, same⟩ := exists_char (.inl (small.trans (by decide)))
  refine ⟨[char], ?_⟩
  rw [encode, List.flatMap_singleton, encodeChar_one (by omega), same, UInt8.ofNat_toNat]

/-- A byte below 128 at the beginning leaves a valid list. -/
theorem tail {byte : UInt8} {rest : List UInt8} (valid : IsValid (byte :: rest)) (small : byte < 0x80) :
    IsValid rest := by
  obtain ⟨characters, bytes⟩ := valid
  cases characters with
  | nil => cases bytes
  | cons first characters =>
      rw [encode_cons] at bytes
      obtain ⟨-, one⟩ | ⟨-, length, large⟩ := encodeChar_cases first
      · rw [one, List.singleton_append] at bytes
        injection bytes with _ bytes
        exact ⟨characters, bytes⟩
      · match encoded : String.utf8EncodeChar first with
        | [] =>
            rw [encoded] at length
            cases length
        | head :: more =>
            rw [encoded, List.cons_append] at bytes
            injection bytes with same _
            have above := large head (by rw [encoded]; exact List.mem_cons_self)
            rw [same] at above
            exact absurd small (UInt8.not_lt.2 above)

/-- Bytes below 128 at the beginning leave a valid list. -/
theorem drop_ascii {front rest : List UInt8} (valid : IsValid (front ++ rest)) (small : ∀ byte ∈ front, byte < 0x80) :
    IsValid rest := by
  induction front with
  | nil => exact valid
  | cons byte front inductionHypothesis =>
      exact inductionHypothesis (valid.tail (small byte List.mem_cons_self))
        fun other member => small other (List.mem_cons_of_mem _ member)

/-- The characters of a list from its first one on. -/
theorem cons_cases {byte : UInt8} {rest : List UInt8} (valid : IsValid (byte :: rest)) :
    ∃ char tail, byte :: rest = String.utf8EncodeChar char ++ tail ∧ IsValid tail := by
  obtain ⟨characters, bytes⟩ := valid
  cases characters with
  | nil => cases bytes
  | cons first characters => exact ⟨first, encode characters, by rw [← bytes, encode_cons], characters, rfl⟩

end IsValid

/-- A byte from 128 on is no text. -/
theorem not_isValid_single {byte : UInt8} (large : 0x80 ≤ byte) : ¬ IsValid [byte] := by
  intro valid
  obtain ⟨char, tail, bytes, -⟩ := valid.cons_cases
  obtain ⟨small, one⟩ | ⟨-, length, -⟩ := encodeChar_cases char
  · rw [one, List.singleton_append] at bytes
    injection bytes with same _
    rw [same, UInt8.le_iff_toNat_le, UInt8.toNat_ofNat', Nat.mod_eq_of_lt (by omega)] at large
    exact absurd large (Nat.not_le.2 small)
  · have lengths := congrArg List.length bytes
    rw [List.length_append, List.length_singleton] at lengths
    omega

end SimpleNFast.Utf8
