/-
This file develops files as lists of bytes or pages, and the bytes of an integer with the least byte first.
-/

import Mathlib.Tactic

namespace SimpleNFast.ByteFile

/-- The bytes of an integer in two's complement. -/
def encode : Nat → Int → List UInt8
  | 0, _ => []
  | width + 1, value => UInt8.ofNat (value % 256).toNat :: encode width (value / 256)

/-- The last byte carries the sign. -/
def decode : List UInt8 → Int
  | [] => 0
  | byte :: rest =>
      if rest = [] then (byte.toNat : Int).bmod 256
      else byte.toNat + 256 * decode rest

@[simp] theorem length_encode (width : Nat) (value : Int) : (encode width value).length = width := by
  induction width generalizing value with
  | zero => rfl
  | succ width inductionHypothesis => rw [encode, List.length_cons, inductionHypothesis]

theorem toNat_lowByte (value : Int) : ((UInt8.ofNat (value % 256).toNat).toNat : Int) = value % 256 := by
  have small : (value % 256).toNat < 256 := by omega
  rw [UInt8.toNat_ofNat', Nat.mod_eq_of_lt small]
  omega

/-- An integer in the range of its width is read back. -/
theorem decode_encode (width : Nat) (value : Int) (lower : -2 ^ (8 * width + 7) ≤ value)
    (upper : value < 2 ^ (8 * width + 7)) : decode (encode (width + 1) value) = value := by
  induction width generalizing value with
  | zero =>
      rw [encode, encode, decode, if_pos rfl, toNat_lowByte, Int.bmod_def]
      omega
  | succ width inductionHypothesis =>
      have power : (2 : Int) ^ (8 * (width + 1) + 7) = 256 * 2 ^ (8 * width + 7) := by
        rw [show 8 * (width + 1) + 7 = 8 + (8 * width + 7) by omega, pow_add]
        norm_num
      rw [power] at lower upper
      rw [encode, decode, if_neg (by simp [encode]), toNat_lowByte, inductionHypothesis]
      · omega
      · omega
      · omega

/-- The bytes of an integer are the bytes that were read. -/
theorem encode_decode (bytes : List UInt8) : encode bytes.length (decode bytes) = bytes := by
  induction bytes with
  | nil => rfl
  | cons byte rest inductionHypothesis =>
      have small := byte.toNat_lt
      rw [List.length_cons, encode, decode]
      split
      · rename_i last
        subst last
        have low : ((byte.toNat : Int).bmod 256) % 256 = byte.toNat := by
          rw [Int.bmod_def]
          omega
        rw [low, Int.toNat_natCast, UInt8.ofNat_toNat]
        rfl
      · have low : ((byte.toNat : Int) + 256 * decode rest) % 256 = byte.toNat := by omega
        have high : ((byte.toNat : Int) + 256 * decode rest) / 256 = decode rest := by omega
        rw [low, high, inductionHypothesis, Int.toNat_natCast, UInt8.ofNat_toNat]

/-- The bytes of an integer split into those of its low and of its high part. -/
theorem encode_add (low high : Nat) (value : Int) :
    encode (low + high) value = encode low value ++ encode high (value / 256 ^ low) := by
  induction low generalizing value with
  | zero => simp [encode]
  | succ low inductionHypothesis =>
      have further : value / 256 / 256 ^ low = value / 256 ^ (low + 1) := by
        rw [Int.ediv_ediv_of_nonneg (by norm_num), pow_succ, mul_comm]
      rw [Nat.succ_add, encode, encode, inductionHypothesis, further, List.cons_append]

/-- Two integers in the range of their width with the same bytes are equal. -/
theorem encode_inj {width : Nat} {first second : Int}
    (firstLower : -2 ^ (8 * width + 7) ≤ first) (firstUpper : first < 2 ^ (8 * width + 7))
    (secondLower : -2 ^ (8 * width + 7) ≤ second) (secondUpper : second < 2 ^ (8 * width + 7)) :
    encode (width + 1) first = encode (width + 1) second ↔ first = second := by
  constructor
  · intro same
    rw [← decode_encode width first firstLower firstUpper, same, decode_encode width second secondLower secondUpper]
  · exact congrArg _

/-- A write replaces the bytes at its place; what lies between the end and the place is filled with zeros. -/
def write (content : List UInt8) (place : Nat) (bytes : List UInt8) : List UInt8 :=
  if bytes = [] then content
  else content.take place ++ List.replicate (place - content.length) 0 ++ bytes ++
    content.drop (place + bytes.length)

/-- A truncation cuts the file or fills it with zeros. -/
def truncate (content : List UInt8) (size : Nat) : List UInt8 :=
  content.take size ++ List.replicate (size - content.length) 0

/-- A read gives the bytes that the file has at the place. -/
def read (content : List UInt8) (place count : Nat) : List UInt8 := (content.drop place).take count

section Rules

variable (content : List UInt8) (place : Nat) (bytes : List UInt8)

@[simp] theorem write_nil : write content place [] = content := rfl

theorem write_end : write content content.length bytes = content ++ bytes := by
  unfold write
  split
  · rename_i empty
    rw [empty, List.append_nil]
  · simp

theorem truncate_append (kept removed : List UInt8) : truncate (kept ++ removed) kept.length = kept := by
  simp [truncate]

/-- A write keeps the file when the file has the bytes already. -/
theorem write_eq_self_iff : write content place bytes = content ↔ bytes <+: content.drop place := by
  unfold write
  split
  · rename_i empty
    simp [empty]
  · rename_i some
    constructor
    · intro same
      have inside : place ≤ content.length := by
        by_contra beyond
        have lengths := congrArg List.length same
        simp only [List.length_append, List.length_take, List.length_replicate, List.length_drop] at lengths
        omega
      have noGap : place - content.length = 0 := by omega
      rw [noGap, List.replicate_zero, List.append_nil, List.append_assoc] at same
      have halves := same.trans (List.take_append_drop place content).symm
      exact ⟨_, List.append_cancel_left halves⟩
    · rintro ⟨rest, split⟩
      have inside : place ≤ content.length := by
        by_contra beyond
        rw [List.drop_eq_nil_of_le (by omega), List.append_eq_nil_iff] at split
        exact some split.1
      have noGap : place - content.length = 0 := by omega
      have behind : content.drop (place + bytes.length) = rest := by
        rw [← List.drop_drop, ← split, List.drop_left]
      rw [noGap, List.replicate_zero, List.append_nil, List.append_assoc, behind, split, List.take_append_drop]

/-- A write inside of the file replaces the bytes and nothing else. -/
theorem write_middle (before middle after : List UInt8) (same : bytes.length = middle.length) :
    write (before ++ middle ++ after) before.length bytes = before ++ bytes ++ after := by
  unfold write
  split
  · rename_i empty
    subst empty
    have none : middle = [] := List.eq_nil_of_length_eq_zero same.symm
    rw [none]
  · have fits : before.length - (before ++ middle ++ after).length = 0 := by
      simp
    rw [fits, same, List.append_assoc before middle after, List.take_left, ← List.length_append,
      ← List.append_assoc, List.drop_left]
    simp

/-- A write inside of a part of the file changes that part at its place. -/
theorem read_write_inside {content : List UInt8} {place : Nat} {before old after new : List UInt8}
    (stored : read content place (before ++ old ++ after).length = before ++ old ++ after)
    (same : new.length = old.length) :
    read (write content (place + before.length) new) place (before ++ old ++ after).length = before ++ new ++ after := by
  by_cases empty : new = []
  · subst empty
    have none : old = [] := List.eq_nil_of_length_eq_zero same.symm
    subst none
    rw [write_nil]
    exact stored
  · have positive : 0 < new.length := List.length_pos_iff.2 empty
    have inside : place < content.length := by
      have lengths := congrArg List.length stored
      simp only [read, List.length_take, List.length_drop, List.length_append] at lengths
      omega
    have head : (content.take place).length = place := List.length_take_of_le inside.le
    obtain ⟨rest, split⟩ : ∃ rest, content = content.take place ++ before ++ old ++ (after ++ rest) := by
      refine ⟨(content.drop place).drop (before ++ old ++ after).length, ?_⟩
      have whole := List.take_append_drop (before ++ old ++ after).length (content.drop place)
      rw [show (content.drop place).take (before ++ old ++ after).length = before ++ old ++ after from stored] at whole
      calc content = content.take place ++ content.drop place := (List.take_append_drop place content).symm
        _ = _ := by
          rw [← whole]
          simp
    have written := write_middle new (content.take place ++ before) old (after ++ rest) same
    rw [← split, List.length_append, head] at written
    have length : (before ++ old ++ after).length = (before ++ new ++ after).length := by simp [same]
    have reorder : content.take place ++ before ++ new ++ (after ++ rest) =
        content.take place ++ ((before ++ new ++ after) ++ rest) := by simp
    rw [written, read, length, reorder, List.drop_left' head, List.take_left]

end Rules

end SimpleNFast.ByteFile

namespace SimpleNFast.PagedFile

variable {α : Type}

/-- A write past the end fills the gap with blank pages. -/
def writeAt (blank : α) (file : List α) (index : Nat) (page : α) : List α :=
  if index < file.length then file.set index page
  else file ++ List.replicate (index - file.length) blank ++ [page]

/-- A write changes one page and keeps the pages before the old end. -/
theorem getElem?_writeAt (blank : α) (file : List α) {index : Nat} (page : α)
    (reached : index ≤ file.length) (other : Nat) :
    (writeAt blank file index page)[other]? = if other = index then some page else file[other]? := by
  unfold writeAt
  split
  · rename_i inside
    rw [List.getElem?_set]
    by_cases same : other = index
    · subst same
      simp [inside]
    · simp [same, Ne.symm same]
  · have atEnd : index = file.length := by omega
    subst atEnd
    rw [Nat.sub_self, List.replicate_zero, List.append_nil, List.getElem?_append]
    split
    · rw [if_neg (by omega)]
    · by_cases same : other = file.length
      · simp [same]
      · rw [if_neg same, List.getElem?_eq_none (by simp; omega), List.getElem?_eq_none (by omega)]

theorem length_writeAt (blank : α) (file : List α) {index : Nat} (page : α)
    (reached : index ≤ file.length) :
    (writeAt blank file index page).length = max file.length (index + 1) := by
  unfold writeAt
  split
  · rw [List.length_set]
    omega
  · have atEnd : index = file.length := by omega
    subst atEnd
    simp

end SimpleNFast.PagedFile
