import SimpleNFast.Proof.Json.Escaping

set_option maxRecDepth 100000

namespace SimpleNFast.Json

/-- The bit of a byte from 128 on. -/
theorem and_high_iff (octet : UInt8) : octet &&& 0x80 = 0x80 ↔ 0x80 ≤ octet := by
  revert octet
  apply octet_forall
  decide

/-- An ASCII character announces no byte. -/
theorem utf8Start_ascii {first : UInt8} (small : first < 0x80) : (utf8Start first).1 = 0 := by
  revert first
  apply octet_forall
  decide

theorem utf8Rest_whole {more : Text} (large : ∀ octet ∈ more, 0x80 ≤ octet) (word : Nat) :
    ∃ codepoint, ∀ rest, utf8Rest more.length word (more ++ rest) = (.ok codepoint, rest) := by
  induction more generalizing word with
  | nil => exact ⟨word, fun _ => rfl⟩
  | cons octet more inductionHypothesis =>
      have high := (and_high_iff octet).mpr (large octet List.mem_cons_self)
      obtain ⟨codepoint, read⟩ := inductionHypothesis (fun other member => large other (List.mem_cons_of_mem _ member))
        ((word * 2 ^ 6 ||| (octet &&& 0x3F).toNat) % 2 ^ 32)
      refine ⟨codepoint, fun rest => ?_⟩
      rw [List.length_cons, List.cons_append, utf8Rest, run_bind_ok (Read.get_cons _ _), if_pos high, read]

theorem utf8Rest_interrupted {count : Nat} {more : Text} {octet : UInt8} (short : more.length < count)
    (large : ∀ octet ∈ more, 0x80 ≤ octet) (small : octet < 0x80) (word : Nat) (rest : Text) :
    ∃ what, utf8Rest count word (more ++ octet :: rest) = (.error (.invalidArgument what), rest) := by
  induction more generalizing word count with
  | nil =>
      cases count with
      | zero => cases short
      | succ count =>
          have low : ¬ octet &&& 0x80 = 0x80 := fun high => UInt8.not_le.mpr small ((and_high_iff octet).mp high)
          rw [List.nil_append, utf8Rest, run_bind_ok (Read.get_cons _ _), if_neg low]
          exact ⟨_, rfl⟩
  | cons first more inductionHypothesis =>
      cases count with
      | zero => cases short
      | succ count =>
          have high := (and_high_iff first).mpr (large first List.mem_cons_self)
          rw [List.cons_append, utf8Rest, run_bind_ok (Read.get_cons _ _), if_pos high]
          exact inductionHypothesis (Nat.lt_of_succ_lt_succ short)
            (fun other member => large other (List.mem_cons_of_mem _ member)) _

theorem utf8Rest_cut {count : Nat} {more : Text} (short : more.length < count) (large : ∀ octet ∈ more, 0x80 ≤ octet)
    (word : Nat) : utf8Rest count word more = (.error .failure, []) := by
  induction more generalizing word count with
  | nil =>
      cases count with
      | zero => cases short
      | succ count => rfl
  | cons first more inductionHypothesis =>
      cases count with
      | zero => cases short
      | succ count =>
          have high := (and_high_iff first).mpr (large first List.mem_cons_self)
          rw [utf8Rest, run_bind_ok (Read.get_cons _ _), if_pos high]
          exact inductionHypothesis (Nat.lt_of_succ_lt_succ short)
            (fun other member => large other (List.mem_cons_of_mem _ member)) _

theorem utf16Encode_eq (first : UInt8) (string : Text) :
    utf16Encode (first :: string) =
      match utf8Rest (utf8Start first).1 (utf8Start first).2 string with
      | (.ok codepoint, rest) => (.ok (hexWords codepoint), rest)
      | (.error fault, rest) => (.error fault, rest) := by
  rw [utf16Encode, run_bind_ok (Read.get_cons _ _)]
  dsimp only
  rcases read : utf8Rest (utf8Start first).1 (utf8Start first).2 string with ⟨result, rest⟩
  cases result with
  | ok codepoint =>
      rw [run_bind_ok read]
      rfl
  | error fault => rw [run_bind_error read]

/-- A whole sequence is escaped on its own, whatever it stands for. -/
theorem escapeLoop_sequence {sequence : Text} (whole : IsSequence sequence) :
    ∃ escape, ∀ (fuel : Nat) (rest : Text),
      escapeLoop (fuel + 1) (sequence ++ rest) = (escapeLoop fuel rest).map (escape ++ ·) := by
  cases sequence with
  | nil => cases whole
  | cons first more =>
      obtain ⟨length, large⟩ := whole
      by_cases small : first < 0x80
      · rw [utf8Start_ascii small, List.length_eq_zero_iff] at length
        subst length
        match known : letterEscape first with
        | some escape => exact ⟨escape, escapeLoop_letter known⟩
        | none => exact ⟨[first], escapeLoop_plain known small⟩
      · obtain ⟨codepoint, read⟩ := utf8Rest_whole large (utf8Start first).2
        refine ⟨hexWords codepoint, fun fuel rest => ?_⟩
        rw [List.cons_append, escapeLoop_words (UInt8.not_lt.mp small), utf16Encode_eq, ← length, read]

/-- A sequence that announces more bytes begins with a byte from 128 on. -/
theorem le_of_announced {first : UInt8} {more : Text} (short : more.length < (utf8Start first).1) : 0x80 ≤ first := by
  refine UInt8.not_lt.mp fun small => ?_
  rw [utf8Start_ascii small] at short
  cases short

theorem escapeLoop_interrupted {first octet : UInt8} {more : Text} (short : more.length < (utf8Start first).1)
    (large : ∀ octet ∈ more, 0x80 ≤ octet) (small : octet < 0x80) (fuel : Nat) (rest : Text) :
    ∃ what, escapeLoop (fuel + 1) (first :: more ++ octet :: rest) = .error (.invalidArgument what) := by
  obtain ⟨what, read⟩ := utf8Rest_interrupted short large small (utf8Start first).2 rest
  rw [List.cons_append, escapeLoop_words (le_of_announced short), utf16Encode_eq, read]
  exact ⟨what, rfl⟩

theorem escapeLoop_cut {first : UInt8} {more : Text} (short : more.length < (utf8Start first).1)
    (large : ∀ octet ∈ more, 0x80 ≤ octet) (fuel : Nat) : escapeLoop (fuel + 1) (first :: more) = .ok [] := by
  rw [escapeLoop_words (le_of_announced short), utf16Encode_eq, utf8Rest_cut short large]

/-- Whole sequences before the rest of a string do not throw. -/
theorem escapeLoop_sequences {sequences : List Text} (whole : ∀ sequence ∈ sequences, IsSequence sequence) :
    ∃ escape, ∀ (fuel : Nat) (rest : Text),
      escapeLoop (sequences.length + fuel) (sequences.flatten ++ rest) = (escapeLoop fuel rest).map (escape ++ ·) := by
  induction sequences with
  | nil =>
      refine ⟨[], fun fuel rest => ?_⟩
      rw [List.length_nil, Nat.zero_add, List.flatten_nil, List.nil_append]
      match escapeLoop fuel rest with
      | .ok escaped => rfl
      | .error fault => rfl
  | cons sequence sequences inductionHypothesis =>
      obtain ⟨front, first⟩ := escapeLoop_sequence (whole sequence List.mem_cons_self)
      obtain ⟨back, others⟩ := inductionHypothesis fun other member => whole other (List.mem_cons_of_mem _ member)
      refine ⟨front ++ back, fun fuel rest => ?_⟩
      rw [List.length_cons, Nat.add_right_comm, List.flatten_cons, List.append_assoc, first, others]
      match escapeLoop fuel rest with
      | .ok escaped => exact congrArg Except.ok (List.append_assoc _ _ _).symm
      | .error fault => rfl

/-- A string is a row of whole sequences, or one after them is interrupted or cut off by the end. -/
theorem sequences_cases (string : Text) :
    Interrupted string ∨ ∃ (sequences : List Text) (tail : Text), (∀ sequence ∈ sequences, IsSequence sequence) ∧
      string = sequences.flatten ++ tail ∧
      (tail = [] ∨ ∃ first more, tail = first :: more ∧ more.length < (utf8Start first).1 ∧
        ∀ octet ∈ more, 0x80 ≤ octet) := by
  induction length : string.length using Nat.strong_induction_on generalizing string with
  | _ bound inductionHypothesis =>
      match string with
      | [] => exact .inr ⟨[], [], by simp, rfl, .inl rfl⟩
      | first :: string =>
          obtain ⟨more, rest, rfl, count, large⟩ | ⟨more, octet, rest, rfl, short, small⟩ | cut :=
            counted_cases (0x80 ≤ ·) (utf8Start first).1 string
          · have whole : IsSequence (first :: more) := ⟨count, large⟩
            obtain ⟨sequences, start, inside, octet, last, all, short, small, rfl⟩ | ⟨sequences, tail, all, rfl, ends⟩ :=
              inductionHypothesis rest.length (by rw [← length, List.length_cons, List.length_append]; omega) rest rfl
            · refine .inl ⟨(first :: more) :: sequences, start, inside, octet, last,
                List.forall_mem_cons.mpr ⟨whole, all⟩, short, small, ?_⟩
              simp
            · refine .inr ⟨(first :: more) :: sequences, tail, List.forall_mem_cons.mpr ⟨whole, all⟩, ?_, ends⟩
              simp
          · exact .inl ⟨[], first, more, octet, rest, by simp, short, UInt8.not_le.mp small, rfl⟩
          · exact .inr ⟨[], first :: string, by simp, rfl, .inr ⟨first, string, rfl, cut⟩⟩

theorem length_le_flatten {sequences : List Text} (whole : ∀ sequence ∈ sequences, IsSequence sequence) :
    sequences.length ≤ sequences.flatten.length := by
  induction sequences with
  | nil => exact Nat.zero_le _
  | cons sequence sequences inductionHypothesis =>
      have later := inductionHypothesis fun other member => whole other (List.mem_cons_of_mem _ member)
      have first := whole sequence List.mem_cons_self
      cases sequence with
      | nil => cases first
      | cons octet sequence =>
          rw [List.length_cons, List.flatten_cons, List.length_append, List.length_cons]
          omega

/-- The passes of the loop that are left after whole sequences. -/
theorem stringEscape_sequences {sequences : List Text} (whole : ∀ sequence ∈ sequences, IsSequence sequence)
    (tail : Text) : ∃ escape fuel,
      stringEscape (sequences.flatten ++ tail) = (escapeLoop (fuel + 1) tail).map (escape ++ ·) := by
  obtain ⟨escape, skipped⟩ := escapeLoop_sequences whole
  have bound := length_le_flatten whole
  refine ⟨escape, (sequences.flatten ++ tail).length - sequences.length, ?_⟩
  rw [← skipped, stringEscape]
  congr 1
  rw [List.length_append]
  omega

theorem stringEscape_interrupted {string : Text} (interrupted : Interrupted string) :
    ∃ what, stringEscape string = .error (.invalidArgument what) := by
  obtain ⟨sequences, first, more, octet, rest, whole, ⟨short, large⟩, small, rfl⟩ := interrupted
  obtain ⟨escape, fuel, ran⟩ := stringEscape_sequences whole (first :: more ++ octet :: rest)
  obtain ⟨what, thrown⟩ := escapeLoop_interrupted short large small fuel rest
  rw [List.append_assoc, ran, thrown]
  exact ⟨what, rfl⟩

theorem stringEscape_whole {string : Text} (whole : ¬ Interrupted string) :
    ∃ escaped, stringEscape string = .ok escaped := by
  obtain interrupted | ⟨sequences, tail, all, rfl, rfl | ⟨first, more, rfl, short, large⟩⟩ := sequences_cases string
  · exact absurd interrupted whole
  · obtain ⟨escape, fuel, ran⟩ := stringEscape_sequences all []
    rw [ran]
    exact ⟨_, rfl⟩
  · obtain ⟨escape, fuel, ran⟩ := stringEscape_sequences all (first :: more)
    rw [ran, escapeLoop_cut short large]
    exact ⟨_, rfl⟩

/-- Of the malformed strings only those are refused in which an ASCII character interrupts a sequence. -/
theorem refusesMalformed_iff (string : Text) :
    RefusesMalformed string ↔ Utf8.IsValid string ∨ Interrupted string := by
  constructor
  · intro refuses
    by_cases valid : Utf8.IsValid string
    · exact .inl valid
    refine .inr (by_contra fun whole => ?_)
    obtain ⟨escaped, ran⟩ := stringEscape_whole whole
    obtain ⟨what, thrown⟩ := refuses valid
    rw [ran] at thrown
    cases thrown
  · rintro (valid | interrupted) invalid
    · exact absurd valid invalid
    · exact stringEscape_interrupted interrupted

/-- The byte at the end that begins a sequence is lost. -/
theorem cutSequence_not_refused : ¬ RefusesMalformed [byte 'A', 0xC3] := by
  intro refuses
  have invalid : ¬ Utf8.IsValid [byte 'A', 0xC3] := fun valid =>
    Utf8.not_isValid_single (by decide) (valid.tail (by decide))
  have ran : stringEscape [byte 'A', 0xC3] = .ok [byte 'A'] := by decide
  obtain ⟨what, thrown⟩ := refuses invalid
  rw [ran] at thrown
  cases thrown

end SimpleNFast.Json
