import SimpleNFast.Construction.Http.Scanner

namespace SimpleNFast.Http

theorem toInt_of_lt {char : UInt8} (small : char < 128) : toInt char = char.toNat := if_pos small

theorem toInt_of_ge {char : UInt8} (large : 128 ≤ char) : toInt char = (char.toNat : Int) - 256 :=
  if_neg (UInt8.not_lt.mpr large)

theorem toByte_toInt (char : UInt8) : toByte (toInt char) = char := by
  have bound := char.toNat_lt
  have same : (toInt char % 256).toNat = char.toNat := by
    rw [toInt]
    split <;> omega
  rw [toByte, same]
  exact UInt8.ofNat_toNat

/-- A character that a class above zero accepts is an ASCII character. -/
theorem toInt_neg {char : UInt8} (large : 128 ≤ char) : toInt char < 0 := by
  rw [toInt_of_ge large]
  have bound := char.toNat_lt
  omega

theorem Scan.bind_ok {first second : Type} {program : Scan first} {next : first → Scan second}
    {scanner later : Scanner} {value : first} (run : program scanner = .ok (value, later)) :
    (program >>= next) scanner = next value later := by
  change (program scanner).bind _ = _
  rw [run]
  rfl

theorem Scan.eq_ok_of_bind {first second : Type} {program : Scan first} {next : first → Scan second}
    {start finish : Scanner} {value : second} (run : (program >>= next) start = .ok (value, finish)) :
    ∃ read middle, program start = .ok (read, middle) ∧ next read middle = .ok (value, finish) := by
  cases first : program start with
  | error fault => simp [Bind.bind, StateT.bind, Except.bind, first] at run
  | ok pair => exact ⟨pair.1, pair.2, rfl, by simpa [Bind.bind, StateT.bind, Except.bind, first] using run⟩

theorem Scan.bind_error {first second : Type} {program : Scan first} {next : first → Scan second}
    {scanner : Scanner} {fault : Fault} (run : program scanner = .error fault) :
    (program >>= next) scanner = .error fault := by
  change (program scanner).bind _ = _
  rw [run]
  rfl

/-- The program ends at this scanner when the flag holds, and throws otherwise. -/
def Reads {value : Type} (good : Bool) (program : Scan value) (start finish : Scanner)
    (post : value → Prop) : Prop :=
  if good then ∃ read, post read ∧ program start = .ok (read, finish)
  else ∃ fault, program start = .error fault

namespace Reads

variable {first second : Type} {start middle finish : Scanner} {post : first → Prop}

theorem of_ok {program : Scan first} {read : first} (run : program start = .ok (read, finish)) (holds : post read) :
    Reads true program start finish post := ⟨read, holds, run⟩

theorem of_error {program : Scan first} {fault : Fault} (run : program start = .error fault) :
    Reads false program start finish post := ⟨fault, run⟩

theorem bind {good more : Bool} {program : Scan first} {next : first → Scan second} {wish : second → Prop}
    (read : Reads good program start middle post)
    (after : ∀ value, post value → Reads more (next value) middle finish wish) :
    Reads (good && more) (program >>= next) start finish wish := by
  cases good with
  | false =>
      obtain ⟨fault, run⟩ := read
      exact ⟨fault, Scan.bind_error run⟩
  | true =>
      obtain ⟨value, holds, run⟩ := read
      rw [Bool.true_and, Reads, Scan.bind_ok run]
      exact after value holds

theorem after {good : Bool} {program : Scan first} {next : first → Scan second} {wish : second → Prop}
    {value : first} (run : program start = .ok (value, middle))
    (rest : Reads good (next value) middle finish wish) : Reads good (program >>= next) start finish wish := by
  rw [Reads, Scan.bind_ok run]
  exact rest

end Reads

namespace Scanner

/-- The scanner stands between these two parts of its string. -/
def between (before rest : Text) : Scanner := ⟨before.length, (before ++ rest).length, before ++ rest⟩

variable {before rest : Text} {char : UInt8}

theorem init_eq (string : Text) : init string = between [] string := rfl

theorem get_cons : get (between before (char :: rest)) = .ok (toInt char, between (before ++ [char]) rest) := by
  have inside : (between before (char :: rest)).cur < (between before (char :: rest)).len := by simp [between]
  have there : (before ++ char :: rest).getD before.length 0 = char := by simp
  rw [get, if_pos inside]
  simp only [between, there, List.length_append, List.append_assoc, List.singleton_append,
    List.length_cons, List.length_nil]

theorem get_nil : get (between before []) = .ok (-1, between before []) := by
  rw [get, if_neg (by simp [between])]

theorem peek_cons : peek (between before (char :: rest)) = .ok (toInt char, between before (char :: rest)) := by
  have inside : (between before (char :: rest)).cur < (between before (char :: rest)).len := by simp [between]
  have there : (before ++ char :: rest).getD before.length 0 = char := by simp
  rw [peek, if_pos inside]
  simp only [between, there]

theorem peek_nil : peek (between before []) = .ok (-1, between before []) := by
  rw [peek, if_neg (by simp [between])]

/-- A character goes back where another one follows it. -/
theorem unget_snoc (follows : rest ≠ []) :
    unget (between (before ++ [char]) rest) = .ok ((), between before (char :: rest)) := by
  have positive : 0 < rest.length := List.length_pos_iff.mpr follows
  have inside : (between (before ++ [char]) rest).cur < (between (before ++ [char]) rest).len := by
    simp only [between, List.length_append]
    omega
  rw [unget, if_pos inside]
  simp [between]

theorem fuel_between : fuel (between before rest) = .ok (rest.length + 1, between before rest) := by
  rw [fuel]
  congr 2
  simp [between]

/-- The loop stops at the first character that is not accepted. -/
theorem readWhile_stop (before : Text) {accepts : Int → Bool} {stop : UInt8} (follows : rest ≠ [])
    (refused : accepts (toInt stop) = false) (word : Text)
    (accepted : ∀ char ∈ word, accepts (toInt char) = true) (fuel : Nat) (enough : word.length < fuel) :
    readWhile accepts fuel (between before (word ++ stop :: rest)) =
      .ok (word, between (before ++ word) (stop :: rest)) := by
  induction word generalizing before fuel with
  | nil =>
      obtain ⟨fuel, rfl⟩ : ∃ smaller, fuel = smaller + 1 := ⟨fuel - 1, by simp at enough; omega⟩
      rw [readWhile, List.nil_append, Scan.bind_ok get_cons, refused]
      simp only [Bool.false_eq_true, if_false, List.append_nil]
      rw [Scan.bind_ok (unget_snoc follows)]
      rfl
  | cons char word inductionHypothesis =>
      obtain ⟨fuel, rfl⟩ : ∃ smaller, fuel = smaller + 1 := ⟨fuel - 1, by simp at enough; omega⟩
      have tail := inductionHypothesis (before ++ [char])
        (fun next member => accepted next (List.mem_cons_of_mem _ member)) fuel
        (by simpa using enough)
      rw [readWhile, List.cons_append, Scan.bind_ok get_cons, accepted char List.mem_cons_self, if_pos rfl,
        Scan.bind_ok tail, toByte_toInt, List.append_assoc]
      rfl

theorem readAccepted_stop (before : Text) {accepts : Int → Bool} {stop : UInt8} (follows : rest ≠ [])
    (refused : accepts (toInt stop) = false) (word : Text)
    (accepted : ∀ char ∈ word, accepts (toInt char) = true) :
    readAccepted accepts (between before (word ++ stop :: rest)) =
      .ok (word, between (before ++ word) (stop :: rest)) := by
  rw [readAccepted, Scan.bind_ok fuel_between]
  exact readWhile_stop before follows refused word accepted _ (by simp)

theorem unget_nil : unget (between before []) = .ok ((), between before []) := by
  rw [unget, if_neg (by simp [between])]

/-- The loop ends with the string. -/
theorem readWhile_end (before : Text) {accepts : Int → Bool} (refused : accepts (-1) = false) (word : Text)
    (accepted : ∀ char ∈ word, accepts (toInt char) = true) (fuel : Nat) (enough : word.length < fuel) :
    readWhile accepts fuel (between before word) = .ok (word, between (before ++ word) []) := by
  induction word generalizing before fuel with
  | nil =>
      obtain ⟨fuel, rfl⟩ : ∃ smaller, fuel = smaller + 1 := ⟨fuel - 1, by simp at enough; omega⟩
      rw [readWhile, Scan.bind_ok get_nil, refused, List.append_nil]
      simp only [Bool.false_eq_true, if_false]
      rw [Scan.bind_ok unget_nil]
      rfl
  | cons char word inductionHypothesis =>
      obtain ⟨fuel, rfl⟩ : ∃ smaller, fuel = smaller + 1 := ⟨fuel - 1, by simp at enough; omega⟩
      have tail := inductionHypothesis (before ++ [char])
        (fun next member => accepted next (List.mem_cons_of_mem _ member)) fuel (by simpa using enough)
      rw [readWhile, Scan.bind_ok get_cons, accepted char List.mem_cons_self, if_pos rfl, Scan.bind_ok tail,
        toByte_toInt, List.append_assoc]
      rfl

/-- The loop loses the last character of the string where it is not accepted. -/
theorem readWhile_lost (before : Text) {accepts : Int → Bool} {stop : UInt8} (refused : accepts (toInt stop) = false)
    (word : Text) (accepted : ∀ char ∈ word, accepts (toInt char) = true) (fuel : Nat) (enough : word.length < fuel) :
    readWhile accepts fuel (between before (word ++ [stop])) = .ok (word, between (before ++ word ++ [stop]) []) := by
  induction word generalizing before fuel with
  | nil =>
      obtain ⟨fuel, rfl⟩ : ∃ smaller, fuel = smaller + 1 := ⟨fuel - 1, by simp at enough; omega⟩
      rw [readWhile, List.nil_append, Scan.bind_ok get_cons, refused, List.append_nil]
      simp only [Bool.false_eq_true, if_false]
      rw [Scan.bind_ok unget_nil]
      rfl
  | cons char word inductionHypothesis =>
      obtain ⟨fuel, rfl⟩ : ∃ smaller, fuel = smaller + 1 := ⟨fuel - 1, by simp at enough; omega⟩
      have tail := inductionHypothesis (before ++ [char])
        (fun next member => accepted next (List.mem_cons_of_mem _ member)) fuel (by simpa using enough)
      rw [readWhile, List.cons_append, Scan.bind_ok get_cons, accepted char List.mem_cons_self, if_pos rfl,
        Scan.bind_ok tail, toByte_toInt, List.append_assoc before]
      rfl

theorem readAccepted_end (before : Text) {accepts : Int → Bool} (refused : accepts (-1) = false) (word : Text)
    (accepted : ∀ char ∈ word, accepts (toInt char) = true) :
    readAccepted accepts (between before word) = .ok (word, between (before ++ word) []) := by
  rw [readAccepted, Scan.bind_ok fuel_between]
  exact readWhile_end before refused word accepted _ (Nat.lt_succ_self _)

theorem readAccepted_lost (before : Text) {accepts : Int → Bool} {stop : UInt8}
    (refused : accepts (toInt stop) = false) (word : Text) (accepted : ∀ char ∈ word, accepts (toInt char) = true) :
    readAccepted accepts (between before (word ++ [stop])) = .ok (word, between (before ++ word ++ [stop]) []) := by
  rw [readAccepted, Scan.bind_ok fuel_between]
  exact readWhile_lost before refused word accepted _ (by simp)

theorem readOptSpace_end : readOptSpace (between before []) = .ok ((), between before []) := by
  have read : readAccepted isWhitespace (between before []) = .ok ([], between (before ++ []) []) :=
    readAccepted_end before (by decide) [] (by simp)
  rw [List.append_nil] at read
  rw [readOptSpace, Scan.bind_ok read]
  rfl

/-- One space before a character that is not the last one. -/
theorem readOptSpace_space {stop : UInt8} (follows : rest ≠ []) (refused : isWhitespace (toInt stop) = false) :
    readOptSpace (between before (byte ' ' :: stop :: rest)) = .ok ((), between (before ++ [byte ' ']) (stop :: rest)) := by
  have read := readAccepted_stop before follows refused [byte ' '] (List.forall_mem_singleton.2 (by decide))
  rw [List.singleton_append] at read
  rw [readOptSpace, Scan.bind_ok read]
  rfl

/-- The last character of the string is lost behind the optional spaces. -/
theorem readOptSpace_lost {stop : UInt8} (refused : isWhitespace (toInt stop) = false) :
    readOptSpace (between before [stop]) = .ok ((), between (before ++ [stop]) []) := by
  have read := readAccepted_lost before refused [] (by simp)
  rw [List.nil_append, List.append_nil] at read
  rw [readOptSpace, Scan.bind_ok read]
  rfl

theorem readOptSpace_space_lost {stop : UInt8} (refused : isWhitespace (toInt stop) = false) :
    readOptSpace (between before [byte ' ', stop]) = .ok ((), between (before ++ [byte ' ', stop]) []) := by
  have read := readAccepted_lost before refused [byte ' '] (List.forall_mem_singleton.2 (by decide))
  rw [List.singleton_append, List.append_assoc, List.singleton_append] at read
  rw [readOptSpace, Scan.bind_ok read]
  rfl

theorem readSpecial_end {special : Char} (visible : code special ≠ -1) :
    readSpecial special (between before []) = .ok (false, between before []) := by
  rw [readSpecial, Scan.bind_ok get_nil]
  simp only [bne_iff_ne, ne_eq, visible.symm, not_false_eq_true, if_true]
  rw [Scan.bind_ok unget_nil]
  rfl

theorem readOptSpace_stop {stop : UInt8} (follows : rest ≠ []) (refused : isWhitespace (toInt stop) = false) :
    readOptSpace (between before (stop :: rest)) = .ok ((), between before (stop :: rest)) := by
  have read := readAccepted_stop before follows refused [] (by simp)
  rw [List.nil_append, List.append_nil] at read
  rw [readOptSpace, Scan.bind_ok read]
  rfl

theorem readSpecial_same {special : Char} (same : toInt char = code special) :
    readSpecial special (between before (char :: rest)) = .ok (true, between (before ++ [char]) rest) := by
  rw [readSpecial, Scan.bind_ok get_cons, same]
  simp only [bne_self_eq_false, Bool.false_eq_true, if_false]
  rfl

theorem readSpecial_other {special : Char} (follows : rest ≠ []) (other : toInt char ≠ code special) :
    readSpecial special (between before (char :: rest)) = .ok (false, between before (char :: rest)) := by
  rw [readSpecial, Scan.bind_ok get_cons]
  simp only [bne_iff_ne, ne_eq, other, not_false_eq_true, if_true]
  rw [Scan.bind_ok (unget_snoc follows)]
  rfl

theorem readCrlf_crlf :
    readCrlf (between before (text "\r\n")) = .ok (true, between (before ++ text "\r\n") []) := by
  have split : text "\r\n" = [byte '\r', byte '\n'] := rfl
  rw [split, readCrlf, Scan.bind_ok get_cons]
  have first : toInt (byte '\r') = code '\r' := by decide
  have second : toInt (byte '\n') = code '\n' := by decide
  rw [first, if_neg (by decide), if_neg (by decide), if_pos (by decide), Scan.bind_ok get_cons, second]
  simp only [bne_self_eq_false, Bool.false_eq_true, if_false, List.append_assoc]
  rfl

end Scanner

end SimpleNFast.Http
