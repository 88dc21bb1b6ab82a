import SimpleNFast.Construction.Http.Scanner
import SimpleNFast.Proof.Http.ScannerSteps

namespace SimpleNFast.Http

namespace Scanner

variable {scanner : Scanner} {char : UInt8} {rest : Text}

theorem left_advance (scanner : Scanner) (count : Nat) : (scanner.advance count).left = scanner.left.drop count := by
  rw [left, left, List.drop_drop]
  rfl

theorem length_left (inside : scanner.len ≤ scanner.str.length) :
    scanner.left.length = scanner.len - scanner.cur := by
  rw [left, List.length_drop, List.length_take, min_eq_left inside]

theorem get_of_nil (inside : scanner.len ≤ scanner.str.length) (ended : scanner.left = []) :
    get scanner = .ok (-1, scanner) := by
  have length := length_left inside
  rw [ended, List.length_nil] at length
  rw [get, if_neg (by omega)]

theorem get_of_cons (inside : scanner.len ≤ scanner.str.length) (begins : scanner.left = char :: rest) :
    get scanner = .ok (toInt char, scanner.advance 1) := by
  have length := length_left inside
  rw [begins, List.length_cons] at length
  have there : scanner.str.getD scanner.cur 0 = char := by
    have head := congrArg List.head? begins
    rw [left, List.head?_drop, List.getElem?_take_of_lt (by omega), List.head?_cons] at head
    rw [List.getD_eq_getElem?_getD, head]
    rfl
  rw [get, if_pos (by omega), there]
  rfl

/-- The character is put back where another one follows. -/
theorem unget_of_cons (inside : scanner.len ≤ scanner.str.length) (begins : scanner.left = char :: rest)
    (follows : rest ≠ []) : unget (scanner.advance 1) = .ok ((), scanner) := by
  have length := length_left inside
  have positive := List.length_pos_iff.2 follows
  rw [begins, List.length_cons] at length
  have before : (scanner.advance 1).cur < (scanner.advance 1).len := by
    change scanner.cur + 1 < scanner.len
    omega
  rw [unget, if_pos before]
  rfl

/-- At the end nothing is put back. -/
theorem unget_of_nil (inside : scanner.len ≤ scanner.str.length) (ended : scanner.left = []) :
    unget scanner = .ok ((), scanner) := by
  have length := length_left inside
  rw [ended, List.length_nil] at length
  rw [unget, if_neg (by omega)]

theorem inside_advance (inside : scanner.len ≤ scanner.str.length) (count : Nat) :
    (scanner.advance count).len ≤ (scanner.advance count).str.length := inside

theorem advance_advance (first second : Nat) :
    (scanner.advance first).advance second = scanner.advance (first + second) := by
  rw [advance, advance, advance, Nat.add_assoc]

theorem advance_inj {first second : Nat} (same : scanner.advance first = scanner.advance second) :
    first = second := by
  have position := congrArg Scanner.cur same
  exact Nat.add_left_cancel position

/-- The number of characters that are taken beyond the accepted ones. -/
def taken (rest : Text) : Nat := if rest.length = 1 then 1 else 0

/-- A character that is read and not accepted is put back unless it is the last one. -/
theorem getUnget_eq (inside : scanner.len ≤ scanner.str.length) :
    getUnget scanner = .ok ((), scanner.advance (taken scanner.left)) := by
  cases begins : scanner.left with
  | nil =>
      rw [getUnget, Scan.bind_ok (get_of_nil inside begins), unget_of_nil inside begins]
      rfl
  | cons char rest =>
      rw [getUnget, Scan.bind_ok (get_of_cons inside begins)]
      cases rest with
      | nil =>
          have ended : (scanner.advance 1).left = [] := by rw [left_advance, begins]; rfl
          exact unget_of_nil (inside_advance inside 1) ended
      | cons next rest =>
          have follows : taken (char :: next :: rest) = 0 := if_neg (by simp)
          rw [unget_of_cons inside begins (List.cons_ne_nil next rest), follows]
          rfl

/-- The loop accepts the first characters and takes one more where one is left. -/
theorem readWhile_eq {accepts : Int → Bool} (refused : accepts (-1) = false) (fuel : Nat)
    (inside : scanner.len ≤ scanner.str.length) (enough : scanner.left.length < fuel) :
    readWhile accepts fuel scanner =
      .ok (scanner.left.takeWhile (accepts ∘ toInt),
        scanner.advance ((scanner.left.takeWhile (accepts ∘ toInt)).length +
          taken (scanner.left.dropWhile (accepts ∘ toInt)))) := by
  induction fuel generalizing scanner with
  | zero => omega
  | succ fuel inductionHypothesis =>
      have putBack := getUnget_eq inside
      cases begins : scanner.left with
      | nil =>
          rw [getUnget, begins, Scan.bind_ok (get_of_nil inside begins)] at putBack
          rw [readWhile, Scan.bind_ok (get_of_nil inside begins), refused, if_neg Bool.false_ne_true,
            Scan.bind_ok putBack]
          rfl
      | cons char rest =>
          rw [getUnget, begins, Scan.bind_ok (get_of_cons inside begins)] at putBack
          rw [readWhile, Scan.bind_ok (get_of_cons inside begins)]
          cases accepted : accepts (toInt char) with
          | false =>
              rw [if_neg Bool.false_ne_true, Scan.bind_ok putBack,
                List.takeWhile_cons_of_neg (by simp [accepted]), List.dropWhile_cons_of_neg (by simp [accepted])]
              rw [List.length_nil, Nat.zero_add]
              rfl
          | true =>
              have behind : (scanner.advance 1).left = rest := by rw [left_advance, begins]; rfl
              rw [begins, List.length_cons] at enough
              have tail := inductionHypothesis (inside_advance inside 1) (by rw [behind]; omega)
              rw [behind, advance_advance] at tail
              rw [if_pos rfl, Scan.bind_ok tail, toByte_toInt, List.takeWhile_cons_of_pos (by simp [accepted]),
                List.dropWhile_cons_of_pos (by simp [accepted]), List.length_cons]
              change Except.ok _ = Except.ok _
              congr 3
              omega

theorem readAccepted_eq {accepts : Int → Bool} (refused : accepts (-1) = false)
    (inside : scanner.len ≤ scanner.str.length) :
    readAccepted accepts scanner =
      .ok (scanner.left.takeWhile (accepts ∘ toInt),
        scanner.advance ((scanner.left.takeWhile (accepts ∘ toInt)).length +
          taken (scanner.left.dropWhile (accepts ∘ toInt)))) := by
  have started : fuel scanner = .ok (scanner.len - scanner.cur + 1, scanner) := rfl
  rw [readAccepted, Scan.bind_ok started]
  apply readWhile_eq refused _ inside
  rw [length_left inside]
  omega

theorem restores_iff (inside : scanner.len ≤ scanner.str.length) :
    getUnget scanner = .ok ((), scanner) ↔ scanner.left.length ≠ 1 := by
  rw [getUnget_eq inside]
  constructor
  · intro restored single
    have same : scanner.advance (taken scanner.left) = scanner.advance 0 := by
      injection restored with pair
      exact congrArg Prod.snd pair
    rw [taken, if_pos single] at same
    exact absurd (advance_inj same) one_ne_zero
  · intro other
    rw [taken, if_neg other]
    rfl

/-- Only the byte 255 has the value of the end. -/
theorem toInt_eq_neg_one_iff (char : UInt8) : toInt char = -1 ↔ char = 255 := by
  constructor
  · intro value
    have read := toByte_toInt char
    rw [value] at read
    exact read.symm
  · rintro rfl
    rfl

theorem reportsEnd_iff (inside : scanner.len ≤ scanner.str.length) :
    scanner.ReportsEnd ↔ scanner.left = [] ∨ scanner.left.head? = some 255 := by
  cases begins : scanner.left with
  | nil =>
      have reports : scanner.ReportsEnd := ⟨scanner, get_of_nil inside begins⟩
      exact iff_of_true reports (Or.inl rfl)
  | cons char rest =>
      rw [ReportsEnd, get_of_cons inside begins, List.head?_cons]
      simp [toInt_eq_neg_one_iff]

end Scanner

namespace Reading

variable {reading : Reading} {scanner : Scanner}

theorem accepts_end (reading : Reading) (loops : ∀ mark, reading ≠ special mark) :
    reading.accepts (-1) = false := by
  cases reading with
  | special mark => exact absurd rfl (loops mark)
  | _ => rfl

/-- The text behind the accepted characters of a loop. -/
theorem refused_eq (left : Text) (loops : ∀ mark, reading ≠ special mark) :
    reading.refused left = left.dropWhile (reading.accepts ∘ toInt) := by
  have same : reading.accepted left = left.takeWhile (reading.accepts ∘ toInt) := by
    cases reading with
    | special mark => exact absurd rfl (loops mark)
    | _ => rfl
  rw [refused, same]
  nth_rewrite 2 [← List.takeWhile_append_dropWhile (p := reading.accepts ∘ toInt) (l := left)]
  exact List.drop_left

/-- The characters that a reader takes beyond the accepted ones. -/
def lost (reading : Reading) (left : Text) : Nat :=
  if reading.looksFurther left then Scanner.taken (reading.refused left) else 0

/-- The loop of a reader takes its accepted characters and sometimes one more. -/
theorem readAccepted_eq (reading : Reading) (inside : scanner.len ≤ scanner.str.length) (loops : ∀ mark, reading ≠ special mark) :
    Scanner.readAccepted reading.accepts scanner = .ok (reading.accepted scanner.left,
      scanner.advance ((reading.accepted scanner.left).length + reading.lost scanner.left)) := by
  have read := Scanner.readAccepted_eq (accepts_end reading loops) inside
  rw [← refused_eq scanner.left loops] at read
  cases reading with
  | special mark => exact absurd rfl (loops mark)
  | _ => exact read

theorem call_special (mark : Char) (inside : scanner.len ≤ scanner.str.length) :
    (special mark).call scanner = .ok ((), scanner.advance
      (((special mark).accepted scanner.left).length + (special mark).lost scanner.left)) := by
  have putBack := Scanner.getUnget_eq inside
  have read : ∃ found, Scanner.readSpecial mark scanner = .ok (found, scanner.advance
      (((special mark).accepted scanner.left).length + (special mark).lost scanner.left)) := by
    rw [Scanner.readSpecial]
    cases begins : scanner.left with
    | nil =>
        have get := Scanner.get_of_nil inside begins
        have other : ((-1 : Int) != code mark) = true := by
          have positive : (0 : Int) ≤ code mark := Int.natCast_nonneg _
          rw [bne_iff_ne]
          omega
        rw [Scanner.getUnget, begins, Scan.bind_ok get] at putBack
        rw [Scan.bind_ok get, if_pos other, Scan.bind_ok putBack]
        exact ⟨false, rfl⟩
    | cons char rest =>
        have get := Scanner.get_of_cons inside begins
        rw [Scanner.getUnget, begins, Scan.bind_ok get] at putBack
        rw [Scan.bind_ok get]
        by_cases found : toInt char = code mark
        · have accepted : (special mark).accepted (char :: rest) = [char] := by
            simp [Reading.accepted, accepts, found]
          rw [if_neg (by simp [found]), accepted, lost, looksFurther, accepted]
          exact ⟨true, rfl⟩
        · have accepted : (special mark).accepted (char :: rest) = [] := by
            simp [Reading.accepted, accepts, found]
          rw [if_pos (by simp [found]), Scan.bind_ok putBack, accepted, lost, looksFurther, refused, accepted]
          refine ⟨false, ?_⟩
          rw [List.length_nil, Nat.zero_add]
          rfl
  obtain ⟨found, read⟩ := read
  rw [call, Scan.bind_ok read]
  rfl

/-- Every reader that returns takes its accepted characters and those it loses. -/
theorem call_eq (inside : scanner.len ≤ scanner.str.length) (fits : reading.tooLarge scanner.left = false) :
    reading.call scanner = .ok ((), scanner.advance
      ((reading.accepted scanner.left).length + reading.lost scanner.left)) := by
  have run := reading.readAccepted_eq inside
  cases reading with
  | special mark => exact call_special mark inside
  | space =>
      rw [call, Scanner.readSpace, Scan.bind_ok (Scan.bind_ok (run (by simp)))]
      rfl
  | optSpace =>
      exact Scan.bind_ok (run (by simp))
  | token lower =>
      rw [call, Scanner.readToken, Scan.bind_ok (Scan.bind_ok (run (by simp)))]
      rfl
  | version =>
      exact Scan.bind_ok (run (by simp))
  | status =>
      rw [call, Scanner.readStatus, Scan.bind_ok (Scan.bind_ok (run (by simp)))]
      rfl
  | chunkSize =>
      have small : ¬2 ^ 63 ≤ number 16 (chunkSize.accepted scanner.left) := by
        simpa [tooLarge] using fits
      obtain ⟨size, read⟩ : ∃ size, Scanner.readChunkSize scanner = .ok (size, scanner.advance
          ((chunkSize.accepted scanner.left).length + chunkSize.lost scanner.left)) := by
        have read : Scanner.readAccepted isXdigit scanner = _ := run (by simp)
        rw [Scanner.readChunkSize, Scan.bind_ok read]
        by_cases none : (chunkSize.accepted scanner.left).isEmpty = true
        · rw [if_pos none]
          exact ⟨Option.none, rfl⟩
        · rw [if_neg none, if_neg small]
          exact ⟨some _, rfl⟩
      exact Scan.bind_ok read

/-- A chunk size that is too large is an error. -/
theorem call_tooLarge (inside : scanner.len ≤ scanner.str.length) (large : reading.tooLarge scanner.left = true)
    (later : Scanner) : reading.call scanner ≠ .ok ((), later) := by
  have both := Bool.and_eq_true_iff.1 large
  obtain rfl : reading = chunkSize := eq_of_beq both.1
  have size := of_decide_eq_true both.2
  have read : Scanner.readAccepted isXdigit scanner = _ := chunkSize.readAccepted_eq inside (by simp)
  have some : ¬(chunkSize.accepted scanner.left).isEmpty = true := by
    intro none
    rw [List.isEmpty_iff.1 none] at size
    exact absurd size (by decide)
  have thrown : Scanner.readChunkSize scanner = .error (.outOfRange (text "stoll")) := by
    rw [Scanner.readChunkSize, Scan.bind_ok read, if_neg some, if_pos size]
    rfl
  intro returned
  rw [call, Scan.bind_error thrown] at returned
  cases returned

/-- A reader advances by what it accepts unless it looks at a last character in vain, and the byte 255 behind the
accepted characters is taken for the end. -/
theorem advances_iff (reading : Reading) (inside : scanner.len ≤ scanner.str.length) :
    reading.Advances scanner ↔ reading.tooLarge scanner.left = true ∨
      (reading.looksFurther scanner.left = true → (reading.refused scanner.left).length ≠ 1) ∧
      (reading.refused scanner.left).head? ≠ some 255 := by
  cases large : reading.tooLarge scanner.left with
  | true =>
      refine iff_of_true ?_ (Or.inl rfl)
      intro later returned
      exact absurd returned (call_tooLarge inside large later)
  | false =>
      have run := call_eq inside large
      have behind := scanner.left_advance (reading.accepted scanner.left).length
      have ends := Scanner.reportsEnd_iff
        (Scanner.inside_advance inside (reading.accepted scanner.left).length)
      rw [behind] at ends
      constructor
      · intro advances
        obtain ⟨same, -, reported⟩ := advances _ run
        have none : reading.lost scanner.left = 0 := by
          have count := Scanner.advance_inj same
          omega
        rw [none, Nat.add_zero] at reported
        refine Or.inr ⟨fun looks single => ?_, fun last => ?_⟩
        · rw [lost, if_pos looks, Scanner.taken, if_pos single] at none
          exact one_ne_zero none
        · have empty := reported (ends.2 (Or.inr last))
          rw [empty] at last
          cases last
      · rintro (absent | ⟨looks, other⟩)
        · cases absent
        intro later returned
        have none : reading.lost scanner.left = 0 := by
          unfold lost Scanner.taken
          split
          · rename_i further
            exact if_neg (looks further)
          · rfl
        rw [run, none, Nat.add_zero] at returned
        injection returned with pair
        obtain rfl := congrArg Prod.snd pair
        refine ⟨rfl, fun char first => ?_, fun reported => ?_⟩
        · obtain ⟨rest, begins⟩ := List.head?_eq_some_iff.1 first
          exact Scanner.get_of_cons (Scanner.inside_advance inside _) (behind.trans begins)
        · exact (ends.1 reported).resolve_right other

end Reading

/-- The scanner restores its state unless one character is left, and each of its readers advances by what it accepts
unless it looks at a last character in vain or stands before the byte 255. -/
theorem push_back_iff (scanner : Scanner) (inside : scanner.len ≤ scanner.str.length) :
    (Scanner.getUnget scanner = .ok ((), scanner) ↔ scanner.left.length ≠ 1) ∧
    ∀ reading : Reading, reading.Advances scanner ↔ reading.tooLarge scanner.left = true ∨
      (reading.looksFurther scanner.left = true → (reading.refused scanner.left).length ≠ 1) ∧
      (reading.refused scanner.left).head? ≠ some 255 :=
  ⟨Scanner.restores_iff inside, fun reading => reading.advances_iff inside⟩

/-- In the text "a;b" the semicolon is put back behind the token. -/
theorem push_back_iff_kept :
    (Scanner.init (text "a;b")).len ≤ (Scanner.init (text "a;b")).str.length ∧
    Scanner.getUnget (Scanner.init (text "a;b")) = .ok ((), Scanner.init (text "a;b")) ∧
    (Reading.token true).Advances (Scanner.init (text "a;b")) :=
  have kept := push_back_iff (Scanner.init (text "a;b")) (by decide)
  ⟨by decide, kept.1.2 (by decide), (kept.2 (Reading.token true)).2 (Or.inr (by decide))⟩

/-- The comma at the end of "a," is lost, and the byte 255 is taken for the end. -/
theorem push_back_lost :
    Scanner.getUnget (Scanner.init (text ",")) ≠ .ok ((), Scanner.init (text ",")) ∧
    ¬(Reading.token true).Advances (Scanner.init (text "a,")) ∧
    ¬(Reading.token true).Advances (Scanner.init [97, 255, 98]) := by
  refine ⟨fun restored => ?_, fun advances => ?_, fun advances => ?_⟩
  · exact absurd rfl ((Scanner.restores_iff (by decide)).1 restored)
  · exact absurd ((Reading.advances_iff (Reading.token true) (by decide)).1 advances) (by decide)
  · exact absurd ((Reading.advances_iff (Reading.token true) (by decide)).1 advances) (by decide)

end SimpleNFast.Http
