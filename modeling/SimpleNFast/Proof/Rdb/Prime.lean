import Mathlib.Tactic
import Mathlib.NumberTheory.Bertrand
import SimpleNFast.Construction.Rdb.Prime

namespace SimpleNFast.Rdb

/-- The searches visit the numbers beside the multiples of six. -/
def OnWheel (i ni : Nat) : Prop := (i % 6 = 5 ∧ ni = 2) ∨ (i % 6 = 1 ∧ ni = 4)

section Wheel

variable {i ni prime : Nat}

theorem OnWheel.bounds (wheel : OnWheel i ni) : 2 ≤ ni ∧ ni ≤ 4 := by
  unfold OnWheel at wheel
  omega

theorem OnWheel.next (wheel : OnWheel i ni) : OnWheel (i + ni) (6 - ni) := by
  unfold OnWheel at wheel ⊢
  omega

/-- Every prime from five on is on the wheel. -/
theorem prime_mod_six (isPrime : prime.Prime) (large : 3 < prime) : prime % 6 = 1 ∨ prime % 6 = 5 := by
  have odd : prime % 2 ≠ 0 := by
    intro even
    have two := (Nat.prime_dvd_prime_iff_eq Nat.prime_two isPrime).1 (Nat.dvd_of_mod_eq_zero even)
    omega
  have other : prime % 3 ≠ 0 := by
    intro multiple
    have three := (Nat.prime_dvd_prime_iff_eq Nat.prime_three isPrime).1 (Nat.dvd_of_mod_eq_zero multiple)
    omega
  omega

/-- No prime lies between two places of the wheel. -/
theorem OnWheel.skips_no_prime (wheel : OnWheel i ni) (start : 5 ≤ i) (isPrime : prime.Prime)
    (reached : i ≤ prime) (other : i ≠ prime) : i + ni ≤ prime := by
  have residue := prime_mod_six isPrime (by omega)
  unfold OnWheel at wheel
  omega

end Wheel

section Root

variable {number : Nat}

/-- The search halves a range that holds the root, and `res` is the number before the range. -/
theorem floorSqrtLoop_eq_sqrt (fuel lo hi res : Nat) (enough : hi + 1 - lo < fuel) (before : lo = res + 1)
    (lower : res * res ≤ number) (upper : number < (hi + 1) * (hi + 1)) :
    floorSqrtLoop number fuel lo hi res = Nat.sqrt number := by
  induction fuel generalizing lo hi res with
  | zero => omega
  | succ fuel inductionHypothesis =>
      rw [floorSqrtLoop]
      split
      · have inside : lo ≤ (lo + hi) / 2 ∧ (lo + hi) / 2 ≤ hi := by omega
        generalize (lo + hi) / 2 = mid at inside
        dsimp only
        split
        · rename_i small
          exact inductionHypothesis (mid + 1) hi mid (by omega) rfl small.le upper
        · split
          · rename_i square
            rw [← square, Nat.sqrt_eq]
          · rename_i notSmall notSquare
            apply inductionHypothesis lo (mid - 1) res (by omega) before lower
            have positive : mid - 1 + 1 = mid := by omega
            rw [positive]
            omega
      · have last : hi + 1 ≤ res + 1 := by omega
        exact Nat.eq_sqrt.2 ⟨lower, upper.trans_le (Nat.mul_le_mul last last)⟩

theorem floorSqrt_eq_sqrt (number : Nat) : floorSqrt number = Nat.sqrt number := by
  apply floorSqrtLoop_eq_sqrt (number + 1) 1 number 0 (by omega) rfl (Nat.zero_le _)
  nlinarith

end Root

section Primality

variable {number : Nat}

/-- The loop finds a divisor unless the number is a prime. -/
theorem isPrimeLoop_iff (fuel i ni : Nat) (wheel : OnWheel i ni) (start : 5 ≤ i) (large : 2 ≤ number)
    (enough : Nat.sqrt number + 1 - i < fuel) (tried : ∀ prime, prime.Prime → prime ∣ number → i ≤ prime) :
    isPrimeLoop number (Nat.sqrt number) fuel i ni = true ↔ number.Prime := by
  induction fuel generalizing i ni with
  | zero => omega
  | succ fuel inductionHypothesis =>
      rw [isPrimeLoop]
      have step := wheel.bounds
      split
      · rename_i small
        split
        · rename_i divides
          refine iff_of_false Bool.false_ne_true fun isPrime => ?_
          have divisor := (Nat.dvd_prime isPrime).1 (Nat.dvd_of_mod_eq_zero divides)
          have below := Nat.sqrt_lt_self (show 1 < number by omega)
          omega
        · rename_i notDivides
          apply inductionHypothesis (i + ni) (6 - ni) wheel.next (by omega) (by omega)
          intro prime isPrime divides
          apply wheel.skips_no_prime start isPrime (tried prime isPrime divides)
          intro same
          exact notDivides (same ▸ Nat.mod_eq_zero_of_dvd divides)
      · rename_i large'
        refine iff_of_true rfl ?_
        by_contra composite
        have least := tried number.minFac (Nat.minFac_prime (by omega)) (Nat.minFac_dvd number)
        have square := Nat.minFac_sq_le_self (by omega) composite
        have bounded := Nat.le_sqrt'.2 square
        omega

/-- The loop starts behind the primes that were tried before. -/
theorem isPrimeLoop_start_iff {fuel : Nat} (odd : number % 2 ≠ 0) (other : number % 3 ≠ 0) (large : 2 ≤ number)
    (enough : Nat.sqrt number < fuel) :
    isPrimeLoop number (Nat.sqrt number) fuel 5 2 = true ↔ number.Prime := by
  apply isPrimeLoop_iff fuel 5 2 (Or.inl ⟨rfl, rfl⟩) le_rfl large (by omega)
  intro prime isPrime divides
  have least := isPrime.two_le
  have notTwo : prime ≠ 2 := by
    rintro rfl
    exact odd (Nat.mod_eq_zero_of_dvd divides)
  have notThree : prime ≠ 3 := by
    rintro rfl
    exact other (Nat.mod_eq_zero_of_dvd divides)
  have notFour : prime ≠ 4 := by
    rintro rfl
    exact absurd isPrime (by decide)
  omega

/-- A multiple of a smaller prime is neither one nor a prime. -/
theorem not_prime_of_mod {divisor : Nat} (isPrime : divisor.Prime) (multiple : number % divisor = 0)
    (other : number ≠ divisor) : ¬(number = 1 ∨ number.Prime) := by
  have divides := Nat.dvd_of_mod_eq_zero multiple
  rintro (rfl | claimed)
  · exact isPrime.one_lt.ne' (Nat.dvd_one.1 divides)
  · exact other ((Nat.prime_dvd_prime_iff_eq isPrime claimed).1 divides).symm

/-- The test accepts the primes and one. -/
theorem isPrime_iff (number : Nat) : isPrime number = true ↔ number = 1 ∨ number.Prime := by
  rw [isPrime]
  split
  · rename_i small
    rcases small with rfl | rfl | rfl <;> decide
  split
  · rename_i other even
    exact iff_of_false Bool.false_ne_true (not_prime_of_mod Nat.prime_two even (by omega))
  split
  · rename_i other odd multiple
    exact iff_of_false Bool.false_ne_true (not_prime_of_mod Nat.prime_three multiple (by omega))
  rename_i other odd rest
  have below := Nat.sqrt_lt_self (show 1 < number by omega)
  rw [floorSqrt_eq_sqrt, isPrimeLoop_start_iff odd rest (by omega) below]
  exact (or_iff_right (by omega)).symm

theorem isPrime_eq_false (large : 2 ≤ number) (composite : ¬number.Prime) : isPrime number = false := by
  rw [Bool.eq_false_iff, Ne, isPrime_iff]
  rintro (one | isPrime)
  · omega
  · exact composite isPrime

end Primality

section Search

variable {next ni least : Nat}

/-- One step of the search finds the least prime or stays below it. -/
theorem OnWheel.search_step (wheel : OnWheel next ni) (start : 5 ≤ next)
    (isLeast : IsLeast {prime | prime.Prime ∧ next ≤ prime} least) :
    (isPrime next = true ∧ next = least) ∨
      (isPrime next = false ∧ next + ni ≤ least ∧ IsLeast {prime | prime.Prime ∧ next + ni ≤ prime} least) := by
  obtain ⟨⟨leastPrime, reached⟩, lower⟩ := isLeast
  by_cases found : next.Prime
  · left
    exact ⟨(isPrime_iff next).2 (Or.inr found), reached.antisymm (lower ⟨found, le_rfl⟩)⟩
  · right
    have other : next ≠ least := fun same => found (same ▸ leastPrime)
    have skipped := wheel.skips_no_prime start leastPrime reached other
    refine ⟨?_, skipped, ⟨leastPrime, skipped⟩, ?_⟩
    · rw [Bool.eq_false_iff, Ne, isPrime_iff]
      rintro (one | isPrime)
      · omega
      · exact found isPrime
    · rintro prime ⟨isPrime, above⟩
      exact lower ⟨isPrime, by omega⟩

/-- The search finds the least prime from its start on. -/
theorem nextPrimeLoop_eq (fuel : Nat) (wheel : OnWheel next ni) (start : 5 ≤ next)
    (isLeast : IsLeast {prime | prime.Prime ∧ next ≤ prime} least) (enough : least - next < fuel) :
    nextPrimeLoop fuel next ni = least := by
  induction fuel generalizing next ni with
  | zero => omega
  | succ fuel inductionHypothesis =>
      have step := wheel.bounds
      rw [nextPrimeLoop]
      rcases wheel.search_step start isLeast with ⟨found, same⟩ | ⟨notFound, below, later⟩
      · rw [if_pos found, same]
      · rw [notFound, if_neg Bool.false_ne_true]
        exact inductionHypothesis wheel.next (by omega) later (by omega)

/-- The search without bounds finds the least prime from the end of the block on. -/
theorem nextPrime_eq {n : Nat} (composite : isPrime n = false)
    (isLeast : IsLeast {prime | prime.Prime ∧ 6 * (n / 6) + 5 ≤ prime} least) : nextPrime n = least := by
  have first : firstCandidate n n (n / 6 + 1) = 6 * (n / 6) + 5 := by
    cases n with
    | zero => rfl
    | succ n => exact (if_neg (by omega)).trans (by omega)
  have enough : least - (6 * (n / 6) + 5) < 2 * n + 1 := by
    by_cases small : n ≤ 4
    · have five : least ≤ 5 := isLeast.2 ⟨Nat.prime_five, by omega⟩
      omega
    · obtain ⟨prime, isPrime, above, double⟩ := Nat.exists_prime_lt_and_le_two_mul (6 * (n / 6) + 5) (by omega)
      have bounded : least ≤ prime := isLeast.2 ⟨isPrime, above.le⟩
      omega
  rw [nextPrime, composite, if_neg Bool.false_ne_true, first]
  exact nextPrimeLoop_eq (2 * n + 1) (Or.inl ⟨by omega, rfl⟩) (by omega) isLeast enough

theorem le_nextPrimeLoop (fuel next ni : Nat) : next ≤ nextPrimeLoop fuel next ni := by
  induction fuel generalizing next ni with
  | zero => exact le_rfl
  | succ fuel inductionHypothesis =>
      rw [nextPrimeLoop]
      split
      · exact le_rfl
      · exact (Nat.le_add_right next ni).trans (inductionHypothesis (next + ni) (6 - ni))

theorem firstCandidate_pos (n fuel : Nat) {i : Nat} (start : 0 < i) : 0 < firstCandidate n fuel i := by
  induction fuel generalizing i with
  | zero => exact Nat.sub_pos_of_lt (by omega)
  | succ fuel inductionHypothesis =>
      rw [firstCandidate]
      split
      · exact inductionHypothesis (Nat.succ_pos i)
      · omega

/-- A hash table has at least one bucket. -/
theorem nextPrime_pos (n : Nat) : 0 < nextPrime n := by
  rw [nextPrime]
  split
  · rename_i prime
    rcases (isPrime_iff n).1 prime with rfl | isPrime
    · exact Nat.one_pos
    · exact isPrime.pos
  · exact (firstCandidate_pos n n (Nat.succ_pos _)).trans_le (le_nextPrimeLoop _ _ _)

end Search

namespace Signed

theorem ok_bind {α β : Type} (value : α) (further : α → Except Halt β) : (.ok value >>= further) = further value :=
  rfl

theorem long_natCast {value : Nat} (fits : value < 2 ^ 63) : long value = .ok (value : Int) :=
  if_pos (by omega)

theorem int_natCast {value : Nat} (fits : value < 2 ^ 31) : int value = .ok (value : Int) :=
  if_pos (by omega)

/-- The loop stays in the range of its arithmetic. -/
theorem floorSqrtLoop_ok (number fuel lo hi res : Nat) (enough : hi + 1 - lo < fuel) (start : 1 ≤ lo)
    (fits : hi < 2 ^ 31) :
    floorSqrtLoop number fuel lo hi res = .ok (Rdb.floorSqrtLoop number fuel lo hi res : Int) := by
  induction fuel generalizing lo hi res with
  | zero => omega
  | succ fuel inductionHypothesis =>
      rw [floorSqrtLoop, Rdb.floorSqrtLoop]
      by_cases more : lo ≤ hi
      · have inside : lo ≤ (lo + hi) / 2 ∧ (lo + hi) / 2 ≤ hi := by omega
        have sum : long ((lo : Int) + hi) = .ok ((lo + hi : Nat) : Int) := by
          rw [← Nat.cast_add]
          exact long_natCast (by omega)
        have half : ((lo + hi : Nat) : Int).tdiv 2 = ((lo + hi) / 2 : Nat) := (Int.ofNat_tdiv _ _).symm
        rw [if_pos more, if_pos (by omega), sum, ok_bind, half]
        generalize (lo + hi) / 2 = mid at inside
        have bounded : mid * mid < 2 ^ 63 := by
          have small : mid < 2 ^ 31 := by omega
          exact (Nat.mul_lt_mul'' small small).trans (by norm_num)
        have square : long ((mid : Int) * mid) = .ok ((mid * mid : Nat) : Int) := by
          rw [← Nat.cast_mul]
          exact long_natCast bounded
        dsimp only
        rw [square, ok_bind]
        by_cases small : mid * mid < number
        · have above : long ((mid : Int) + 1) = .ok ((mid + 1 : Nat) : Int) := by
            rw [← Nat.cast_succ]
            exact long_natCast (by omega)
          rw [if_pos small, if_pos (by exact_mod_cast small), above, ok_bind]
          exact inductionHypothesis (mid + 1) hi mid (by omega) (by omega) fits
        · rw [if_neg small, if_neg (by exact_mod_cast small)]
          by_cases same : mid * mid = number
          · rw [if_pos same, if_pos (by exact_mod_cast same)]
          · have below : long ((mid : Int) - 1) = .ok ((mid - 1 : Nat) : Int) := by
              rw [← Nat.cast_pred (by omega)]
              exact long_natCast (by omega)
            rw [if_neg same, if_neg (by exact_mod_cast same), below, ok_bind]
            exact inductionHypothesis lo (mid - 1) res (by omega) start (by omega)
      · rw [if_neg more, if_neg (by omega)]

/-- The loop stays in the range of its arithmetic. -/
theorem isPrimeLoop_ok {sq : Nat} (number fuel i ni : Nat) (wheel : OnWheel i ni) (enough : sq + 1 - i < fuel)
    (fits : sq < 2 ^ 31) :
    isPrimeLoop number sq fuel i ni = .ok (Rdb.isPrimeLoop number sq fuel i ni) := by
  induction fuel generalizing i ni with
  | zero => omega
  | succ fuel inductionHypothesis =>
      have step := wheel.bounds
      rw [isPrimeLoop, Rdb.isPrimeLoop]
      by_cases more : i ≤ sq
      · rw [if_pos more, if_pos (by omega)]
        have remainder : (number : Int).tmod i = (number % i : Nat) := (Int.ofNat_tmod _ _).symm
        rw [remainder]
        by_cases divides : number % i = 0
        · rw [if_pos divides, if_pos (by omega)]
        · have next : long ((i : Int) + ni) = .ok ((i + ni : Nat) : Int) := by
            rw [← Nat.cast_add]
            exact long_natCast (by omega)
          have other : long (6 - (ni : Int)) = .ok ((6 - ni : Nat) : Int) := by
            have whole : 6 - (ni : Int) = ((6 - ni : Nat) : Int) := by omega
            rw [whole]
            exact long_natCast (by omega)
          rw [if_neg divides, if_neg (by omega), next, other, ok_bind, ok_bind]
          exact inductionHypothesis (i + ni) (6 - ni) wheel.next (by omega)
      · rw [if_neg more, if_neg (by omega)]

/-- The search for the root stays in the range of its arithmetic. -/
theorem floorSqrt_ok {number fuel : Nat} (fits : number < 2 ^ 31) (enough : number < fuel) :
    floorSqrt fuel number = .ok (Nat.sqrt number : Int) := by
  have start := floorSqrtLoop_ok number fuel 1 number 0 (by omega) le_rfl fits
  rw [floorSqrtLoop_eq_sqrt fuel 1 number 0 (by omega) rfl (Nat.zero_le _) (by nlinarith)] at start
  exact start

/-- The test of a number stays in the range of its arithmetic. -/
theorem isPrime_ok {number fuel : Nat} (fits : number < 2 ^ 31) (enough : number < fuel) :
    isPrime fuel number = .ok (Rdb.isPrime number) := by
  have mod2 : (number : Int).tmod 2 = (number % 2 : Nat) := (Int.ofNat_tmod _ _).symm
  have mod3 : (number : Int).tmod 3 = (number % 3 : Nat) := (Int.ofNat_tmod _ _).symm
  rw [isPrime, Rdb.isPrime, mod2, mod3]
  by_cases small : number = 1 ∨ number = 2 ∨ number = 3
  · rw [if_pos small, if_pos (by omega)]
  rw [if_neg small, if_neg (by omega)]
  by_cases even : number % 2 = 0
  · rw [if_pos even, if_pos (by omega)]
  rw [if_neg even, if_neg (by omega)]
  by_cases multiple : number % 3 = 0
  · rw [if_pos multiple, if_pos (by omega)]
  rw [if_neg multiple, if_neg (by omega)]
  have large : 2 ≤ number := by omega
  have below := Nat.sqrt_lt_self (show 1 < number by omega)
  have tested := isPrimeLoop_ok number fuel 5 2 (Or.inl ⟨rfl, rfl⟩)
    (show Nat.sqrt number + 1 - 5 < fuel by omega) (by omega)
  have same : Rdb.isPrimeLoop number (Nat.sqrt number) fuel 5 2 =
      Rdb.isPrimeLoop number (Rdb.floorSqrt number) number 5 2 := by
    rw [Bool.eq_iff_iff, floorSqrt_eq_sqrt, isPrimeLoop_start_iff even multiple large below,
      isPrimeLoop_start_iff even multiple large (below.trans enough)]
  rw [floorSqrt_ok fits enough, ok_bind, ← same]
  exact tested

/-- The search stays in the range of its arithmetic and finds the least prime from its start on. -/
theorem nextPrimeLoop_ok {limit next ni least : Nat} (fuel : Nat) (wheel : OnWheel next ni) (start : 5 ≤ next)
    (isLeast : IsLeast {prime | prime.Prime ∧ next ≤ prime} least) (fits : least < 2 ^ 31)
    (inside : least < limit) (enough : least - next < fuel) :
    nextPrimeLoop limit fuel next ni = .ok (least : Int) := by
  induction fuel generalizing next ni with
  | zero => omega
  | succ fuel inductionHypothesis =>
      have step := wheel.bounds
      have reached := isLeast.1.2
      rw [nextPrimeLoop, isPrime_ok (by omega) (by omega), ok_bind]
      rcases wheel.search_step start isLeast with ⟨found, same⟩ | ⟨notFound, below, further⟩
      · rw [if_pos found, same]
      · have later : int ((next : Int) + ni) = .ok ((next + ni : Nat) : Int) := by
          rw [← Nat.cast_add]
          exact int_natCast (by omega)
        have other : int (6 - (ni : Int)) = .ok ((6 - ni : Nat) : Int) := by
          have whole : 6 - (ni : Int) = ((6 - ni : Nat) : Int) := by omega
          rw [whole]
          exact int_natCast (by omega)
        rw [notFound, if_neg Bool.false_ne_true, later, ok_bind, other, ok_bind]
        exact inductionHypothesis wheel.next (by omega) further (by omega)

/-- The search starts with the last number of the wheel in the block of the number. -/
theorem nextPrime_ok {n least fuel : Nat} (fits : least < 2 ^ 31) (enough : least < fuel)
    (composite : Rdb.isPrime n = false)
    (isLeast : IsLeast {prime | prime.Prime ∧ 6 * (n / 6) + 5 ≤ prime} least) :
    nextPrime fuel n = .ok (least : Int) := by
  have reached := isLeast.1.2
  have quotient : int ((n : Int).tdiv 6 + 1) = .ok ((n / 6 + 1 : Nat) : Int) := by
    have whole : (n : Int).tdiv 6 + 1 = ((n / 6 + 1 : Nat) : Int) := by
      rw [Nat.cast_succ]
      exact congrArg (· + 1) (Int.ofNat_tdiv _ _).symm
    rw [whole]
    exact int_natCast (by omega)
  have product : int (6 * ((n / 6 + 1 : Nat) : Int)) = .ok ((6 * (n / 6) + 6 : Nat) : Int) := by
    have whole : 6 * ((n / 6 + 1 : Nat) : Int) = ((6 * (n / 6) + 6 : Nat) : Int) := by omega
    rw [whole]
    exact int_natCast (by omega)
  have candidate : int (((6 * (n / 6) + 6 : Nat) : Int) - 1) = .ok ((6 * (n / 6) + 5 : Nat) : Int) := by
    have whole : ((6 * (n / 6) + 6 : Nat) : Int) - 1 = ((6 * (n / 6) + 5 : Nat) : Int) := by omega
    rw [whole]
    exact int_natCast (by omega)
  obtain ⟨rest, rfl⟩ : ∃ rest, fuel = rest + 1 := ⟨fuel - 1, by omega⟩
  have first : firstCandidate n (rest + 1) ((n / 6 + 1 : Nat) : Int) ((6 * (n / 6) + 5 : Nat) : Int) =
      .ok ((6 * (n / 6) + 5 : Nat) : Int) := by
    rw [firstCandidate, if_neg (by omega)]
  rw [nextPrime, isPrime_ok (by omega) (by omega), ok_bind, composite, if_neg Bool.false_ne_true, quotient,
    ok_bind, product, ok_bind, candidate, ok_bind, first, ok_bind]
  exact nextPrimeLoop_ok (rest + 1) (Or.inl ⟨by omega, rfl⟩) (by omega) isLeast fits enough (by omega)

/-- In the range of its arithmetic the search of the machine has the answer of the search without bounds. -/
theorem nextPrime_eq_ok {n least fuel : Nat} (fits : least < 2 ^ 31) (enough : least < fuel)
    (composite : Rdb.isPrime n = false)
    (isLeast : IsLeast {prime | prime.Prime ∧ 6 * (n / 6) + 5 ≤ prime} least) :
    nextPrime fuel n = .ok (Rdb.nextPrime n : Int) := by
  rw [nextPrime_ok fits enough composite isLeast, Rdb.nextPrime_eq composite isLeast]

theorem value_of_int {value result : Int} (done : int value = .ok result) : result = value := by
  unfold int at done
  split at done
  · injection done with same
    exact same.symm
  · cases done

theorem ok_of_bind {α β : Type} {action : Except Halt α} {further : α → Except Halt β} {result : β}
    (done : (action >>= further) = .ok result) : ∃ value, action = .ok value ∧ further value = .ok result := by
  cases action with
  | error halt => cases done
  | ok value => exact ⟨value, rfl, done⟩

/-- The search never goes back. -/
theorem start_le_of_nextPrimeLoop {limit : Nat} (fuel : Nat) {next ni result : Int} (forward : 0 ≤ ni ∧ ni ≤ 6)
    (done : nextPrimeLoop limit fuel next ni = .ok result) : next ≤ result := by
  induction fuel generalizing next ni with
  | zero => cases done
  | succ fuel inductionHypothesis =>
      obtain ⟨prime, -, searched⟩ := ok_of_bind done
      cases prime with
      | true =>
          injection searched with same
          exact same.le
      | false =>
          obtain ⟨later, grown, continued⟩ := ok_of_bind searched
          obtain ⟨other, turned, rest⟩ := ok_of_bind continued
          have grownValue := value_of_int grown
          have turnedValue := value_of_int turned
          have further := inductionHypothesis (by omega) rest
          omega

/-- A number that is not a prime is answered with a number behind its block. -/
theorem block_lt_of_nextPrime {n fuel : Nat} {result : Int} (tested : isPrime fuel n = .ok false)
    (done : nextPrime fuel n = .ok result) : (6 * (n / 6) + 5 : Nat) ≤ result := by
  rw [nextPrime, tested, ok_bind, if_neg Bool.false_ne_true] at done
  obtain ⟨i, quotient, done⟩ := ok_of_bind done
  obtain ⟨product, multiplied, done⟩ := ok_of_bind done
  obtain ⟨next, decreased, done⟩ := ok_of_bind done
  obtain ⟨first, searched, done⟩ := ok_of_bind done
  have whole : (n : Int).tdiv 6 = (n / 6 : Nat) := (Int.ofNat_tdiv _ _).symm
  have quotientValue := value_of_int quotient
  have productValue := value_of_int multiplied
  have nextValue := value_of_int decreased
  rw [whole] at quotientValue
  have start : first = next := by
    cases fuel with
    | zero => cases searched
    | succ fuel =>
        have notLess : ¬next < (n : Int) := by omega
        have stays : firstCandidate n (fuel + 1) i next = .ok next := by rw [firstCandidate, if_neg notLess]
        rw [stays] at searched
        exact (Except.ok.inj searched).symm
  have reached := start_le_of_nextPrimeLoop fuel (by decide) done
  omega

end Signed

/-- The least prime from a composite number on lies behind the block of the number, unless it is the successor of
a multiple of six. -/
theorem isLeast_block {n least : Nat} (large : 2 ≤ n) (composite : ¬n.Prime)
    (late : n % 6 ≠ 0 ∨ ¬(n + 1).Prime) (isLeast : IsLeast {prime : Nat | prime.Prime ∧ n ≤ prime} least) :
    IsLeast {prime | prime.Prime ∧ 6 * (n / 6) + 5 ≤ prime} least := by
  obtain ⟨⟨leastPrime, reached⟩, lower⟩ := isLeast
  have other : n ≠ least := fun same => composite (same ▸ leastPrime)
  have notTwo : n ≠ 2 := fun same => composite (same ▸ Nat.prime_two)
  have residue := prime_mod_six leastPrime (by omega)
  refine ⟨⟨leastPrime, ?_⟩, ?_⟩
  swap
  · rintro prime ⟨isPrime, start⟩
    exact lower ⟨isPrime, by omega⟩
  rcases late with notMultiple | notSuccessor
  · omega
  · have further : n + 1 ≠ least := fun same => notSuccessor (same ▸ leastPrime)
    omega

/-- Behind a multiple of six whose successor is a prime the search starts too late. -/
theorem not_findsNextPrime_of_late {n : Nat} (small : n < 2 ^ 31) (large : 2 ≤ n) (composite : ¬n.Prime)
    (multiple : n % 6 = 0) (successor : (n + 1).Prime) : ¬FindsNextPrime n := by
  rintro ⟨answer, ⟨limit, answered⟩, -, lower⟩
  have below : answer ≤ n + 1 := lower ⟨successor, by omega⟩
  have enough : n < max limit (n + 1) := lt_max_of_lt_right n.lt_succ_self
  have tested : Signed.isPrime (max limit (n + 1)) n = .ok false := by
    rw [Signed.isPrime_ok small enough, isPrime_eq_false large composite]
  have behind := Signed.block_lt_of_nextPrime tested (answered _ (le_max_left limit (n + 1)))
  omega

/-- The answer is the least prime unless the number is a composite multiple of six before a prime. -/
theorem findsNextPrime_iff (n : Nat) (large : 2 ≤ n)
    (bounded : ∃ prime : Nat, prime.Prime ∧ n ≤ prime ∧ prime ≤ 2 ^ 31 - 1) :
    FindsNextPrime n ↔ n.Prime ∨ n % 6 ≠ 0 ∨ ¬(n + 1).Prime := by
  have found := Nat.find_spec bounded
  have isLeast : IsLeast {prime : Nat | prime.Prime ∧ n ≤ prime} (Nat.find bounded) := by
    refine ⟨⟨found.1, found.2.1⟩, fun prime inside => ?_⟩
    by_contra less
    exact Nat.find_min bounded (not_le.1 less) ⟨inside.1, inside.2, by omega⟩
  generalize Nat.find bounded = least at found isLeast
  have small : n < 2 ^ 31 := by omega
  have cast : {prime : Nat | prime.Prime ∧ (n : Int) ≤ prime} = {prime : Nat | prime.Prime ∧ n ≤ prime} := by
    ext prime
    simp
  by_cases isPrime : n.Prime
  · refine iff_of_true ⟨n, ⟨n + 1, fun fuel enough => ?_⟩, ?_⟩ (Or.inl isPrime)
    · rw [Signed.nextPrime, Signed.isPrime_ok small enough, Signed.ok_bind,
        if_pos ((isPrime_iff n).2 (Or.inr isPrime))]
    · rw [cast]
      exact ⟨⟨isPrime, le_rfl⟩, fun prime inside => inside.2⟩
  · constructor
    · intro finds
      by_contra late
      rw [not_or, not_or, not_not, not_not] at late
      exact not_findsNextPrime_of_late small large isPrime late.2.1 late.2.2 finds
    · intro early
      have late := early.resolve_left isPrime
      refine ⟨least, ⟨least + 1, fun fuel enough => ?_⟩, cast ▸ isLeast⟩
      exact Signed.nextPrime_ok (by omega) enough (isPrime_eq_false large isPrime)
        (isLeast_block large isPrime late isLeast)

/-- The number 25 of the documentation is answered with 29. -/
theorem findsNextPrime_twentyFive : FindsNextPrime 25 :=
  (findsNextPrime_iff 25 (by decide) ⟨29, by norm_num, by norm_num, by norm_num⟩).2 (Or.inr (Or.inl (by decide)))

/-- The number 12 of the documentation has the successor 13, which the search skips. -/
theorem not_findsNextPrime_twelve :
    2 ≤ 12 ∧ (∃ prime : Nat, prime.Prime ∧ 12 ≤ prime ∧ prime ≤ 2 ^ 31 - 1) ∧ ¬FindsNextPrime 12 :=
  ⟨by decide, ⟨13, by norm_num, by norm_num, by norm_num⟩,
    not_findsNextPrime_of_late (n := 12) (by norm_num) (by norm_num) (by norm_num) rfl (by norm_num)⟩

/-- Both functions end without overflow and give the root and the primality of every number of 31 bits. -/
theorem root_and_primality (n : Nat) (large : 2 ≤ n) (fits : n < 2 ^ 31) :
    ∃ limit, ∀ fuel, limit ≤ fuel → Signed.floorSqrt fuel n = .ok (Nat.sqrt n : Int) ∧
      ∃ answer, Signed.isPrime fuel n = .ok answer ∧ (answer = true ↔ n.Prime) := by
  refine ⟨n + 1, fun fuel enough => ⟨Signed.floorSqrt_ok fits enough, Rdb.isPrime n, ?_, ?_⟩⟩
  · exact Signed.isPrime_ok fits enough
  · rw [isPrime_iff]
    exact or_iff_right (by omega)

/-- The number 49 is the square of a prime at the bound of the loop. -/
theorem root_and_primality_fortyNine :
    2 ≤ 49 ∧ 49 < 2 ^ 31 ∧ ∃ limit, ∀ fuel, limit ≤ fuel →
      Signed.floorSqrt fuel (49 : Nat) = .ok (Nat.sqrt 49 : Int) ∧
      ∃ answer, Signed.isPrime fuel (49 : Nat) = .ok answer ∧ (answer = true ↔ Nat.Prime 49) :=
  ⟨by decide, by decide, root_and_primality 49 (by decide) (by decide)⟩

end SimpleNFast.Rdb
