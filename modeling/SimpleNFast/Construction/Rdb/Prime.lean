/-
This file models the prime numbers of `prime.cpp`.
-/

import Mathlib.Tactic

namespace SimpleNFast.Rdb

/-- The loop of `FloorSqrt`; each step halves the range. -/
def floorSqrtLoop (number : Nat) : Nat → Nat → Nat → Nat → Nat
  | 0, _, _, res => res
  | fuel + 1, lo, hi, res =>
      if lo ≤ hi then
        let mid := (lo + hi) / 2
        if mid * mid < number then floorSqrtLoop number fuel (mid + 1) hi mid
        else if mid * mid = number then mid
        else floorSqrtLoop number fuel lo (mid - 1) res
      else res

/-- The search for the root starts with the range from one to the number. -/
def floorSqrt (number : Nat) : Nat := floorSqrtLoop number (number + 1) 1 number 0

/-- The loop of `IsPrime` tries the divisors beside the multiples of six. -/
def isPrimeLoop (number sq : Nat) : Nat → Nat → Nat → Bool
  | 0, _, _ => true
  | fuel + 1, i, ni =>
      if i ≤ sq then
        if number % i = 0 then false
        else isPrimeLoop number sq fuel (i + ni) (6 - ni)
      else true

def isPrime (number : Nat) : Bool :=
  if number = 1 ∨ number = 2 ∨ number = 3 then true
  else if number % 2 = 0 then false
  else if number % 3 = 0 then false
  else isPrimeLoop number (floorSqrt number) number 5 2

/-- The first loop of `NextPrime` looks for the start of the search. -/
def firstCandidate (n : Nat) : Nat → Nat → Nat
  | 0, i => 6 * i - 1
  | fuel + 1, i => if 6 * i - 1 < n then firstCandidate n fuel (i + 1) else 6 * i - 1

/-- The second loop of `NextPrime`; there is a prime below twice the number. -/
def nextPrimeLoop : Nat → Nat → Nat → Nat
  | 0, next, _ => next
  | fuel + 1, next, ni => if isPrime next then next else nextPrimeLoop fuel (next + ni) (6 - ni)

def nextPrime (n : Nat) : Nat :=
  if isPrime n then n else nextPrimeLoop (2 * n + 1) (firstCandidate n n (n / 6 + 1)) 2

namespace Signed

/-- The reasons for which signed arithmetic gives no result. -/
inductive Halt where
  | overflow
  | running
  deriving DecidableEq, Repr

/-- The value of an expression of type `long`, which has 64 bits. -/
def long (value : Int) : Except Halt Int :=
  if -2 ^ 63 ≤ value ∧ value < 2 ^ 63 then .ok value else .error .overflow

/-- The value of an expression of type `int`, which has 32 bits. -/
def int (value : Int) : Except Halt Int :=
  if -2 ^ 31 ≤ value ∧ value < 2 ^ 31 then .ok value else .error .overflow

/-- The loop of `FloorSqrt` with the arithmetic of the machine. -/
def floorSqrtLoop (number : Int) : Nat → Int → Int → Int → Except Halt Int
  | 0, _, _, _ => .error .running
  | fuel + 1, lo, hi, res =>
      if lo ≤ hi then do
        let sum ← long (lo + hi)
        let mid := sum.tdiv 2
        let sq ← long (mid * mid)
        if sq < number then do
          let above ← long (mid + 1)
          floorSqrtLoop number fuel above hi mid
        else if sq = number then
          .ok mid
        else do
          let below ← long (mid - 1)
          floorSqrtLoop number fuel lo below res
      else .ok res

def floorSqrt (fuel : Nat) (number : Int) : Except Halt Int := floorSqrtLoop number fuel 1 number 0

/-- The loop of `IsPrime` with the arithmetic of the machine. -/
def isPrimeLoop (number sq : Int) : Nat → Int → Int → Except Halt Bool
  | 0, _, _ => .error .running
  | fuel + 1, i, ni =>
      if i ≤ sq then
        if number.tmod i = 0 then .ok false
        else do
          let next ← long (i + ni)
          let other ← long (6 - ni)
          isPrimeLoop number sq fuel next other
      else .ok true

def isPrime (fuel : Nat) (number : Int) : Except Halt Bool :=
  if number = 1 ∨ number = 2 ∨ number = 3 then .ok true
  else if number.tmod 2 = 0 then .ok false
  else if number.tmod 3 = 0 then .ok false
  else do
    let sq ← floorSqrt fuel number
    isPrimeLoop number sq fuel 5 2

/-- The first loop of `NextPrime`, with the value of `6 * i - 1`. -/
def firstCandidate (n : Int) : Nat → Int → Int → Except Halt Int
  | 0, _, _ => .error .running
  | fuel + 1, i, next =>
      if next < n then do
        let later ← int (i + 1)
        let product ← int (6 * later)
        let candidate ← int (product - 1)
        firstCandidate n fuel later candidate
      else .ok next

/-- The second loop of `NextPrime`; the tests have the fuel `limit`. -/
def nextPrimeLoop (limit : Nat) : Nat → Int → Int → Except Halt Int
  | 0, _, _ => .error .running
  | fuel + 1, next, ni => do
      let prime ← isPrime limit next
      if prime then .ok next
      else do
        let later ← int (next + ni)
        let other ← int (6 - ni)
        nextPrimeLoop limit fuel later other

/-- This is `NextPrime`; each of its loops has the given fuel. -/
def nextPrime (fuel : Nat) (n : Int) : Except Halt Int := do
  let prime ← isPrime fuel n
  if prime then .ok n
  else do
    let i ← int (n.tdiv 6 + 1)
    let product ← int (6 * i)
    let next ← int (product - 1)
    let first ← firstCandidate n fuel i next
    nextPrimeLoop fuel fuel first 2

end Signed

/-- `NextPrime` ends without overflow and returns the least prime from the number on. -/
def FindsNextPrime (n : Int) : Prop :=
  ∃ least : Nat, (∃ limit, ∀ fuel, limit ≤ fuel → Signed.nextPrime fuel n = .ok (least : Int)) ∧
    IsLeast {prime : Nat | prime.Prime ∧ n ≤ prime} least

end SimpleNFast.Rdb
