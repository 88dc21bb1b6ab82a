/-
This file develops the proleptic Gregorian calendar: each date has a successor, and the days before a
date are counted by years and months.
-/

import Mathlib.Tactic

namespace SimpleNFast.Calendar

/-- The months and the days of a month are counted from one. -/
@[ext]
structure Date where
  year : Nat
  month : Nat
  day : Nat
  deriving DecidableEq, Repr

def isLeap (year : Nat) : Bool := year % 4 == 0 && (year % 100 != 0 || year % 400 == 0)

def monthLength (year month : Nat) : Nat :=
  if month = 2 then (if isLeap year then 29 else 28)
  else if month = 4 ∨ month = 6 ∨ month = 9 ∨ month = 11 then 30
  else 31

def yearLength (year : Nat) : Nat := if isLeap year then 366 else 365

namespace Date

/-- The date is one of the calendar. -/
structure Valid (date : Date) : Prop where
  month_pos : 1 ≤ date.month
  month_le : date.month ≤ 12
  day_pos : 1 ≤ date.day
  day_le : date.day ≤ monthLength date.year date.month

instance (date : Date) : Decidable date.Valid :=
  decidable_of_iff (1 ≤ date.month ∧ date.month ≤ 12 ∧ 1 ≤ date.day ∧ date.day ≤ monthLength date.year date.month)
    ⟨fun ⟨first, second, third, fourth⟩ => ⟨first, second, third, fourth⟩,
      fun valid => ⟨valid.month_pos, valid.month_le, valid.day_pos, valid.day_le⟩⟩

/-- The date of the next day. -/
def next (date : Date) : Date :=
  if date.day < monthLength date.year date.month then ⟨date.year, date.month, date.day + 1⟩
  else if date.month < 12 then ⟨date.year, date.month + 1, 1⟩
  else ⟨date.year + 1, 1, 1⟩

/-- The date that many days later. -/
def after (count : Nat) (date : Date) : Date := next^[count] date

/-- Dates are ordered by their years, their months and their days. -/
instance : LT Date where
  lt first second := first.year < second.year ∨ (first.year = second.year ∧
    (first.month < second.month ∨ (first.month = second.month ∧ first.day < second.day)))

theorem lt_iff {first second : Date} : first < second ↔ first.year < second.year ∨ (first.year = second.year ∧
    (first.month < second.month ∨ (first.month = second.month ∧ first.day < second.day))) := Iff.rfl

instance (first second : Date) : Decidable (first < second) :=
  inferInstanceAs (Decidable (first.year < second.year ∨ (first.year = second.year ∧
    (first.month < second.month ∨ (first.month = second.month ∧ first.day < second.day)))))

/-- The days from the start of the year zero up to the date. -/
def daysBefore (date : Date) : Nat :=
  (∑ year ∈ Finset.range date.year, yearLength year) +
    (∑ month ∈ Finset.range (date.month - 1), monthLength date.year (month + 1)) + (date.day - 1)

end Date

section Rules

variable {date first second third : Date} {count : Nat}

theorem monthLength_pos (year month : Nat) : 1 ≤ monthLength year month := by
  unfold monthLength
  split_ifs <;> decide

theorem monthLength_le (year month : Nat) : monthLength year month ≤ 31 := by
  unfold monthLength
  split_ifs <;> decide

theorem sum_monthLength (year : Nat) :
    ∑ month ∈ Finset.range 12, monthLength year (month + 1) = yearLength year := by
  simp only [Finset.sum_range_succ, Finset.sum_range_zero, monthLength, yearLength]
  cases isLeap year <;> rfl

/-- Every fourth year is a leap year but those of the centuries that four does not divide. -/
theorem sum_yearLength (count : Nat) : ∑ year ∈ Finset.range count, yearLength year + (count + 99) / 100 =
    365 * count + (count + 3) / 4 + (count + 399) / 400 := by
  induction count with
  | zero => rfl
  | succ count inductionHypothesis =>
      rw [Finset.sum_range_succ, yearLength]
      by_cases leap : isLeap count = true
      · rw [if_pos leap]
        simp only [isLeap, Bool.and_eq_true, Bool.or_eq_true, beq_iff_eq, bne_iff_ne] at leap
        omega
      · rw [if_neg leap]
        simp only [isLeap, Bool.and_eq_true, Bool.or_eq_true, beq_iff_eq, bne_iff_ne] at leap
        omega

theorem Date.Valid.next (valid : date.Valid) : date.next.Valid := by
  have lower := valid.month_pos
  unfold Date.next
  split_ifs with inside early
  · exact ⟨lower, valid.month_le, Nat.le_add_left 1 _, inside⟩
  · exact ⟨Nat.le_add_left 1 _, early, le_rfl, monthLength_pos _ _⟩
  · exact ⟨le_rfl, Nat.one_le_ofNat, le_rfl, monthLength_pos _ _⟩

theorem Date.after_succ (count : Nat) (date : Date) : date.after (count + 1) = (date.after count).next :=
  Function.iterate_succ_apply' _ _ _

theorem Date.Valid.after (valid : date.Valid) (count : Nat) : (date.after count).Valid := by
  induction count with
  | zero => exact valid
  | succ count inductionHypothesis =>
      rw [Date.after_succ]
      exact inductionHypothesis.next

/-- One more day lies before the next date. -/
theorem Date.Valid.daysBefore_next (valid : date.Valid) : date.next.daysBefore = date.daysBefore + 1 := by
  have monthPos := valid.month_pos
  have monthLe := valid.month_le
  have dayPos := valid.day_pos
  have dayLe := valid.day_le
  have month : date.month - 1 + 1 = date.month := by omega
  unfold Date.next Date.daysBefore
  split_ifs with inside early
  · dsimp only
    omega
  · have last : date.day = monthLength date.year date.month := by omega
    dsimp only
    rw [Nat.add_sub_cancel, ← month, Finset.sum_range_succ, month, Nat.sub_self]
    omega
  · have last : date.day = monthLength date.year date.month := by omega
    have twelve : date.month = 12 := by omega
    have months := sum_monthLength date.year
    rw [Finset.sum_range_succ] at months
    rw [twelve] at last dayLe
    rw [twelve, Finset.sum_range_succ]
    simp only [Nat.sub_self, Finset.sum_range_zero, Nat.reduceSub, Nat.reduceAdd] at months ⊢
    omega

theorem Date.Valid.daysBefore_after (valid : date.Valid) (count : Nat) :
    (date.after count).daysBefore = date.daysBefore + count := by
  induction count with
  | zero => rfl
  | succ count inductionHypothesis =>
      rw [Date.after_succ, (valid.after count).daysBefore_next, inductionHypothesis, Nat.add_assoc]

/-- The days of the years before lie before the date. -/
theorem Date.sum_le_daysBefore {year : Nat} (reached : year ≤ date.year) :
    ∑ index ∈ Finset.range year, yearLength index ≤ date.daysBefore := by
  have years := Finset.sum_le_sum_of_subset (f := yearLength) (Finset.range_subset_range.2 reached)
  unfold Date.daysBefore
  omega

/-- A date lies before the end of its year. -/
theorem Date.Valid.daysBefore_lt (valid : date.Valid) :
    date.daysBefore < ∑ index ∈ Finset.range (date.year + 1), yearLength index := by
  have monthPos := valid.month_pos
  have dayLe := valid.day_le
  have lengthPos := monthLength_pos date.year date.month
  have months : ∑ month ∈ Finset.range (date.month - 1 + 1), monthLength date.year (month + 1) ≤
      ∑ month ∈ Finset.range 12, monthLength date.year (month + 1) := by
    apply Finset.sum_le_sum_of_subset
    rw [Nat.sub_add_cancel monthPos]
    exact Finset.range_subset_range.2 valid.month_le
  rw [Finset.sum_range_succ, Nat.sub_add_cancel monthPos, sum_monthLength] at months
  rw [Finset.sum_range_succ, Date.daysBefore]
  omega

theorem Date.lt_trans (before : first < second) (behind : second < third) : first < third := by
  rw [Date.lt_iff] at *
  omega

theorem Date.lt_of_not_lt (other : first ≠ second) (notBefore : ¬second < first) : first < second := by
  rw [Ne, Date.ext_iff] at other
  rw [Date.lt_iff] at notBefore ⊢
  omega

theorem Date.not_lt_trans (notBefore : ¬second < first) (notBehind : ¬third < second) : ¬third < first := by
  rw [Date.lt_iff] at *
  omega

theorem Date.lt_irrefl (date : Date) : ¬date < date := by
  rw [Date.lt_iff]
  omega

theorem Date.lt_next (valid : date.Valid) : date < date.next := by
  have lower := valid.month_pos
  rw [Date.lt_iff]
  unfold Date.next
  split_ifs <;> dsimp only <;> omega

/-- The years of a later date are not smaller. -/
theorem Date.year_le_after (valid : date.Valid) (count : Nat) : date.year ≤ (date.after count).year := by
  induction count with
  | zero => exact le_rfl
  | succ count inductionHypothesis =>
      have step := Date.lt_next (valid.after count)
      rw [Date.lt_iff, ← Date.after_succ] at step
      omega

end Rules

end SimpleNFast.Calendar
