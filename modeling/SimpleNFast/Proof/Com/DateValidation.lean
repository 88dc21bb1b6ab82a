import SimpleNFast.Construction.Com.TimeUtil
import SimpleNFast.Proof.Com.TimeUtil

set_option maxRecDepth 100000

namespace SimpleNFast.Com

open Http (Fault)

/-- The result is the only accepted value, or there is none and the argument was invalid. -/
def Judges {value : Type} (result : Except Fault value) (accepts : value → Prop) : Prop :=
  match result with
  | .ok found => ∀ other, accepts other ↔ other = found
  | .error fault => (∃ what, fault = .invalidArgument what) ∧ ∀ other, ¬accepts other

namespace Judges

variable {first second : Type} {result : Except Fault first} {next : first → Except Fault second}
  {reads : first → Prop} {accepts : second → Prop}

/-- What the first part reads is a part of the accepted value. -/
theorem bind (part : second → first) (judges : Judges result reads)
    (needs : ∀ value, accepts value → reads (part value))
    (after : ∀ value, reads value → Judges (next value) fun whole => accepts whole ∧ part whole = value) :
    Judges (result >>= next) accepts := by
  cases result with
  | error fault => exact ⟨judges.1, fun value accepted => judges.2 _ (needs value accepted)⟩
  | ok found =>
      have read := (judges found).2 rfl
      have same : accepts = fun whole => accepts whole ∧ part whole = found := by
        funext whole
        rw [eq_iff_iff]
        exact ⟨fun accepted => ⟨accepted, (judges _).1 (needs whole accepted)⟩, And.left⟩
      rw [same]
      exact after found read

theorem guard {condition : Prop} [Decidable condition] {rest : Except Fault second}
    (bad : condition → ∀ value, ¬accepts value) (good : ¬condition → Judges rest accepts) :
    Judges (if condition then .error Http.DateTime.invalid else rest) accepts := by
  split
  · rename_i wrong
    exact ⟨⟨_, rfl⟩, bad wrong⟩
  · rename_i right
    exact good right

end Judges

/-- A number of a few digits is small. -/
theorem number_lt_of_length {word : Text} (digits : ∀ char ∈ word, isDigit (toInt char) = true) :
    number 10 word < 10 ^ word.length := by
  induction word using List.reverseRecOn with
  | nil => decide
  | append_singleton word char inductionHypothesis =>
      have below := inductionHypothesis fun other member => digits other (List.mem_append_left _ member)
      have last : ∀ octet, isDigit (toInt octet) = true → digitValue (toInt octet) ≤ 9 := by
        apply octet_forall
        decide
      have small := last char (digits char (by simp))
      rw [number] at below ⊢
      rw [List.foldl_append, List.foldl_cons, List.foldl_nil, List.length_append, List.length_singleton, pow_succ]
      omega

/-- The number at the start of a short word fits. -/
theorem stoi_error {word : Text} (short : word.length ≤ 4) {fault : Fault} (read : Http.stoi word = .error fault) :
    fault = .invalidArgument (text "stoi") := by
  unfold Http.stoi at read
  extract_lets rest negative unsigned found value at read
  have restLength : rest.length ≤ word.length := (List.dropWhile_sublist _).length_le
  have unsignedLength : unsigned.length ≤ rest.length := by
    unfold unsigned
    split
    · exact (List.drop_sublist 1 rest).length_le
    · exact le_rfl
  have foundLength : found.length ≤ unsigned.length := (List.takeWhile_sublist _).length_le
  have digits : ∀ char ∈ found, isDigit (toInt char) = true := by
    intro char member
    exact List.mem_takeWhile_imp (p := isDigit ∘ toInt) member
  have below := number_lt_of_length digits
  have most : 10 ^ found.length ≤ 10 ^ 4 := Nat.pow_le_pow_right (by decide) (by omega)
  have bounded : -10 ^ 4 < value ∧ value < 10 ^ 4 := by
    unfold value
    split <;> omega
  split at read
  · exact (Except.error.inj read).symm
  · rw [if_neg (by omega)] at read
    cases read

/-- A short word that is not a number is an invalid argument. -/
theorem judges_stoi {word : Text} (short : word.length ≤ 4) :
    Judges (Http.stoi word) fun value => Http.stoi word = .ok value := by
  cases read : Http.stoi word with
  | ok found =>
      intro other
      exact ⟨fun same => (Except.ok.inj same).symm, fun same => congrArg Except.ok same.symm⟩
  | error fault =>
      refine ⟨⟨_, stoi_error short read⟩, ?_⟩
      intro other same
      cases same

theorem judges_field {string : Text} {position count : Nat} {low high : Int} {after : Char} (short : count ≤ 4)
    (reached : position ≤ string.length) :
    Judges (Http.DateTime.field string position count low high after)
      (Column string position count low high after) := by
  have cut : Http.DateTime.substr string position count = .ok ((string.drop position).take count) :=
    if_neg (not_lt.2 reached)
  have wordLength : ((string.drop position).take count).length ≤ 4 := (List.length_take_le _ _).trans short
  rw [Http.DateTime.field, cut]
  apply Judges.bind id (judges_stoi wordLength)
  · exact fun value column => column.number
  intro value read
  change Judges (if _ then .error Http.DateTime.invalid else .ok value) _
  apply Judges.guard
  · rintro wrong whole ⟨column, rfl⟩
    simp only [Bool.or_eq_true, decide_eq_true_eq, bne_iff_ne] at wrong
    rcases wrong with (small | large) | other
    · exact absurd column.lower (not_le.2 small)
    · exact absurd column.upper (not_le.2 large)
    · exact other column.behind
  · intro right whole
    simp only [Bool.or_eq_true, decide_eq_true_eq, bne_iff_ne, not_or, not_lt, not_not] at right
    constructor
    · exact And.right
    · rintro rfl
      exact ⟨⟨read, right.1.1, right.1.2, right.2⟩, rfl⟩

/-- A character that is not the terminator stands inside of the string. -/
theorem lt_length_of_getD {string : Text} {position : Nat} {char : UInt8} (found : string.getD position 0 = char)
    (visible : char ≠ 0) : position < string.length := by
  by_contra behind
  rw [List.getD_eq_getElem?_getD, List.getElem?_eq_none (not_lt.1 behind)] at found
  exact visible found.symm

theorem Column.lt_length {string : Text} {position count : Nat} {low high value : Int} {after : Char}
    (column : Column string position count low high after value) (visible : byte after ≠ 0) :
    position + count < string.length := lt_length_of_getD column.behind visible

/-- The name at the column is the only one that is accepted. -/
theorem idxOf_eq {names : List Text} (distinct : names.Nodup) {word : Text} {index : Nat} :
    names[index]? = some word ↔ word ∈ names ∧ index = names.idxOf word := by
  constructor
  · intro found
    obtain ⟨inside, rfl⟩ := List.getElem?_eq_some_iff.1 found
    exact ⟨List.getElem_mem inside, (distinct.idxOf_getElem index inside).symm⟩
  · rintro ⟨member, rfl⟩
    exact List.getElem?_idxOf member

/-- The reading of the text returns the fields of its columns or reports an invalid argument. -/
theorem judges_get (string : Text) : Judges (Http.DateTime.get string) (Columns string) := by
  have cut : ∀ position count, position ≤ string.length →
      Http.DateTime.substr string position count = .ok ((string.drop position).take count) :=
    fun position count reached => if_neg (not_lt.2 reached)
  have daysDistinct : Http.DateTime.days.Nodup := by decide
  have monthsDistinct : Http.DateTime.months.Nodup := by decide
  rw [Http.DateTime.get, cut 0 3 (Nat.zero_le _)]
  change Judges (if _ then .error Http.DateTime.invalid else _) _
  apply Judges.guard
  · intro wrong fields columns
    have known := (idxOf_eq daysDistinct).1 columns.weekday
    simp only [Bool.or_eq_true, decide_eq_true_eq, bne_iff_ne] at wrong
    rcases wrong with (unknown | other) | other
    · exact absurd (List.idxOf_lt_length_iff.2 known.1) unknown.not_lt
    · exact other columns.comma
    · exact other columns.blank
  intro begins
  simp only [Bool.or_eq_true, decide_eq_true_eq, bne_iff_ne, not_or, not_not] at begins
  have reached := lt_length_of_getD begins.2 (by decide)
  have weekday : Http.DateTime.days[Http.DateTime.days.idxOf (string.take 3)]? = some (string.take 3) :=
    List.getElem?_idxOf (by
      by_contra unknown
      exact begins.1.1 (List.idxOf_eq_length_iff.2 unknown))
  apply Judges.bind Http.DateTime.day (judges_field (by decide) reached)
  · exact fun fields columns => columns.day
  intro day dayColumn
  have behindDay := dayColumn.lt_length (by decide)
  rw [cut 8 3 behindDay]
  change Judges (if _ then .error Http.DateTime.invalid else _) _
  apply Judges.guard
  · rintro wrong fields ⟨columns, -⟩
    have known := (idxOf_eq monthsDistinct).1 columns.month
    simp only [Bool.or_eq_true, decide_eq_true_eq, bne_iff_ne] at wrong
    rcases wrong with unknown | other
    · exact absurd (List.idxOf_lt_length_iff.2 known.1) unknown.not_lt
    · exact other columns.space
  intro named
  simp only [Bool.or_eq_true, decide_eq_true_eq, bne_iff_ne, not_or, not_not] at named
  have behindMonth := lt_length_of_getD named.2 (by decide)
  have month : Http.DateTime.months[Http.DateTime.months.idxOf ((string.drop 8).take 3)]? =
      some ((string.drop 8).take 3) :=
    List.getElem?_idxOf (by
      by_contra unknown
      exact named.1 (List.idxOf_eq_length_iff.2 unknown))
  apply Judges.bind Http.DateTime.year (judges_field (by decide) behindMonth)
  · exact fun fields accepted => accepted.1.year
  intro year yearColumn
  apply Judges.bind Http.DateTime.hour (judges_field (by decide) (yearColumn.lt_length (by decide)))
  · exact fun fields accepted => accepted.1.1.hour
  intro hour hourColumn
  apply Judges.bind Http.DateTime.minute (judges_field (by decide) (hourColumn.lt_length (by decide)))
  · exact fun fields accepted => accepted.1.1.1.minute
  intro minute minuteColumn
  apply Judges.bind Http.DateTime.second (judges_field (by decide) (minuteColumn.lt_length (by decide)))
  · exact fun fields accepted => accepted.1.1.1.1.second
  intro second secondColumn
  rw [cut 26 3 (secondColumn.lt_length (by decide))]
  change Judges (if _ then .error Http.DateTime.invalid else .ok _) _
  apply Judges.guard
  · rintro wrong fields accepted
    exact wrong accepted.1.1.1.1.1.zone
  intro zone fields
  constructor
  · rintro ⟨⟨⟨⟨⟨columns, rfl⟩, rfl⟩, rfl⟩, rfl⟩, rfl⟩
    have first := ((idxOf_eq daysDistinct).1 columns.weekday).2
    have second := ((idxOf_eq monthsDistinct).1 columns.month).2
    cases fields with
    | mk dayOfWeek day month year hour minute seconds =>
        obtain rfl : dayOfWeek = _ := first
        obtain rfl : month = _ := second
        rfl
  · rintro rfl
    exact ⟨⟨⟨⟨⟨⟨weekday, begins.1.2, begins.2, dayColumn, month, named.2, yearColumn, hourColumn, minuteColumn,
      secondColumn, not_not.1 zone⟩, rfl⟩, rfl⟩, rfl⟩, rfl⟩, rfl⟩

theorem rejected_of_error {string : Text} {fault : Fault} (read : Http.DateTime.get string = .error fault)
    (kind : ∃ what, fault = .invalidArgument what) : Rejected string := by
  intro system utc
  obtain ⟨what, rfl⟩ := kind
  refine ⟨what, ?_⟩
  rw [Datetime.get, read]
  rfl

theorem not_rejected_of_ok {string : Text} {fields : Http.DateTime} (read : Http.DateTime.get string = .ok fields) :
    ¬Rejected string := by
  intro rejected
  obtain ⟨what, failed⟩ := rejected quietSystem true
  rw [get_imf read] at failed
  cases failed

/-- Exactly the texts without the columns of a date are rejected. -/
theorem rejected_iff (string : Text) : Rejected string ↔ ¬∃ fields, Columns string fields := by
  have judges := judges_get string
  cases read : Http.DateTime.get string with
  | error fault =>
      rw [read] at judges
      exact iff_of_true (rejected_of_error read judges.1) fun ⟨fields, columns⟩ => judges.2 fields columns
  | ok fields =>
      rw [read] at judges
      exact iff_of_false (not_rejected_of_ok read) fun none => none ⟨fields, (judges fields).2 rfl⟩

namespace Moment

variable (moment : Moment)

def fields : Http.DateTime := ⟨((4 + dayNumber moment.date) % 7).toNat, moment.date.day, moment.date.month - 1,
  moment.date.year, moment.hour, moment.minute, moment.second⟩

theorem fields_inRange : moment.fields.InRange := by
  have valid := moment.valid
  have monthPos := valid.month_pos
  have monthLe := valid.month_le
  have dayPos := valid.day_pos
  have dayLe := valid.day_le.trans (Calendar.monthLength_le _ _)
  have early := moment.early
  have hour := moment.hour_lt
  have minute := moment.minute_lt
  have second := moment.second_lt
  constructor <;> simp only [fields] <;> omega

theorem get_fixdate : Http.DateTime.get moment.fixdate = .ok moment.fields :=
  Http.DateTime.get_str moment.fields_inRange

/-- From 1970 on the sums over the years and months are the seconds of the moment. -/
theorem secondsOf_fields (late : 1970 ≤ moment.date.year) (start : Datetime) :
    Datetime.secondsOf (Datetime.ofFields moment.fields start).tm = moment.epoch := by
  have monthPos := moment.valid.month_pos
  have hour := moment.hour_lt
  have minute := moment.minute_lt
  have second := moment.second_lt
  have whole := secondsOf_date moment.valid late (3600 * moment.hour + 60 * moment.minute + moment.second)
    (moment.fields.dayOfWeek : Int)
  have seconds : (3600 * moment.hour + 60 * moment.minute + moment.second) % 60 = moment.second := by omega
  have minutes : (3600 * moment.hour + 60 * moment.minute + moment.second) / 60 % 60 = moment.minute := by omega
  have hours : (3600 * moment.hour + 60 * moment.minute + moment.second) / 3600 = moment.hour := by omega
  have month : ((moment.date.month - 1 : Nat) : Int) + 1 - 1 = (moment.date.month : Int) - 1 := by omega
  rw [seconds, minutes, hours] at whole
  simp only [Datetime.ofFields, fields, Datetime.setSecond, Datetime.setMinute, Datetime.setHour, Datetime.setYear,
    Datetime.setMonth, Datetime.setDay, Datetime.setDayOfWeek, month] at whole ⊢
  rw [whole, epoch, dayNumber, secondsInHour, secondsInMinute]
  push_cast
  omega

theorem dayNumber_neg (early : moment.date.year < 1970) : dayNumber moment.date < 0 := by
  have below := moment.valid.daysBefore_lt
  have years := Finset.sum_le_sum_of_subset (f := Calendar.yearLength)
    (Finset.range_subset_range.2 (show moment.date.year + 1 ≤ 1970 by omega))
  have first : firstDay.daysBefore = ∑ year ∈ Finset.range 1970, Calendar.yearLength year := by
    simp [Calendar.Date.daysBefore, firstDay]
  rw [dayNumber, first]
  generalize ∑ year ∈ Finset.range 1970, Calendar.yearLength year = start at *
  omega

theorem secondsInMonth_nonneg (month : Nat) (leapYear : Bool) : 0 ≤ secondsInMonth month leapYear := by
  have days : 0 ≤ daysInMonth.getD month 0 := by
    rw [List.getD_eq_getElem?_getD]
    cases found : daysInMonth[month]? with
    | none => exact le_rfl
    | some days =>
        have all : ∀ days ∈ daysInMonth, 0 ≤ days := by decide
        exact all days (List.mem_of_getElem? found)
  rw [secondsInMonth, secondsInDay]
  split <;> omega

/-- Before 1970 there is no year to add. -/
theorem secondsOf_nonneg {tm : Tm} (early : tm.year < 70) (day : 1 ≤ tm.mday) (hour : 0 ≤ tm.hour)
    (minute : 0 ≤ tm.min) (second : 0 ≤ tm.sec) : 0 ≤ Datetime.secondsOf tm := by
  have noYears : (tm.year + 1900 - 1970).toNat = 0 := by omega
  have positive : (0 : Int) ≤ ((List.range tm.mon.toNat).map fun month =>
      secondsInMonth month (isLeapYear (tm.year + 1900))).sum := by
    apply List.sum_nonneg
    intro seconds member
    obtain ⟨month, -, rfl⟩ := List.mem_map.1 member
    exact secondsInMonth_nonneg month _
  simp only [Datetime.secondsOf, noYears, List.range_zero, List.map_nil, List.sum_nil, secondsInDay, secondsInHour,
    secondsInMinute]
  omega

/-- Before 1970 the sums are not negative but the seconds of the moment are. -/
theorem secondsOf_fields_early (early : moment.date.year < 1970) (start : Datetime) :
    Datetime.secondsOf (Datetime.ofFields moment.fields start).tm ≠ moment.epoch := by
  have dayPos := moment.valid.day_pos
  have negative := moment.dayNumber_neg early
  have hour := moment.hour_lt
  have minute := moment.minute_lt
  have second := moment.second_lt
  have before : moment.epoch < 0 := by
    rw [epoch, secondsInDay, secondsInHour, secondsInMinute]
    omega
  have positive : 0 ≤ Datetime.secondsOf (Datetime.ofFields moment.fields start).tm := by
    apply secondsOf_nonneg <;> simp only [Datetime.ofFields, fields, Datetime.setSecond, Datetime.setMinute,
      Datetime.setHour, Datetime.setYear, Datetime.setMonth, Datetime.setDay, Datetime.setDayOfWeek] <;> omega
  exact (before.trans_le positive).ne'

end Moment

/-- Without the milliseconds exactly the complete dates from 1970 on are validated. -/
theorem validatedSeconds_iff (string : Text) : ValidatedSeconds string ↔
    (¬∃ fields, Columns string fields) ∨ ∃ moment : Moment, string = moment.fixdate ∧ 1970 ≤ moment.date.year := by
  rw [← rejected_iff]
  constructor
  · rintro (rejected | ⟨moment, rfl, tm, returned⟩)
    · exact Or.inl rejected
    · refine Or.inr ⟨moment, rfl, ?_⟩
      by_contra early
      obtain ⟨time, read, -, seconds⟩ := returned quietSystem true
      rw [get_imf moment.get_fixdate] at read
      rw [← Except.ok.inj read] at seconds
      dsimp only at seconds
      exact moment.secondsOf_fields_early (by omega) (Datetime.now quietSystem true) seconds
  · rintro (rejected | ⟨moment, same, late⟩)
    · exact Or.inl rejected
    · refine Or.inr ⟨moment, same, (Datetime.ofFields moment.fields (Datetime.now quietSystem true)).tm, ?_⟩
      intro system utc
      rw [same]
      exact ⟨_, get_imf moment.get_fixdate utc, rfl, moment.secondsOf_fields late (Datetime.now system true)⟩

end SimpleNFast.Com
