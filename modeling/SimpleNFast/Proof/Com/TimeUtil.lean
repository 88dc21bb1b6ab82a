import SimpleNFast.Construction.Com.TimeUtil
import SimpleNFast.Proof.Http.UriHosts

namespace SimpleNFast.Http.DateTime

section Numbers

variable {width value : Nat}

theorem padded_natCast (width value : Nat) :
    padded width value = List.replicate (width - (digits 10 value).length) (byte '0') ++ digits 10 value := by
  have printed : decimal value = digits 10 value := if_neg (by omega)
  rw [padded, printed]

theorem padded_length (positive : 0 < width) (bound : value < 10 ^ width) : (padded width value).length = width := by
  have short := digits_length_le positive bound
  rw [padded_natCast, List.length_append, List.length_replicate]
  omega

theorem isDigit_padded : ∀ char ∈ padded width value, isDigit (toInt char) = true := by
  intro char member
  rw [padded_natCast] at member
  rcases List.mem_append.1 member with zero | digit
  · rw [List.eq_of_mem_replicate zero]
    rfl
  · exact isDigit_digits value char digit

theorem number_padded : number 10 (padded width value) = value := by
  have zeros : ∀ count, number 10 (List.replicate count (byte '0') ++ digits 10 value) = value := by
    intro count
    induction count with
    | zero => exact number_digits value
    | succ count inductionHypothesis => exact inductionHypothesis
  rw [padded_natCast]
  exact zeros _

theorem stoi_padded (bound : value < 2 ^ 31) : stoi (padded width value) = .ok (value : Int) := by
  have filled : padded width value ≠ [] := by
    rw [padded_natCast]
    exact List.append_ne_nil_of_right_ne_nil _ (digits_ne_nil value)
  rw [stoi_all filled isDigit_padded, number_padded, if_pos bound]

end Numbers

/-- This text stands at the column up to the end of the string. -/
def Stands (string : Text) (position : Nat) (rest : Text) : Prop :=
  ∃ before, string = before ++ rest ∧ before.length = position

namespace Stands

variable {string word rest : Text} {char : UInt8} {position width value : Nat} {after : Char}

theorem start (string : Text) : Stands string 0 string := ⟨[], rfl, rfl⟩

theorem skip (stands : Stands string position (word ++ rest)) (count : word.length = width) :
    Stands string (position + width) rest := by
  obtain ⟨before, split, place⟩ := stands
  refine ⟨before ++ word, ?_, ?_⟩
  · rw [split, List.append_assoc]
  · rw [List.length_append, place, count]

theorem tail (stands : Stands string position (char :: rest)) : Stands string (position + 1) rest := by
  rw [← List.singleton_append] at stands
  exact stands.skip rfl

theorem substr (stands : Stands string position (word ++ rest)) (count : word.length = width) :
    substr string position width = .ok word := by
  obtain ⟨before, rfl, rfl⟩ := stands
  subst count
  rw [DateTime.substr, if_neg (by simp), List.drop_left, List.take_left]

theorem getD (stands : Stands string position (char :: rest)) : string.getD position 0 = char := by
  obtain ⟨before, rfl, rfl⟩ := stands
  simp

/-- A number that was printed with its width is read at its column. -/
theorem field (stands : Stands string position (padded width value ++ byte after :: rest)) (low high : Int)
    (positive : 0 < width) (bound : value < 10 ^ width) (fits : value < 2 ^ 31) (lower : low ≤ value)
    (upper : value ≤ high) :
    field string position width low high after = .ok (value : Int) ∧ Stands string (position + width + 1) rest := by
  have length := padded_length positive bound
  have behind := stands.skip length
  refine ⟨?_, behind.tail⟩
  rw [DateTime.field, stands.substr length]
  change (stoi (padded width value) >>= _) = _
  rw [stoi_padded fits]
  change (if _ then _ else _) = _
  rw [if_neg]
  · rfl
  · rw [behind.getD]
    simp [lower, upper]

end Stands

theorem days_name : ∀ index < 7, (days.getD index []).length = 3 ∧ days.idxOf (days.getD index []) = index := by
  decide

theorem months_name : ∀ index < 12,
    (months.getD index []).length = 3 ∧ months.idxOf (months.getD index []) = index := by
  decide

/-- The fields that every date of the calendar has. -/
structure InRange (fields : DateTime) : Prop where
  dayOfWeek : fields.dayOfWeek < 7
  day : 1 ≤ fields.day ∧ fields.day ≤ 31
  month : fields.month < 12
  year : 0 ≤ fields.year ∧ fields.year ≤ 9999
  hour : 0 ≤ fields.hour ∧ fields.hour ≤ 23
  minute : 0 ≤ fields.minute ∧ fields.minute ≤ 59
  second : 0 ≤ fields.second ∧ fields.second ≤ 59

/-- The printed date is read with its fields. -/
theorem get_str {fields : DateTime} (inRange : InRange fields) : get fields.str = .ok fields := by
  obtain ⟨dayOfWeek, day, month, year, hour, minute, second⟩ := fields
  obtain ⟨weekdaySmall, dayRange, monthSmall, yearRange, hourRange, minuteRange, secondRange⟩ := inRange
  dsimp only at *
  lift day to Nat using by omega
  lift year to Nat using yearRange.1
  lift hour to Nat using hourRange.1
  lift minute to Nat using minuteRange.1
  lift second to Nat using secondRange.1
  obtain ⟨weekdayLength, weekdayIndex⟩ := days_name dayOfWeek weekdaySmall
  obtain ⟨monthLength, monthIndex⟩ := months_name month monthSmall
  have weekday : Stands (str ⟨dayOfWeek, day, month, year, hour, minute, second⟩) 0
      (days.getD dayOfWeek [] ++ byte ',' :: byte ' ' :: (padded 2 day ++ byte ' ' :: (months.getD month [] ++
        byte ' ' :: (padded 4 year ++ byte ' ' :: (padded 2 hour ++ byte ':' :: (padded 2 minute ++
          byte ':' :: (padded 2 second ++ byte ' ' :: (text "GMT" ++ []))))))) ) := by
    refine ⟨[], ?_, rfl⟩
    have comma : text ", " = [byte ',', byte ' '] := rfl
    have zone : text " GMT" = byte ' ' :: text "GMT" := rfl
    simp only [str, comma, zone, List.append_assoc, List.cons_append, List.nil_append, List.append_nil]
  generalize str ⟨dayOfWeek, day, month, year, hour, minute, second⟩ = string at weekday ⊢
  have comma := weekday.skip weekdayLength
  have blank := comma.tail
  obtain ⟨readDay, name⟩ := blank.tail.field 1 31 (by decide) (by omega) (by omega) (by omega)
    (by omega)
  have space := name.skip monthLength
  obtain ⟨readYear, clock⟩ := space.tail.field 0 9999 (by decide) (by omega) (by omega) (by omega)
    (by omega)
  obtain ⟨readHour, minutes⟩ := clock.field 0 23 (by decide) (by omega) (by omega) (by omega)
    (by omega)
  obtain ⟨readMinute, seconds⟩ := minutes.field 0 59 (by decide) (by omega) (by omega) (by omega)
    (by omega)
  obtain ⟨readSecond, zone⟩ := seconds.field 0 59 (by decide) (by omega) (by omega) (by omega)
    (by omega)
  have readZone : substr string 26 3 = .ok (text "GMT") := zone.substr rfl
  have known : dayOfWeek ≠ days.length := weekdaySmall.ne
  have knownMonth : month ≠ months.length := monthSmall.ne
  simp only [get, weekday.substr weekdayLength, name.substr monthLength, readZone, weekdayIndex,
    monthIndex, comma.getD, blank.getD, space.getD, readDay, readYear, readHour, readMinute, readSecond,
    Bind.bind, Except.bind]
  simp [known, knownMonth, Pure.pure, Except.pure]

end SimpleNFast.Http.DateTime

namespace SimpleNFast.Com

open Calendar (Date)

theorem isLeapYear_natCast (year : Nat) : isLeapYear year = Calendar.isLeap year := by
  have four : (year : Int).tmod 4 = (year % 4 : Nat) := (Int.ofNat_tmod _ _).symm
  have hundred : (year : Int).tmod 100 = (year % 100 : Nat) := (Int.ofNat_tmod _ _).symm
  have fourHundred : (year : Int).tmod 400 = (year % 400 : Nat) := (Int.ofNat_tmod _ _).symm
  rw [isLeapYear, Calendar.isLeap, four, hundred, fourHundred, Bool.eq_iff_iff]
  split_ifs <;> simp <;> omega

theorem secondsInYear_natCast (year : Nat) :
    secondsInYear (isLeapYear year) = secondsInDay * (Calendar.yearLength year : Nat) := by
  rw [isLeapYear_natCast, secondsInYear, Calendar.yearLength]
  cases Calendar.isLeap year <;> rfl

theorem secondsInMonth_natCast (year : Nat) {month : Nat} (small : month < 12) :
    secondsInMonth month (isLeapYear year) = secondsInDay * (Calendar.monthLength year (month + 1) : Nat) := by
  rw [isLeapYear_natCast, secondsInMonth, Calendar.monthLength]
  cases Calendar.isLeap year <;> interval_cases month <;> rfl

theorem sum_map_range {summand : Nat → Int} (count : Nat) :
    ((List.range count).map summand).sum = ∑ index ∈ Finset.range count, summand index := rfl

theorem firstDay_valid : firstDay.Valid := by decide

/-- The sums over the years and the months are the days before the date. -/
theorem secondsOf_date {date : Date} (valid : date.Valid) (late : 1970 ≤ date.year) (second : Nat) (wday : Int) :
    Datetime.secondsOf ⟨(second % 60 : Nat), (second / 60 % 60 : Nat), (second / 3600 : Nat), date.day,
      (date.month : Int) - 1, (date.year : Int) - 1900, wday⟩ =
      secondsInDay * ((date.daysBefore : Int) - firstDay.daysBefore) + second := by
  have monthPos := valid.month_pos
  have monthLe := valid.month_le
  have dayPos := valid.day_pos
  have year : (date.year : Int) - 1900 + 1900 = date.year := by omega
  have years : ((date.year : Int) - 1970).toNat = date.year - 1970 := by omega
  have months : ((date.month : Int) - 1).toNat = date.month - 1 := by omega
  have yearSum : ∑ index ∈ Finset.range (date.year - 1970), secondsInYear (isLeapYear (1970 + (index : Int))) =
      secondsInDay * ((∑ year ∈ Finset.range date.year, Calendar.yearLength year : Nat) -
        (∑ year ∈ Finset.range 1970, Calendar.yearLength year : Nat) : Int) := by
    have split : date.year = 1970 + (date.year - 1970) := by omega
    nth_rewrite 2 [split]
    rw [Finset.sum_range_add, Nat.cast_add, add_sub_cancel_left, Nat.cast_sum, Finset.mul_sum]
    apply Finset.sum_congr rfl
    intro index member
    rw [← secondsInYear_natCast, Nat.cast_add]
    rfl
  have monthSum : ∑ month ∈ Finset.range (date.month - 1), secondsInMonth month (isLeapYear (date.year : Int)) =
      secondsInDay * (∑ month ∈ Finset.range (date.month - 1), Calendar.monthLength date.year (month + 1) : Nat) := by
    rw [Nat.cast_sum, Finset.mul_sum]
    apply Finset.sum_congr rfl
    intro month member
    have inside := Finset.mem_range.1 member
    exact secondsInMonth_natCast date.year (by omega)
  have first : firstDay.daysBefore = ∑ year ∈ Finset.range 1970, Calendar.yearLength year := by
    simp [Date.daysBefore, firstDay]
  simp only [Datetime.secondsOf, year, years, months, sum_map_range, yearSum, monthSum]
  rw [first, Date.daysBefore]
  push_cast [dayPos]
  unfold secondsInDay secondsInHour secondsInMinute
  generalize (∑ year ∈ Finset.range 1970, (Calendar.yearLength year : Int)) = start
  generalize (∑ year ∈ Finset.range date.year, (Calendar.yearLength year : Int)) = yearDays
  generalize (∑ month ∈ Finset.range (date.month - 1), (Calendar.monthLength date.year (month + 1) : Int)) = monthDays
  omega

theorem secondsOf_tmOf (day second : Nat) :
    Datetime.secondsOf (tmOf day second) = secondsInDay * day + second := by
  have valid := firstDay_valid.after day
  have late := Date.year_le_after firstDay_valid day
  rw [tmOf, secondsOf_date valid late, firstDay_valid.daysBefore_after, Nat.cast_add, add_sub_cancel_left]

/-- The last second of the year 9999 comes before the year 10000. -/
theorem year_le_of_epoch {epoch : Nat} (finish : epoch ≤ 253402300799) :
    (firstDay.after (epoch / 86400)).year ≤ 9999 := by
  by_contra late
  have reached := Date.sum_le_daysBefore (not_le.1 late)
  have first : firstDay.daysBefore = ∑ year ∈ Finset.range 1970, Calendar.yearLength year := by
    simp [Date.daysBefore, firstDay]
  have tenThousand := Calendar.sum_yearLength 10000
  have start := Calendar.sum_yearLength 1970
  rw [firstDay_valid.daysBefore_after, first] at reached
  change ∑ year ∈ Finset.range 10000, _ ≤ _ at reached
  generalize ∑ year ∈ Finset.range 10000, Calendar.yearLength year = years at *
  generalize ∑ year ∈ Finset.range 1970, Calendar.yearLength year = before at *
  omega

section RoundTrip

variable {system later : System} {day second : Nat} {time : Datetime}

/-- The fields of a time of the calendar are in their ranges. -/
theorem fields_inRange (fieldsOf : time.tm = tmOf day second) (early : (firstDay.after day).year ≤ 9999)
    (within : second < 86400) : time.fields.InRange := by
  have valid := firstDay_valid.after day
  have monthPos := valid.month_pos
  have monthLe := valid.month_le
  have dayPos := valid.day_pos
  have dayLe := valid.day_le.trans (Calendar.monthLength_le _ _)
  constructor <;> simp only [Datetime.fields, fieldsOf, tmOf] <;> omega

theorem ofFields_fields (fieldsOf : time.tm = tmOf day second) (start : Datetime) :
    (Datetime.ofFields time.fields start).tm = tmOf day second := by
  have monthPos := (firstDay_valid.after day).month_pos
  have month : (((firstDay.after day).month : Int) - 1).toNat = (firstDay.after day).month - 1 := by omega
  simp only [Datetime.ofFields, Datetime.fields, fieldsOf, tmOf, Datetime.setSecond, Datetime.setMinute,
    Datetime.setHour, Datetime.setYear, Datetime.setMonth, Datetime.setDay, Datetime.setDayOfWeek, month,
    Int.toNat_natCast]
  congr 1 <;> omega

/-- The time that is read from fields in UTC has their seconds. -/
theorem get_imf {string : Text} {fields : Http.DateTime} (read : Http.DateTime.get string = .ok fields) (utc : Bool) :
    Datetime.get later string .imf utc = .ok { Datetime.ofFields fields (Datetime.now later true) with
      epoch := Datetime.secondsOf (Datetime.ofFields fields (Datetime.now later true)).tm, recalc := false } := by
  rw [Datetime.get, read]
  rfl

/-- The Internet message format keeps the seconds of the epoch. -/
theorem get_str_imf (gregorian : system.Gregorian) (epoch : Nat) (finish : epoch ≤ 253402300799) (utc : Bool) :
    ∃ read, Datetime.get later ((Datetime.ofEpoch system epoch .second true).str .imf) .imf utc = .ok read ∧
      read.epochIn .second = epoch := by
  have fieldsOf : (Datetime.ofEpoch system epoch .second true).tm = tmOf (epoch / 86400) (epoch % 86400) :=
    gregorian epoch
  have within := Nat.mod_lt epoch (show 0 < 86400 by decide)
  have inRange := fields_inRange fieldsOf (year_le_of_epoch finish) within
  refine ⟨_, get_imf (Http.DateTime.get_str inRange) utc, ?_⟩
  change Datetime.secondsOf (Datetime.ofFields _ _).tm = (epoch : Int)
  rw [ofFields_fields fieldsOf, secondsOf_tmOf, secondsInDay]
  omega

open Http.DateTime (padded padded_length Stands) in
/-- The common format is read with its fields. -/
theorem getCommon_str (fieldsOf : time.tm = tmOf day second) (early : (firstDay.after day).year ≤ 9999)
    (within : second < 86400) {msec : Nat} (msecOf : time.msec = msec) (small : msec ≤ 999) (start : Datetime) :
    ∃ read, Datetime.getCommon (time.str .common) start = .ok read ∧ read.tm = { time.tm with wday := start.tm.wday } ∧
      read.msec = msec ∧ read.utc = start.utc ∧ read.recalc = true := by
  have valid := firstDay_valid.after day
  have monthPos := valid.month_pos
  have monthLe := valid.month_le
  have dayPos := valid.day_pos
  have dayLe := valid.day_le.trans (Calendar.monthLength_le _ _)
  have yearCast : ((firstDay.after day).year : Int) - 1900 + 1900 = (firstDay.after day).year := by omega
  have monthCast : ((firstDay.after day).month : Int) - 1 + 1 = (firstDay.after day).month := by omega
  have year : Stands (time.str .common) 0 (padded 4 (firstDay.after day).year ++ byte '/' ::
      (padded 2 (firstDay.after day).month ++ byte '/' :: (padded 2 (firstDay.after day).day ++ byte ' ' ::
        (padded 2 (second / 3600 : Nat) ++ byte ':' :: (padded 2 (second / 60 % 60 : Nat) ++ byte ':' ::
          (padded 2 (second % 60 : Nat) ++ byte '.' :: (padded 3 msec ++ []))))))) := by
    refine ⟨[], ?_, rfl⟩
    simp only [Datetime.str, fieldsOf, msecOf, tmOf, yearCast, monthCast, List.append_assoc, List.cons_append,
      List.nil_append, List.append_nil]
  generalize time.str .common = string at year ⊢
  obtain ⟨readYear, month⟩ := year.field 0 9999 (by decide) (by omega) (by omega) (by omega)
    (by omega)
  obtain ⟨readMonth, mday⟩ := month.field 1 12 (by decide) (by omega) (by omega) (by omega)
    (by omega)
  obtain ⟨readDay, hour⟩ := mday.field 1 31 (by decide) (by omega) (by omega) (by omega)
    (by omega)
  obtain ⟨readHour, minute⟩ := hour.field 0 23 (by decide) (by omega) (by omega) (by omega)
    (by omega)
  obtain ⟨readMinute, seconds⟩ := minute.field 0 59 (by decide) (by omega) (by omega) (by omega)
    (by omega)
  obtain ⟨readSecond, fraction⟩ := seconds.field 0 59 (by decide) (by omega) (by omega) (by omega)
    (by omega)
  have inside : (decide ((msec : Int) < 0) || decide (999 < (msec : Int))) = false := by
    simp only [Bool.or_eq_false_iff, decide_eq_false_iff_not]
    omega
  have readMsec := fraction.substr (padded_length (by decide) (show msec < 10 ^ 3 by omega))
  have converted : Http.stoi (padded 3 msec) = .ok (msec : Int) := Http.DateTime.stoi_padded (by omega)
  simp only [Datetime.getCommon, readYear, readMonth, readDay, readHour, readMinute, readSecond, readMsec, converted,
    Bind.bind, Except.bind, inside, Bool.false_eq_true, if_false]
  refine ⟨_, rfl, ?_, rfl, rfl, rfl⟩
  rw [fieldsOf]
  rfl

/-- The common format keeps the milliseconds of the epoch. -/
theorem get_str_common (gregorian : system.Gregorian) (epoch msec : Nat) (finish : epoch ≤ 253402300799)
    (small : msec ≤ 999) :
    ∃ read, Datetime.get later ((Datetime.ofEpoch system (1000 * epoch + msec) .millisecond true).str .common)
      .common true = .ok read ∧ read.epochIn .millisecond = 1000 * epoch + msec := by
  have quotient : (1000 * (epoch : Int) + msec).tdiv 1000 = epoch := by
    rw [Int.tdiv_eq_ediv_of_nonneg (by omega)]
    omega
  have remainder : (1000 * (epoch : Int) + msec).tmod 1000 = msec := by
    rw [Int.tmod_eq_emod_of_nonneg (by omega)]
    omega
  have fieldsOf : (Datetime.ofEpoch system (1000 * epoch + msec) .millisecond true).tm =
      tmOf (epoch / 86400) (epoch % 86400) := (congrArg system.gmtime quotient).trans (gregorian epoch)
  have within := Nat.mod_lt epoch (show 0 < 86400 by decide)
  obtain ⟨time, read, tm, msecOf, utc, recalc⟩ := getCommon_str fieldsOf (year_le_of_epoch finish) within remainder small
    (Datetime.now later true)
  refine ⟨{ time with epoch := Datetime.secondsOf time.tm, recalc := false }, ?_, ?_⟩
  · rw [Datetime.get, read]
    change Except.ok (Datetime.recalculate later time) = _
    rw [Datetime.recalculate, if_pos recalc, utc]
    rfl
  · change Datetime.secondsOf time.tm * 1000 + time.msec = _
    have seconds : Datetime.secondsOf time.tm = Datetime.secondsOf (tmOf (epoch / 86400) (epoch % 86400)) := by
      rw [tm, fieldsOf]
      rfl
    rw [seconds, secondsOf_tmOf, msecOf, secondsInDay]
    omega

end RoundTrip

/-- A date up to the end of the year 9999 that is printed and read again is the same time. -/
theorem date_round_trip (system later : System) (gregorian : system.Gregorian) (epoch : Int) (start : 0 ≤ epoch)
    (finish : epoch ≤ 253402300799) :
    (∀ utc, ∃ read, Datetime.get later ((Datetime.ofEpoch system epoch .second true).str .imf) .imf utc = .ok read ∧
      read.epochIn .second = epoch) ∧
    ∀ msec : Int, 0 ≤ msec → msec ≤ 999 → ∃ read,
      Datetime.get later ((Datetime.ofEpoch system (1000 * epoch + msec) .millisecond true).str .common) .common
        true = .ok read ∧ read.epochIn .millisecond = 1000 * epoch + msec := by
  lift epoch to Nat using start
  constructor
  · intro utc
    exact get_str_imf gregorian epoch (by omega) utc
  · intro msec positive small
    lift msec to Nat using positive
    exact get_str_common gregorian epoch msec (by omega) (by omega)

/-- The clock of this system stands at the start of the epoch. -/
def quietSystem : System where
  seconds := 0
  nanoseconds := 0
  gmtime epoch := tmOf (epoch.toNat / 86400) (epoch.toNat % 86400)
  localtime epoch := tmOf (epoch.toNat / 86400) (epoch.toNat % 86400)
  mktime tm := (Datetime.secondsOf tm, tm)

/-- The last day of February of 1972 is printed and read again. -/
theorem date_round_trip_leapDay : quietSystem.Gregorian ∧
    ∃ read, Datetime.get quietSystem ((Datetime.ofEpoch quietSystem 68169600 .second true).str .imf) .imf false =
      .ok read ∧ read.epochIn .second = 68169600 := by
  have gregorian : quietSystem.Gregorian := fun epoch => rfl
  have trip := date_round_trip quietSystem quietSystem gregorian 68169600 (by decide) (by decide)
  exact ⟨gregorian, trip.1 false⟩

end SimpleNFast.Com
