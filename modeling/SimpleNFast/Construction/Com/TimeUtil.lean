/-
This file models `datetime` of `timeutil.h` and `timeutil.cpp` for POSIX systems, and states what the reading of a date
checks and what it should check.
-/

import SimpleNFast.Construction.Http.HeaderValues
import SimpleNFast.Library.Calendar

namespace SimpleNFast.Com

open Http (Fault)

inductive TimeUnit where
  | millisecond
  | second
  deriving DecidableEq, Repr

inductive TimeFormat where
  | common
  | imf
  deriving DecidableEq, Repr

def secondsInMinute : Int := 60

def secondsInHour : Int := 3600

def secondsInDay : Int := 86400

def isLeapYear (year : Int) : Bool :=
  if year.tmod 4 ≠ 0 then false
  else if year.tmod 100 ≠ 0 then true
  else if year.tmod 400 ≠ 0 then false
  else true

def daysInMonth : List Int := [31, 28, 31, 30, 31, 30, 31, 31, 30, 31, 30, 31]

def secondsInMonth (month : Nat) (leapYear : Bool) : Int :=
  (if month = 1 ∧ leapYear then 29 else daysInMonth.getD month 0) * secondsInDay

def secondsInYear (leapYear : Bool) : Int := (if leapYear then 366 else 365) * secondsInDay

/-- The members of `std::tm` that the class uses. -/
structure Tm where
  sec : Int
  min : Int
  hour : Int
  mday : Int
  mon : Int
  year : Int
  wday : Int
  deriving DecidableEq, Repr

/-- The wall clock with the conversions of `time.h`; `mktime` also changes its argument. -/
structure System where
  seconds : Int
  nanoseconds : Int
  gmtime : Int → Tm
  localtime : Int → Tm
  mktime : Tm → Int × Tm

structure Datetime where
  tm : Tm
  msec : Int
  epoch : Int
  utc : Bool
  recalc : Bool
  deriving DecidableEq, Repr

namespace Datetime

/-- This is the constructor from the wall clock. -/
def now (system : System) (utc : Bool) : Datetime where
  tm := if utc then system.gmtime system.seconds else system.localtime system.seconds
  msec := system.nanoseconds.tdiv 1000000
  epoch := system.seconds
  utc := utc
  recalc := false

/-- This is the constructor from the time since the epoch. -/
def ofEpoch (system : System) (epoch : Int) (unit : TimeUnit) (utc : Bool) : Datetime :=
  let seconds := if unit = .millisecond then epoch.tdiv 1000 else epoch
  { tm := if utc then system.gmtime seconds else system.localtime seconds
    msec := if unit = .millisecond then epoch.tmod 1000 else 0
    epoch := seconds
    utc := utc
    recalc := false }

def setYear (year : Int) (time : Datetime) : Datetime :=
  { time with tm := { time.tm with year := year - 1900 }, recalc := true }

def setMonth (month : Int) (time : Datetime) : Datetime :=
  { time with tm := { time.tm with mon := month - 1 }, recalc := true }

def setDay (day : Int) (time : Datetime) : Datetime :=
  { time with tm := { time.tm with mday := day }, recalc := true }

def setHour (hour : Int) (time : Datetime) : Datetime :=
  { time with tm := { time.tm with hour := hour }, recalc := true }

def setMinute (minute : Int) (time : Datetime) : Datetime :=
  { time with tm := { time.tm with min := minute }, recalc := true }

def setSecond (second : Int) (time : Datetime) : Datetime :=
  { time with tm := { time.tm with sec := second }, recalc := true }

def setMillisecond (millisecond : Int) (time : Datetime) : Datetime :=
  { time with msec := millisecond, recalc := true }

def setDayOfWeek (day : Int) (time : Datetime) : Datetime :=
  { time with tm := { time.tm with wday := day }, recalc := true }

/-- This is the member `epoch` with a unit. -/
def epochIn (unit : TimeUnit) (time : Datetime) : Int :=
  if unit = .millisecond then time.epoch * 1000 + time.msec else time.epoch

/-- The seconds of the fields in UTC; the loops go over the years from 1970 and over the months before. -/
def secondsOf (tm : Tm) : Int :=
  let year := tm.year + 1900
  let years := (List.range (year - 1970).toNat).map fun index : Nat => secondsInYear (isLeapYear (1970 + index))
  let months := (List.range tm.mon.toNat).map fun month => secondsInMonth month (isLeapYear year)
  years.sum + months.sum + (tm.mday - 1) * secondsInDay + tm.hour * secondsInHour + tm.min * secondsInMinute +
    tm.sec

def recalculate (system : System) (time : Datetime) : Datetime :=
  if time.recalc then
    if time.utc then { time with epoch := secondsOf time.tm, recalc := false }
    else
      let (epoch, tm) := system.mktime time.tm
      { time with epoch := epoch, tm := tm, recalc := false }
  else time

/-- The setters that `get` calls after its checks of the Internet message format. -/
def ofFields (fields : Http.DateTime) (time : Datetime) : Datetime :=
  setSecond fields.second <| setMinute fields.minute <| setHour fields.hour <| setYear fields.year <|
    setMonth ((fields.month : Int) + 1) <| setDay fields.day <| setDayOfWeek fields.dayOfWeek time

/-- The common format is read at fixed columns, as the Internet message format is. -/
def getCommon (string : Text) (time : Datetime) : Except Fault Datetime := do
  let year ← Http.DateTime.field string 0 4 0 9999 '/'
  let month ← Http.DateTime.field string 5 2 1 12 '/'
  let day ← Http.DateTime.field string 8 2 1 31 ' '
  let hour ← Http.DateTime.field string 11 2 0 23 ':'
  let minute ← Http.DateTime.field string 14 2 0 59 ':'
  let second ← Http.DateTime.field string 17 2 0 59 '.'
  let millisecond ← Http.stoi (← Http.DateTime.substr string 20 3)
  if millisecond < 0 || 999 < millisecond then throw Http.DateTime.invalid
  pure (setMillisecond millisecond <| setSecond second <| setMinute minute <| setHour hour <| setDay day <|
    setMonth month <| setYear year time)

def get (system : System) (string : Text) (format : TimeFormat) (utc : Bool) : Except Fault Datetime :=
  match format with
  | .imf => do
      let fields ← Http.DateTime.get string
      pure (recalculate system (ofFields fields (now system true)))
  | .common => do
      let time ← getCommon string (now system utc)
      pure (recalculate system time)

/-- The fields that the Internet message format prints. -/
def fields (time : Datetime) : Http.DateTime where
  dayOfWeek := time.tm.wday.toNat
  day := time.tm.mday
  month := time.tm.mon.toNat
  year := time.tm.year + 1900
  hour := time.tm.hour
  minute := time.tm.min
  second := time.tm.sec

def str (format : TimeFormat) (time : Datetime) : Text :=
  match format with
  | .imf => time.fields.str
  | .common =>
      Http.DateTime.padded 4 (time.tm.year + 1900) ++ [byte '/'] ++ Http.DateTime.padded 2 (time.tm.mon + 1) ++
        [byte '/'] ++ Http.DateTime.padded 2 time.tm.mday ++ [byte ' '] ++ Http.DateTime.padded 2 time.tm.hour ++
        [byte ':'] ++ Http.DateTime.padded 2 time.tm.min ++ [byte ':'] ++ Http.DateTime.padded 2 time.tm.sec ++
        [byte '.'] ++ Http.DateTime.padded 3 time.msec

end Datetime

/-- The first day of the epoch was a Thursday. -/
def firstDay : Calendar.Date := ⟨1970, 1, 1⟩

/-- The fields of a time of a day, which is counted from the first day of the epoch. -/
def tmOf (day second : Nat) : Tm :=
  let date := firstDay.after day
  { sec := (second % 60 : Nat)
    min := (second / 60 % 60 : Nat)
    hour := (second / 3600 : Nat)
    mday := date.day
    mon := (date.month : Int) - 1
    year := (date.year : Int) - 1900
    wday := ((4 + day) % 7 : Nat) }

/-- From 1970 on `gmtime_r` gives the date of the proleptic Gregorian calendar. -/
def System.Gregorian (system : System) : Prop :=
  ∀ epoch : Nat, system.gmtime epoch = tmOf (epoch / 86400) (epoch % 86400)

open Calendar (Date)

/-- The characters at the column begin with a number in the range, and the other character follows them. -/
structure Column (string : Text) (position count : Nat) (low high : Int) (after : Char) (value : Int) : Prop where
  number : Http.stoi ((string.drop position).take count) = .ok value
  lower : low ≤ value
  upper : value ≤ high
  behind : string.getD (position + count) 0 = byte after

/-- The characters that `get` looks at; the text may go on, and a number may have a sign or blanks. -/
structure Columns (string : Text) (fields : Http.DateTime) : Prop where
  weekday : Http.DateTime.days[fields.dayOfWeek]? = some (string.take 3)
  comma : string.getD 3 0 = byte ','
  blank : string.getD 4 0 = byte ' '
  day : Column string 5 2 1 31 ' ' fields.day
  month : Http.DateTime.months[fields.month]? = some ((string.drop 8).take 3)
  space : string.getD 11 0 = byte ' '
  year : Column string 12 4 0 9999 ' ' fields.year
  hour : Column string 17 2 0 23 ':' fields.hour
  minute : Column string 20 2 0 59 ':' fields.minute
  second : Column string 23 2 0 59 ' ' fields.second
  zone : (string.drop 26).take 3 = text "GMT"

/-- The days from the first day of the epoch to the date, negative for the dates before. -/
def dayNumber (date : Date) : Int := (date.daysBefore : Int) - firstDay.daysBefore

/-- A date of the calendar with a time of the day. -/
structure Moment where
  date : Date
  hour : Nat
  minute : Nat
  second : Nat
  valid : date.Valid
  early : date.year ≤ 9999
  hour_lt : hour < 24
  minute_lt : minute < 60
  second_lt : second < 60

namespace Moment

/-- The complete text of the moment with the weekday of its date. -/
def fixdate (moment : Moment) : Text :=
  Http.DateTime.str ⟨((4 + dayNumber moment.date) % 7).toNat, moment.date.day, moment.date.month - 1,
    moment.date.year, moment.hour, moment.minute, moment.second⟩

def epoch (moment : Moment) : Int :=
  secondsInDay * dayNumber moment.date + secondsInHour * moment.hour + secondsInMinute * moment.minute +
    moment.second

end Moment

/-- The text is rejected as an invalid argument by every call. -/
def Rejected (string : Text) : Prop :=
  ∀ system utc, ∃ what, Datetime.get system string .imf utc = .error (.invalidArgument what)

/-- The same without the milliseconds of the object. -/
def ValidatedSeconds (string : Text) : Prop :=
  Rejected string ∨ ∃ moment : Moment, string = moment.fixdate ∧
    ∃ tm, ∀ system utc, ∃ time, Datetime.get system string .imf utc = .ok time ∧ time.tm = tm ∧
      time.epoch = moment.epoch

end SimpleNFast.Com
