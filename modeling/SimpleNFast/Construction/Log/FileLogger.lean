/-
This file models `file_logger` of `flogger.h` and `flogger.cpp` with the default name format `%D_%N.log`,
over a directory whose operations succeed, and its retention of old files.
-/

import SimpleNFast.Construction.Text
import SimpleNFast.Construction.Http.HeaderValues
import SimpleNFast.Library.Calendar

namespace SimpleNFast.Log

/-- The members of `file_attr` that the logger uses. -/
structure FileAttr where
  name : Text
  mtime : Int
  size : Int
  deriving DecidableEq, Repr

namespace Retention

inductive Scheme where
  | all
  | lastNDays
  | lastNFiles
  deriving DecidableEq, Repr

end Retention

structure Retention where
  scheme : Retention.Scheme
  argument : Int
  deriving DecidableEq, Repr

namespace Retention

/-- The loop of `purge` over the sorted files removes the files behind those to keep. -/
def removedBehind : Int → List FileAttr → List Text
  | _, [] => []
  | filesToKeep, file :: rest =>
      if filesToKeep = 0 then file.name :: removedBehind filesToKeep rest
      else removedBehind (filesToKeep - 1) rest

/-- The product has the type `int`, and it wraps around before it is widened. -/
def olderTime (argument now : Int) : Int := now - castInt (argument * 24 * 60 * 60)

/-- The names that `purge` removes; `now` is the time of the wall clock. -/
def removed (retention : Retention) (now : Int) (sorted : List FileAttr) : List Text :=
  match retention.scheme with
  | .all => []
  | .lastNFiles => removedBehind retention.argument sorted
  | .lastNDays =>
      (sorted.filter fun file => decide (file.mtime < olderTime retention.argument now)).map FileAttr.name

/-- The files that are left in the directory. -/
def left (retention : Retention) (now : Int) (sorted files : List FileAttr) : List FileAttr :=
  files.filter fun file => file.name ∉ retention.removed now sorted

end Retention

open Calendar (Date)
open Http.DateTime (padded)

/-- A record has the time of the clock of the files, its local date and its formatted text. -/
structure Record where
  time : Nat
  date : Date
  line : Text
  wanted : Bool
  valid : date.Valid
  early : date.year ≤ 9999

/-- The records of a file are its lines in the order of the writes. -/
structure LogFile where
  name : Text
  records : List Record
  mtime : Int

/-- The line of a record ends with a newline. -/
def Record.size (record : Record) : Nat := record.line.length + 1

namespace LogFile

def size (file : LogFile) : Nat := (file.records.map Record.size).sum

def attr (file : LogFile) : FileAttr := ⟨file.name, file.mtime, file.size⟩

end LogFile

/-- The scheme is a set of two flags. -/
structure Rotation where
  daily : Bool
  bySize : Bool
  size : Int
  deriving DecidableEq, Repr

structure FileLogger where
  rotation : Option Rotation
  retention : Option Retention
  name : Text
  size : Int
  seqno : Nat
  lastDay : Nat
  isOpen : Bool
  deriving DecidableEq, Repr

/-- The text of a name in the format `%D_%N.log`. -/
def fileName (date : Date) (seqno : Nat) : Text :=
  padded 4 date.year ++ padded 2 date.month ++ padded 2 date.day ++ byte '_' :: padded 6 seqno ++ text ".log"

/-- The pattern of the format at the start of a text: eight digits, an underscore, six digits, any character of a line
and the text `log`. -/
def matchName (string : Text) : Option (Text × Text) :=
  let date := string.take 8
  let seq := (string.drop 9).take 6
  let any := string.getD 15 0
  if date.length = 8 ∧ date.all (isDigit ∘ toInt) ∧ string.getD 8 0 = byte '_' ∧ seq.length = 6 ∧
      seq.all (isDigit ∘ toInt) ∧ any ≠ byte '\n' ∧ any ≠ byte '\r' ∧ (string.drop 16).take 3 = text "log" then
    some (date, seq)
  else none

/-- The function `std::regex_match` of the directory asks for the whole name. -/
def isLogName (name : Text) : Bool := (matchName name).isSome && name.length == 19

/-- This is `parse_name`; the search takes the first place where the pattern matches. -/
def parseName (name : Text) : Option (Text × Text) := name.tails.findSome? matchName

/-- The files that the directory lists for the pattern. -/
def listing (files : List LogFile) : List FileAttr :=
  (files.filter fun file => isLogName file.name).map LogFile.attr

/-- The loop of `open` takes the first of the newest files. -/
def newest (listed : List FileAttr) : Option FileAttr :=
  (listed.foldl (fun (best : Option FileAttr × Int) file =>
    if best.2 < file.mtime then (some file, file.mtime) else best) (none, -1)).1

/-- This is `purge` of the retention that the logger may have. -/
def purge (retention : Option Retention) (now : Int) (files : List LogFile) : List LogFile :=
  match retention with
  | none => files
  | some retention =>
      let sorted := (listing files).mergeSort fun first second => decide (second.mtime ≤ first.mtime)
      files.filter fun file => file.name ∉ retention.removed now sorted

/-- The file is created if it is missing. -/
def create (name : Text) (time : Int) (files : List LogFile) : List LogFile :=
  if files.any fun file => file.name == name then files else files ++ [⟨name, [], time⟩]

/-- The line of the record is appended to the file of this name. -/
def append (name : Text) (record : Record) (files : List LogFile) : List LogFile :=
  files.map fun file =>
    if file.name = name then { file with records := file.records ++ [record], mtime := record.time } else file

namespace FileLogger

/-- A logger with its rotation and its retention. -/
def new (rotation : Option Rotation) (retention : Option Retention) : FileLogger :=
  ⟨rotation, retention, [], 0, 0, 0, false⟩

def rotateDaily (logger : FileLogger) (day : Nat) : Bool :=
  logger.rotation.any fun rotation => rotation.daily && day != logger.lastDay

def rotateBySize (logger : FileLogger) (size : Int) : Bool :=
  logger.rotation.any fun rotation => rotation.bySize && decide (rotation.size < size)

/-- This is `name` with the last file. -/
def chooseName (file : Option FileAttr) (date : Date) (logger : FileLogger) : FileLogger :=
  match file with
  | none => { logger with name := fileName date logger.seqno }
  | some file =>
      match parseName file.name with
      | none => { logger with size := file.size, name := file.name }
      | some (dateStr, seqStr) =>
          if number 10 ((dateStr.drop 6).take 2) ≠ date.day ∨ number 10 ((dateStr.drop 4).take 2) ≠ date.month ∨
              number 10 (dateStr.take 4) ≠ date.year then
            { logger with seqno := 0, name := fileName date 0 }
          else if logger.rotateBySize file.size then
            { logger with seqno := number 10 seqStr + 1, name := fileName date (number 10 seqStr + 1) }
          else { logger with seqno := number 10 seqStr, size := file.size, name := file.name }

/-- This is `open` with the local time, after which the file is there. -/
def openFile (now : Int) (record : Record) (logger : FileLogger) (files : List LogFile) :
    FileLogger × List LogFile :=
  let chosen := logger.chooseName (newest (listing files)) record.date
  ({ chosen with lastDay := record.date.day, isOpen := true },
    create chosen.name record.time (purge logger.retention now files))

def close (logger : FileLogger) : FileLogger :=
  if logger.isOpen then { logger with isOpen := false, size := 0 } else logger

/-- The next file after a rotation. -/
def goOn (now : Int) (record : Record) (logger : FileLogger) (files : List LogFile) : FileLogger × List LogFile :=
  let name := fileName record.date logger.seqno
  ({ logger.close with name := name, lastDay := record.date.day, isOpen := true },
    create name record.time (purge logger.retention now files))

def rotate (now : Int) (record : Record) (logger : FileLogger) (files : List LogFile) : FileLogger × List LogFile :=
  if logger.rotateDaily record.date.day then goOn now record { logger with seqno := 0 } files
  else if logger.rotateBySize logger.size then goOn now record { logger with seqno := logger.seqno + 1 } files
  else (logger, files)

/-- This is `log`; the time `now` is the one that the retention asks for. -/
def log (now : Int) (record : Record) (logger : FileLogger) (files : List LogFile) : FileLogger × List LogFile :=
  if record.wanted then
    let (ready, there) :=
      if logger.isOpen then rotate now record logger files else openFile now record logger files
    ({ ready with size := ready.size + record.size }, append ready.name record there)
  else (logger, files)

/-- This is `reset`. -/
def reset (logger : FileLogger) : FileLogger := logger.close

end FileLogger

/-- The logger and its directory, with the file and the record of the last write and the number of writes that went
to another file than the write before. -/
structure Journal where
  logger : FileLogger
  files : List LogFile
  last : Option (Text × Record)
  rotations : Nat

namespace Journal

/-- A new logger starts in an empty directory. -/
def start (rotation : Option Rotation) (retention : Option Retention) : Journal :=
  ⟨FileLogger.new rotation retention, [], none, 0⟩

/-- The call of `log` with a record that passes the severity of the logger. -/
def write (now : Int) (record : Record) (journal : Journal) : Journal :=
  let (logger, files) := journal.logger.log now record journal.files
  let other := journal.last.any fun last => last.1 ≠ logger.name
  ⟨logger, files, some (logger.name, record), journal.rotations + if other then 1 else 0⟩

/-- A sequence of calls and restarts, where each record that is written meets a condition on the journal before. A
directory lists its files in any order. -/
inductive Run (condition : Journal → Record → Prop) (rotation : Option Rotation) (retention : Option Retention) :
    Journal → Prop where
  | start : Run condition rotation retention (start rotation retention)
  | write {journal : Journal} {record : Record} (now : Int) (run : Run condition rotation retention journal)
      (wanted : record.wanted = true) (allowed : condition journal record) :
      Run condition rotation retention (journal.write now record)
  | skip {journal : Journal} {record : Record} (now : Int) (run : Run condition rotation retention journal)
      (unwanted : record.wanted = false) :
      Run condition rotation retention { journal with
        logger := (journal.logger.log now record journal.files).1
        files := (journal.logger.log now record journal.files).2 }
  | reset {journal : Journal} (run : Run condition rotation retention journal) :
      Run condition rotation retention { journal with logger := journal.logger.reset }
  | restart {journal : Journal} (run : Run condition rotation retention journal) :
      Run condition rotation retention { journal with logger := FileLogger.new rotation retention }
  | list {journal : Journal} {files : List LogFile} (run : Run condition rotation retention journal)
      (order : files.Perm journal.files) : Run condition rotation retention { journal with files := files }

/-- A record that goes to the open file on the same day of a month has the date of the last record. -/
def KeepsDate (journal : Journal) (record : Record) : Prop :=
  ∀ last, journal.last = some last → journal.logger.isOpen = true → last.2.date.day = record.date.day →
    last.2.date = record.date ∨ journal.logger.rotateBySize journal.logger.size = true

/-- The local time of a record is behind that of the last one. -/
def Later (journal : Journal) (record : Record) : Prop :=
  ∀ last, journal.last = some last → last.2.time < record.time ∧ ¬record.date < last.2.date

end Journal

end SimpleNFast.Log
