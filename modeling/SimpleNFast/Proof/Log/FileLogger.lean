import SimpleNFast.Construction.Log.FileLogger
import SimpleNFast.Proof.Com.TimeUtil

namespace SimpleNFast.Log

open Calendar (Date)
open Http.DateTime (padded padded_length isDigit_padded number_padded)

/-- The date that a name begins with. -/
def dateText (date : Date) : Text := padded 4 date.year ++ padded 2 date.month ++ padded 2 date.day

section Names

variable {date other : Date} {seqno number : Nat}

theorem fileName_eq (date : Date) (seqno : Nat) :
    fileName date seqno = dateText date ++ byte '_' :: (padded 6 seqno ++ text ".log") := by
  simp only [fileName, dateText, List.append_assoc, List.cons_append]

theorem dateText_parts (valid : date.Valid) (early : date.year ≤ 9999) :
    (padded 4 date.year).length = 4 ∧ (padded 2 date.month).length = 2 ∧ (padded 2 date.day).length = 2 := by
  have month := valid.month_le
  have day := valid.day_le.trans (Calendar.monthLength_le _ _)
  exact ⟨padded_length (by decide) (by omega), padded_length (by decide) (by omega),
    padded_length (by decide) (by omega)⟩

theorem dateText_length (valid : date.Valid) (early : date.year ≤ 9999) : (dateText date).length = 8 := by
  obtain ⟨year, month, day⟩ := dateText_parts valid early
  rw [dateText, List.length_append, List.length_append, year, month, day]

/-- The numbers at the places of the year, the month and the day are those of the date. -/
theorem dateText_numbers (valid : date.Valid) (early : date.year ≤ 9999) :
    SimpleNFast.number 10 ((dateText date).take 4) = date.year ∧
      SimpleNFast.number 10 (((dateText date).drop 4).take 2) = date.month ∧
      SimpleNFast.number 10 (((dateText date).drop 6).take 2) = date.day := by
  obtain ⟨year, month, day⟩ := dateText_parts valid early
  have first : (dateText date).take 4 = padded 4 date.year := by
    rw [dateText, List.append_assoc]
    exact List.take_left' year
  have second : ((dateText date).drop 4).take 2 = padded 2 date.month := by
    rw [dateText, List.append_assoc, List.drop_left' year]
    exact List.take_left' month
  have third : ((dateText date).drop 6).take 2 = padded 2 date.day := by
    have place : (padded 4 date.year ++ padded 2 date.month).length = 6 := by
      rw [List.length_append, year, month]
    rw [dateText, List.drop_left' place]
    exact List.take_of_length_le day.le
  rw [first, second, third]
  exact ⟨number_padded, number_padded, number_padded⟩

theorem take_fileName (valid : date.Valid) (early : date.year ≤ 9999) (seqno : Nat) :
    (fileName date seqno).take 8 = dateText date := by
  rw [fileName_eq]
  exact List.take_left' (dateText_length valid early)

/-- The date and the number of a name are known from its text. -/
theorem fileName_injective (valid : date.Valid) (early : date.year ≤ 9999) (otherValid : other.Valid)
    (otherEarly : other.year ≤ 9999) (same : fileName date seqno = fileName other number) :
    date = other ∧ seqno = number := by
  have dates : dateText date = dateText other := by
    rw [← take_fileName valid early seqno, same, take_fileName otherValid otherEarly]
  have equal : date = other := by
    have first := dateText_numbers valid early
    have second := dateText_numbers otherValid otherEarly
    rw [dates] at first
    exact Date.ext (first.1.symm.trans second.1) (first.2.1.symm.trans second.2.1) (first.2.2.symm.trans second.2.2)
  refine ⟨equal, ?_⟩
  rw [fileName_eq, fileName_eq, dates] at same
  have rest := List.append_cancel_left same
  have numbers : padded 6 seqno = padded 6 number := List.append_cancel_right (List.cons.inj rest).2
  have read := congrArg (SimpleNFast.number 10) numbers
  rwa [number_padded, number_padded] at read

theorem matchName_fileName (valid : date.Valid) (early : date.year ≤ 9999) (small : seqno < 10 ^ 6) :
    matchName (fileName date seqno) = some (dateText date, padded 6 seqno) := by
  have dateLength := dateText_length valid early
  have seqLength : (padded 6 seqno).length = 6 := padded_length (by decide) small
  have dateDigits : (dateText date).all (isDigit ∘ toInt) = true := by
    rw [List.all_eq_true]
    intro char member
    rw [dateText, List.mem_append, List.mem_append] at member
    rcases member with (year | month) | day
    · exact isDigit_padded char year
    · exact isDigit_padded char month
    · exact isDigit_padded char day
  have seqDigits : (padded 6 seqno).all (isDigit ∘ toInt) = true := List.all_eq_true.2 isDigit_padded
  have bar : (fileName date seqno).getD 8 0 = byte '_' := by
    rw [fileName_eq, ← dateLength]
    simp
  have seq : ((fileName date seqno).drop 9).take 6 = padded 6 seqno := by
    have place : (dateText date ++ [byte '_']).length = 9 := by rw [List.length_append, dateLength]; rfl
    have split : fileName date seqno = (dateText date ++ [byte '_']) ++ (padded 6 seqno ++ text ".log") := by
      rw [fileName_eq, List.append_assoc]
      rfl
    rw [split, List.drop_left' place]
    exact List.take_left' seqLength
  have ending : (fileName date seqno).drop 15 = text ".log" := by
    have place : (dateText date ++ byte '_' :: padded 6 seqno).length = 15 := by
      rw [List.length_append, List.length_cons, dateLength, seqLength]
    have split : fileName date seqno = (dateText date ++ byte '_' :: padded 6 seqno) ++ text ".log" := by
      rw [fileName_eq, List.append_assoc]
      rfl
    rw [split]
    exact List.drop_left' place
  have dot : (fileName date seqno).getD 15 0 = byte '.' := by
    have head := congrArg List.head? ending
    rw [List.head?_drop] at head
    rw [List.getD_eq_getElem?_getD, head]
    rfl
  have log : ((fileName date seqno).drop 16).take 3 = text "log" := by
    have tail := congrArg (fun rest => (rest.drop 1).take 3) ending
    rw [List.drop_drop] at tail
    exact tail
  rw [matchName, take_fileName valid early, seq, bar, dot, log, if_pos]
  exact ⟨dateLength, dateDigits, rfl, seqLength, seqDigits, by decide, by decide, rfl⟩

theorem parseName_fileName (valid : date.Valid) (early : date.year ≤ 9999) (small : seqno < 10 ^ 6) :
    parseName (fileName date seqno) = some (dateText date, padded 6 seqno) := by
  have found := matchName_fileName valid early small
  cases name : fileName date seqno with
  | nil =>
      rw [name] at found
      cases found
  | cons first rest =>
      rw [name] at found
      rw [parseName, List.tails_cons, List.findSome?_cons, found]

theorem fileName_length (valid : date.Valid) (early : date.year ≤ 9999) (seqno : Nat) :
    (fileName date seqno).length = 13 + (padded 6 seqno).length := by
  rw [fileName_eq, List.length_append, List.length_cons, List.length_append, dateText_length valid early]
  have tail : (text ".log").length = 4 := rfl
  omega

/-- The directory lists the names whose numbers have six digits. -/
theorem isLogName_iff (valid : date.Valid) (early : date.year ≤ 9999) :
    isLogName (fileName date seqno) = true ↔ seqno < 10 ^ 6 := by
  constructor
  · intro listed
    have length := (Bool.and_eq_true_iff.1 listed).2
    rw [beq_iff_eq, fileName_length valid early] at length
    have digits : (digits 10 seqno).length ≤ 6 := by
      rw [Http.DateTime.padded_natCast, List.length_append] at length
      omega
    rw [SimpleNFast.digits, List.length_map] at digits
    exact (Nat.length_toDigits_le_iff (by decide) (by decide)).1 digits
  · intro small
    rw [isLogName, matchName_fileName valid early small, fileName_length valid early,
      padded_length (by decide) small]
    rfl

end Names

section Files

variable {files : List LogFile} {file : LogFile} {name : Text} {record : Record} {time : Int}

theorem purge_subset (retention : Option Retention) (now : Int) (files : List LogFile) :
    ∀ file ∈ purge retention now files, file ∈ files := by
  intro file member
  cases retention with
  | none => exact member
  | some retention => exact (List.mem_filter.1 member).1

theorem purge_sublist (retention : Option Retention) (now : Int) (files : List LogFile) :
    (purge retention now files).Sublist files := by
  cases retention with
  | none => exact List.Sublist.refl files
  | some retention => exact List.filter_sublist

/-- A file of the directory after `create` was there or is empty. -/
theorem mem_create (member : file ∈ create name time files) : file ∈ files ∨ file = ⟨name, [], time⟩ := by
  unfold create at member
  split at member
  · exact Or.inl member
  · rcases List.mem_append.1 member with old | new
    · exact Or.inl old
    · exact Or.inr (List.mem_singleton.1 new)

theorem exists_create (name : Text) (time : Int) (files : List LogFile) :
    ∃ file ∈ create name time files, file.name = name := by
  unfold create
  split
  · rename_i there
    obtain ⟨file, member, same⟩ := List.any_eq_true.1 there
    exact ⟨file, member, beq_iff_eq.1 same⟩
  · exact ⟨⟨name, [], time⟩, List.mem_append_right _ (List.mem_singleton_self _), rfl⟩

theorem mem_append (member : file ∈ append name record files) :
    ∃ before ∈ files, before.name = file.name ∧ ((before.name ≠ name ∧ file = before) ∨
      (before.name = name ∧ file.records = before.records ++ [record] ∧ file.mtime = record.time)) := by
  obtain ⟨before, old, same⟩ := List.mem_map.1 member
  split at same
  · rename_i here
    subst same
    exact ⟨before, old, rfl, Or.inr ⟨here, rfl, rfl⟩⟩
  · rename_i elsewhere
    subst same
    exact ⟨before, old, rfl, Or.inl ⟨elsewhere, rfl⟩⟩

theorem mem_listing {attr : FileAttr} (member : attr ∈ listing files) :
    ∃ file ∈ files, isLogName file.name = true ∧ attr = file.attr := by
  obtain ⟨file, listed, rfl⟩ := List.mem_map.1 member
  obtain ⟨inside, named⟩ := List.mem_filter.1 listed
  exact ⟨file, inside, named, rfl⟩

/-- The loop keeps the best file so far or finds a newer one. -/
theorem newest_loop (listed : List FileAttr) (best : Option FileAttr × Int) :
    (listed.foldl (fun (best : Option FileAttr × Int) file =>
      if best.2 < file.mtime then (some file, file.mtime) else best) best = best ∧
        ∀ file ∈ listed, file.mtime ≤ best.2) ∨
    ∃ found ∈ listed, listed.foldl (fun (best : Option FileAttr × Int) file =>
      if best.2 < file.mtime then (some file, file.mtime) else best) best = (some found, found.mtime) ∧
        best.2 < found.mtime ∧ ∀ file ∈ listed, file.mtime ≤ found.mtime := by
  induction listed generalizing best with
  | nil => exact Or.inl ⟨rfl, by simp⟩
  | cons file rest inductionHypothesis =>
      rw [List.foldl_cons]
      by_cases newer : best.2 < file.mtime
      · rw [if_pos newer]
        right
        rcases inductionHypothesis (some file, file.mtime) with ⟨same, older⟩ | ⟨found, member, same, later, older⟩
        · refine ⟨file, List.mem_cons_self, same, newer, ?_⟩
          intro other inside
          rcases List.mem_cons.1 inside with rfl | behind
          · exact le_rfl
          · exact older other behind
        · refine ⟨found, List.mem_cons_of_mem _ member, same, newer.trans later, ?_⟩
          intro other inside
          rcases List.mem_cons.1 inside with rfl | behind
          · exact later.le
          · exact older other behind
      · rw [if_neg newer]
        rcases inductionHypothesis best with ⟨same, older⟩ | ⟨found, member, same, later, older⟩
        · left
          refine ⟨same, ?_⟩
          intro other inside
          rcases List.mem_cons.1 inside with rfl | behind
          · exact not_lt.1 newer
          · exact older other behind
        · right
          refine ⟨found, List.mem_cons_of_mem _ member, same, later, ?_⟩
          intro other inside
          rcases List.mem_cons.1 inside with rfl | behind
          · exact (not_lt.1 newer).trans later.le
          · exact older other behind

theorem newest_mem {listed : List FileAttr} {attr : FileAttr} (found : newest listed = some attr) :
    attr ∈ listed ∧ ∀ file ∈ listed, file.mtime ≤ attr.mtime := by
  rcases newest_loop listed (none, -1) with ⟨same, -⟩ | ⟨best, member, same, -, older⟩
  · rw [newest, same] at found
    cases found
  · rw [newest, same] at found
    obtain rfl := Option.some.inj found
    exact ⟨member, older⟩

end Files

/-- The choice of a name after a file of the format has one case for each of the three outcomes. -/
theorem FileLogger.chooseName_fileName {logger : FileLogger} {attr : FileAttr} {date fileDate : Date} {seqno : Nat}
    (named : attr.name = fileName fileDate seqno) (valid : fileDate.Valid) (early : fileDate.year ≤ 9999)
    (small : seqno < 10 ^ 6) :
    logger.chooseName (some attr) date =
      if fileDate ≠ date then { logger with seqno := 0, name := fileName date 0 }
      else if logger.rotateBySize attr.size then
        { logger with seqno := seqno + 1, name := fileName date (seqno + 1) }
      else { logger with seqno := seqno, size := attr.size, name := attr.name } := by
  obtain ⟨year, month, day⟩ := dateText_numbers valid early
  rw [chooseName, named, parseName_fileName valid early small]
  dsimp only
  rw [year, month, day, Http.DateTime.number_padded]
  by_cases same : fileDate = date
  · rw [if_neg (not_not.2 same), if_neg]
    rw [same]
    simp
  · rw [if_pos same, if_pos]
    by_contra equal
    rw [not_or, not_or, not_ne_iff, not_ne_iff, not_ne_iff] at equal
    exact same (Date.ext equal.2.2 equal.2.1 equal.1)

namespace Journal

/-- The logger and the directory before the line of a record is appended. -/
def ready (now : Int) (record : Record) (journal : Journal) : FileLogger × List LogFile :=
  if journal.logger.isOpen then journal.logger.rotate now record journal.files
  else journal.logger.openFile now record journal.files

theorem log_eq {record : Record} (wanted : record.wanted = true) (now : Int) (journal : Journal) :
    journal.logger.log now record journal.files =
      ({ (journal.ready now record).1 with size := (journal.ready now record).1.size + record.size },
        append (journal.ready now record).1.name record (journal.ready now record).2) := by
  rw [FileLogger.log, if_pos wanted]
  rfl

theorem log_unwanted {record : Record} (unwanted : record.wanted = false) (now : Int) (journal : Journal) :
    journal.logger.log now record journal.files = (journal.logger, journal.files) := by
  rw [FileLogger.log, unwanted]
  rfl

theorem write_logger {record : Record} (wanted : record.wanted = true) (now : Int) (journal : Journal) :
    (journal.write now record).logger =
      { (journal.ready now record).1 with size := (journal.ready now record).1.size + record.size } := by
  rw [write, log_eq wanted]

theorem write_files {record : Record} (wanted : record.wanted = true) (now : Int) (journal : Journal) :
    (journal.write now record).files =
      append (journal.ready now record).1.name record (journal.ready now record).2 := by
  rw [write, log_eq wanted]

theorem write_last {record : Record} (wanted : record.wanted = true) (now : Int) (journal : Journal) :
    (journal.write now record).last = some ((journal.ready now record).1.name, record) := by
  rw [write, log_eq wanted]

end Journal

namespace Retention

variable {files sorted : List FileAttr} {count : Nat} {now : Int}

end Retention

end SimpleNFast.Log
