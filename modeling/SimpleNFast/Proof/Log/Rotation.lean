import SimpleNFast.Proof.Log.FileLogger

namespace SimpleNFast.Log

open Calendar (Date)

/-- The names of all files have the format, and every record is in a file with its date. -/
structure Sorted (files : List LogFile) : Prop where
  named : ∀ file ∈ files, ∃ date seqno, date.Valid ∧ date.year ≤ 9999 ∧ file.name = fileName date seqno
  dated : ∀ file ∈ files, ∀ record ∈ file.records, ∃ seqno, file.name = fileName record.date seqno

section Files

variable {files other : List LogFile} {name : Text} {record : Record}

theorem Sorted.subset (sorted : Sorted files) (inside : ∀ file ∈ other, file ∈ files) : Sorted other :=
  ⟨fun file member => sorted.named file (inside file member), fun file member => sorted.dated file (inside file member)⟩

theorem Sorted.create (sorted : Sorted files) (time : Int) {seqno : Nat} (named : name = fileName record.date seqno) :
    Sorted (create name time files) := by
  constructor
  · intro file member
    rcases mem_create member with old | rfl
    · exact sorted.named file old
    · exact ⟨record.date, seqno, record.valid, record.early, named⟩
  · intro file member
    rcases mem_create member with old | rfl
    · exact sorted.dated file old
    · intro written inside
      cases inside

theorem Sorted.append (sorted : Sorted files) {seqno : Nat} (named : name = fileName record.date seqno) :
    Sorted (append name record files) := by
  constructor
  · intro file member
    obtain ⟨before, old, same, -⟩ := mem_append member
    rw [← same]
    exact sorted.named before old
  · intro file member written inside
    obtain ⟨before, old, same, ⟨-, rfl⟩ | ⟨here, records, -⟩⟩ := mem_append member
    · exact sorted.dated file old written inside
    · rw [records, List.mem_append, List.mem_singleton] at inside
      rw [← same]
      rcases inside with early | rfl
      · exact sorted.dated before old written early
      · exact ⟨seqno, here.trans named⟩

end Files

section Names

variable {logger : FileLogger} {files : List LogFile} {record : Record}

theorem FileLogger.chooseName_rotation (file : Option FileAttr) (date : Date) (logger : FileLogger) :
    (logger.chooseName file date).rotation = logger.rotation := by
  unfold chooseName
  split
  · rfl
  · split
    · rfl
    · split_ifs <;> rfl

/-- The name that is chosen has the date of the record. -/
theorem FileLogger.chooseName_dated (sorted : Sorted files) (record : Record) (logger : FileLogger) :
    ∃ seqno, (logger.chooseName (newest (listing files)) record.date).name = fileName record.date seqno := by
  cases found : newest (listing files) with
  | none => exact ⟨logger.seqno, rfl⟩
  | some attr =>
      obtain ⟨file, member, listed, rfl⟩ := mem_listing (newest_mem found).1
      obtain ⟨date, seqno, valid, early, named⟩ := sorted.named file member
      have small : seqno < 10 ^ 6 := by
        rw [named] at listed
        exact (isLogName_iff valid early).1 listed
      rw [chooseName_fileName named valid early small]
      split_ifs with other full
      · exact ⟨0, rfl⟩
      · exact ⟨seqno + 1, rfl⟩
      · rw [not_not.1 other] at named
        exact ⟨seqno, named⟩

end Names

/-- The open file has the date of the last record, and its day is the one that the logger remembers. -/
structure Journal.Daily (rotation : Rotation) (journal : Journal) : Prop where
  config : journal.logger.rotation = some rotation
  sorted : Sorted journal.files
  current : journal.logger.isOpen = true → ∃ last, journal.last = some (journal.logger.name, last) ∧
    journal.logger.lastDay = last.date.day ∧ ∃ seqno, journal.logger.name = fileName last.date seqno

/-- The logger before the write has a file with the date of the record. -/
structure Ready (rotation : Rotation) (record : Record) (ready : FileLogger × List LogFile) : Prop where
  config : ready.1.rotation = some rotation
  sorted : Sorted ready.2
  day : ready.1.lastDay = record.date.day
  name : ∃ seqno, ready.1.name = fileName record.date seqno

section Steps

variable {rotation : Rotation} {logger : FileLogger} {files : List LogFile} {record : Record} {journal : Journal}

theorem ready_openFile (config : logger.rotation = some rotation) (sorted : Sorted files) (now : Int) :
    Ready rotation record (logger.openFile now record files) := by
  have chosen := logger.chooseName_dated sorted record
  obtain ⟨seqno, named⟩ := chosen
  refine ⟨?_, ?_, rfl, seqno, named⟩
  · exact (logger.chooseName_rotation _ _).trans config
  · exact (sorted.subset (purge_subset logger.retention now files)).create record.time named

theorem ready_goOn (config : logger.rotation = some rotation) (sorted : Sorted files) (now : Int) :
    Ready rotation record (logger.goOn now record files) := by
  refine ⟨?_, ?_, rfl, logger.seqno, rfl⟩
  · change logger.close.rotation = _
    unfold FileLogger.close
    split <;> exact config
  · exact (sorted.subset (purge_subset logger.retention now files)).create record.time rfl

/-- The logger rotates on another day, and on the same day the file has the date of the record. -/
theorem ready_rotate (daily : journal.Daily rotation) (isDaily : rotation.daily = true) (now : Int)
    (isOpen : journal.logger.isOpen = true) (keeps : journal.KeepsDate record) :
    Ready rotation record (journal.logger.rotate now record journal.files) := by
  obtain ⟨last, written, day, seqno, named⟩ := daily.current isOpen
  unfold FileLogger.rotate
  split_ifs with another full
  · apply ready_goOn
    · exact daily.config
    · exact daily.sorted
  · apply ready_goOn
    · exact daily.config
    · exact daily.sorted
  · have sameDay : last.date.day = record.date.day := by
      rw [FileLogger.rotateDaily, daily.config] at another
      simp only [Option.any_some, isDaily, Bool.true_and, bne_iff_ne, ne_eq, not_not] at another
      rw [another, day]
    have same : last.date = record.date := (keeps _ written isOpen sameDay).resolve_right full
    exact ⟨daily.config, daily.sorted, day.trans sameDay, seqno, named.trans (by rw [same])⟩

theorem Journal.Daily.ready (daily : journal.Daily rotation) (isDaily : rotation.daily = true) (now : Int)
    (keeps : journal.KeepsDate record) : Ready rotation record (journal.ready now record) := by
  unfold Journal.ready
  split_ifs with isOpen
  · exact ready_rotate daily isDaily now isOpen keeps
  · exact ready_openFile daily.config daily.sorted now

theorem Journal.Daily.write (daily : journal.Daily rotation) (isDaily : rotation.daily = true) (now : Int)
    (wanted : record.wanted = true) (keeps : journal.KeepsDate record) :
    (journal.write now record).Daily rotation := by
  have ready := daily.ready isDaily now keeps
  obtain ⟨seqno, named⟩ := ready.name
  constructor
  · rw [write_logger wanted]
    exact ready.config
  · rw [write_files wanted]
    exact ready.sorted.append named
  · intro isOpen
    rw [write_logger wanted, write_last wanted]
    exact ⟨record, rfl, ready.day, seqno, named⟩

theorem FileLogger.reset_rotation (logger : FileLogger) : logger.reset.rotation = logger.rotation := by
  unfold reset close
  split <;> rfl

theorem FileLogger.reset_isOpen (logger : FileLogger) : logger.reset.isOpen = false := by
  unfold reset close
  split
  · rfl
  · rename_i closed
    exact Bool.eq_false_iff.2 closed

/-- Every call of a run keeps the files sorted by their dates. -/
theorem Journal.Run.daily {retention : Option Retention} (run : Run KeepsDate (some rotation) retention journal)
    (isDaily : rotation.daily = true) : journal.Daily rotation := by
  induction run with
  | start =>
      refine ⟨rfl, ⟨?_, ?_⟩, ?_⟩
      · intro file member
        cases member
      · intro file member
        cases member
      · intro isOpen
        cases isOpen
  | write now run wanted keeps daily => exact daily.write isDaily now wanted keeps
  | skip now run unwanted daily =>
      rw [log_unwanted unwanted]
      exact daily
  | reset run daily =>
      refine ⟨(FileLogger.reset_rotation _).trans daily.config, daily.sorted, ?_⟩
      intro isOpen
      rw [FileLogger.reset_isOpen] at isOpen
      cases isOpen
  | restart run daily =>
      refine ⟨rfl, daily.sorted, ?_⟩
      intro isOpen
      cases isOpen
  | list run order daily =>
      exact ⟨daily.config, daily.sorted.subset fun file member => order.mem_iff.1 member, daily.current⟩

end Steps

section Samples

end Samples

/-- The names of the format are ordered by their dates and their numbers. -/
def Precedes (first : Date) (less : Nat) (second : Date) (more : Nat) : Prop :=
  first < second ∨ (first = second ∧ less < more)

/-- The name is one of the format before another one. -/
def NamedBefore (name : Text) (date : Date) (seqno : Nat) : Prop :=
  ∃ earlier less, earlier.Valid ∧ earlier.year ≤ 9999 ∧ name = fileName earlier less ∧
    Precedes earlier less date seqno

/-- The files of the directory, of which this one was written last and has the last name. -/
structure Account (limit : Nat) (files : List LogFile) (date : Date) (seqno time : Nat) : Prop where
  distinct : (files.map LogFile.name).Nodup
  current : ∃ file ∈ files, file.name = fileName date seqno ∧ file.mtime = time
  others : ∀ file ∈ files, file.name ≠ fileName date seqno → file.mtime < time ∧ NamedBefore file.name date seqno
  bounded : ∀ file ∈ files, (file.records.dropLast.map Record.size).sum ≤ limit

section Names

variable {limit : Nat} {files : List LogFile} {date next : Date} {seqno later time : Nat} {name : Text}

theorem Precedes.trans {earlier : Date} {less : Nat} (before : Precedes earlier less date seqno)
    (behind : Precedes date seqno next later) : Precedes earlier less next later := by
  rcases before with before | ⟨rfl, before⟩
  · rcases behind with behind | ⟨rfl, -⟩
    · exact Or.inl (Date.lt_trans before behind)
    · exact Or.inl before
  · rcases behind with behind | ⟨rfl, behind⟩
    · exact Or.inl behind
    · exact Or.inr ⟨rfl, before.trans behind⟩

theorem NamedBefore.ne (before : NamedBefore name date seqno) (valid : date.Valid) (early : date.year ≤ 9999) :
    name ≠ fileName date seqno := by
  obtain ⟨earlier, less, earlierValid, earlierEarly, rfl, precedes⟩ := before
  intro same
  obtain ⟨rfl, rfl⟩ := fileName_injective earlierValid earlierEarly valid early same
  rcases precedes with before | ⟨-, before⟩
  · exact Date.lt_irrefl _ before
  · exact lt_irrefl _ before

/-- All names of the directory come before a later one. -/
theorem Account.namedBefore (account : Account limit files date seqno time) (valid : date.Valid)
    (early : date.year ≤ 9999) (precedes : Precedes date seqno next later) :
    ∀ file ∈ files, NamedBefore file.name next later := by
  intro file member
  by_cases same : file.name = fileName date seqno
  · exact ⟨date, seqno, valid, early, same, precedes⟩
  · obtain ⟨earlier, less, earlierValid, earlierEarly, named, before⟩ := (account.others file member same).2
    exact ⟨earlier, less, earlierValid, earlierEarly, named, before.trans precedes⟩

theorem Account.mtime_le (account : Account limit files date seqno time) : ∀ file ∈ files, file.mtime ≤ time := by
  intro file member
  by_cases same : file.name = fileName date seqno
  · obtain ⟨current, inside, named, mtime⟩ := account.current
    have equal := List.inj_on_of_nodup_map account.distinct member inside (same.trans named.symm)
    rw [equal, mtime]
  · exact (account.others file member same).1.le

/-- The file that was written last is the newest one that the directory lists. -/
theorem Account.newest (account : Account limit files date seqno time) (valid : date.Valid)
    (early : date.year ≤ 9999) (small : seqno < 10 ^ 6) :
    ∃ file ∈ files, file.name = fileName date seqno ∧ Log.newest (listing files) = some file.attr := by
  obtain ⟨current, inside, named, mtime⟩ := account.current
  have listed : current.attr ∈ listing files := by
    apply List.mem_map_of_mem
    rw [List.mem_filter, named, isLogName_iff valid early]
    exact ⟨inside, small⟩
  refine ⟨current, inside, named, ?_⟩
  cases found : Log.newest (listing files) with
  | none =>
      rcases newest_loop (listing files) (none, -1) with ⟨same, older⟩ | ⟨best, -, same, -⟩
      · have negative := older current.attr listed
        change current.mtime ≤ -1 at negative
        omega
      · rw [Log.newest, same] at found
        cases found
  | some attr =>
      obtain ⟨member, older⟩ := newest_mem found
      obtain ⟨file, there, -, rfl⟩ := mem_listing member
      have newer := older current.attr listed
      change current.mtime ≤ file.mtime at newer
      by_cases same : file.name = fileName date seqno
      · rw [List.inj_on_of_nodup_map account.distinct there inside (same.trans named.symm)]
      · have before := (account.others file there same).1
        omega

end Names

/-- The logger has a file of the format for the record, which is new or not behind the limit. -/
structure Prepared (limit : Nat) (files : List LogFile) (record : Record) (date : Date) (seqno : Nat)
    (ready : FileLogger × List LogFile) : Prop where
  name : ready.1.name = fileName date seqno
  number : ready.1.seqno = seqno
  day : ready.1.lastDay = date.day
  isOpen : ready.1.isOpen = true
  positive : 0 ≤ ready.1.size
  distinct : (ready.2.map LogFile.name).Nodup
  found : ∃ file ∈ ready.2, file.name = fileName date seqno
  there : ∀ file ∈ ready.2, file ∈ files ∨ file = ⟨fileName date seqno, [], record.time⟩
  others : ∀ file ∈ files, file.name ≠ fileName date seqno → NamedBefore file.name date seqno
  same : ∀ file ∈ files, file.name = fileName date seqno → file.size ≤ limit ∧ (file.size : Int) ≤ ready.1.size

section Writes

variable {limit : Nat} {files : List LogFile} {record : Record} {date : Date} {seqno : Nat}
  {ready : FileLogger × List LogFile} {name : Text}

theorem append_names (name : Text) (record : Record) (files : List LogFile) :
    (append name record files).map LogFile.name = files.map LogFile.name := by
  rw [append, List.map_map]
  apply List.map_congr_left
  intro file member
  dsimp only [Function.comp]
  split_ifs <;> rfl

theorem create_names (distinct : (files.map LogFile.name).Nodup) (name : Text) (time : Int) :
    ((create name time files).map LogFile.name).Nodup := by
  unfold create
  split_ifs with there
  · exact distinct
  · rw [List.map_append, List.nodup_append]
    refine ⟨distinct, List.nodup_singleton _, ?_⟩
    intro first inside second single same
    obtain ⟨file, member, rfl⟩ := List.mem_map.1 inside
    rw [List.map_singleton, List.mem_singleton] at single
    apply there
    rw [List.any_eq_true]
    exact ⟨file, member, beq_iff_eq.2 (same.trans single)⟩

/-- The size of the file before the write is within the limit. -/
theorem Prepared.file_size (prepared : Prepared limit files record date seqno ready) :
    ∀ file ∈ ready.2, file.name = fileName date seqno → file.size ≤ limit ∧ (file.size : Int) ≤ ready.1.size := by
  intro file member named
  rcases prepared.there file member with old | rfl
  · exact prepared.same file old named
  · exact ⟨Nat.zero_le _, prepared.positive⟩

theorem size_append {before file : LogFile} (records : file.records = before.records ++ [record]) :
    file.size = before.size + record.size := by
  rw [LogFile.size, records, List.map_append, List.sum_append, List.map_singleton, List.sum_singleton]
  rfl

/-- After the write the file of the record is the last one. -/
theorem Prepared.account (prepared : Prepared limit files record date seqno ready)
    (bounded : ∀ file ∈ files, (file.records.dropLast.map Record.size).sum ≤ limit)
    (times : ∀ file ∈ files, file.mtime < record.time) :
    Account limit (append ready.1.name record ready.2) date seqno record.time := by
  have named := prepared.name
  constructor
  · rw [append_names]
    exact prepared.distinct
  · obtain ⟨file, member, same⟩ := prepared.found
    refine ⟨_, List.mem_map_of_mem member, ?_⟩
    rw [named, if_pos same]
    exact ⟨same, rfl⟩
  · intro file member other
    obtain ⟨before, inside, sameName, ⟨-, rfl⟩ | ⟨here, -⟩⟩ := mem_append member
    · rcases prepared.there _ inside with old | rfl
      · exact ⟨times _ old, prepared.others _ old other⟩
      · exact absurd rfl other
    · exact absurd (sameName.symm.trans (here.trans named)) other
  · intro file member
    obtain ⟨before, inside, sameName, ⟨-, rfl⟩ | ⟨here, records, -⟩⟩ := mem_append member
    · rcases prepared.there _ inside with old | rfl
      · exact bounded _ old
      · exact Nat.zero_le _
    · rw [records, List.dropLast_concat]
      exact (prepared.file_size before inside (here.trans named)).1

/-- The size that the logger remembers is at least the one of its file. -/
theorem Prepared.size_le (prepared : Prepared limit files record date seqno ready) :
    ∀ file ∈ append ready.1.name record ready.2, file.name = fileName date seqno →
      (file.size : Int) ≤ ready.1.size + record.size := by
  intro file member same
  obtain ⟨before, inside, sameName, ⟨elsewhere, rfl⟩ | ⟨here, records, -⟩⟩ := mem_append member
  · exact absurd (same.trans prepared.name.symm) elsewhere
  · have bound := (prepared.file_size before inside (here.trans prepared.name)).2
    rw [size_append records]
    push_cast
    omega

end Writes

/-- The last file holds the account of the directory, and an open logger knows its size and its name. -/
structure Journal.Limited (rotation : Rotation) (limit : Nat) (journal : Journal) : Prop where
  config : journal.logger.rotation = some rotation
  closed : journal.logger.isOpen = false → journal.logger.size = 0
  fresh : journal.last = none → journal.files = [] ∧ journal.logger.seqno = 0 ∧ journal.logger.isOpen = false
  written : ∀ name last, journal.last = some (name, last) → ∃ date seqno, date.Valid ∧ date.year ≤ 9999 ∧
    ¬last.date < date ∧ seqno ≤ journal.rotations ∧ name = fileName date seqno ∧
    Account limit journal.files date seqno last.time ∧
    (journal.logger.isOpen = true → journal.logger.name = name ∧ journal.logger.seqno = seqno ∧
      journal.logger.lastDay = date.day ∧ ∀ file ∈ journal.files, file.name = name →
        (file.size : Int) ≤ journal.logger.size)

section Steps

variable {rotation : Rotation} {limit : Nat} {journal : Journal} {logger : FileLogger} {files : List LogFile}
  {record : Record} {date : Date} {seqno : Nat}

/-- A logger that chose its name has the file after the purge. -/
theorem prepared_create (retention : Option Retention) (now : Int) (distinct : (files.map LogFile.name).Nodup)
    (name : logger.name = fileName date seqno) (number : logger.seqno = seqno) (day : logger.lastDay = date.day)
    (isOpen : logger.isOpen = true) (positive : 0 ≤ logger.size)
    (others : ∀ file ∈ files, file.name ≠ fileName date seqno → NamedBefore file.name date seqno)
    (same : ∀ file ∈ files, file.name = fileName date seqno → file.size ≤ limit ∧ (file.size : Int) ≤ logger.size) :
    Prepared limit files record date seqno
      (logger, create logger.name record.time (purge retention now files)) := by
  have kept := (List.Sublist.map LogFile.name (purge_sublist retention now files)).nodup distinct
  refine ⟨name, number, day, isOpen, positive, create_names kept _ _, ?_, ?_, others, same⟩
  · obtain ⟨file, member, named⟩ := exists_create logger.name record.time (purge retention now files)
    exact ⟨file, member, named.trans name⟩
  · intro file member
    rw [name] at member
    rcases mem_create member with old | new
    · exact Or.inl (purge_subset retention now files file old)
    · exact Or.inr new

/-- A name behind all those of the directory is new. -/
theorem prepared_new (retention : Option Retention) (now : Int) (distinct : (files.map LogFile.name).Nodup)
    (name : logger.name = fileName record.date seqno) (number : logger.seqno = seqno)
    (day : logger.lastDay = record.date.day) (isOpen : logger.isOpen = true) (positive : 0 ≤ logger.size)
    (before : ∀ file ∈ files, NamedBefore file.name record.date seqno) :
    Prepared limit files record record.date seqno
      (logger, create logger.name record.time (purge retention now files)) := by
  apply prepared_create retention now distinct name number day isOpen positive
  · exact fun file member _ => before file member
  · intro file member same
    exact absurd same ((before file member).ne record.valid record.early)

/-- The number of the write counts where its file is another one than before. -/
theorem Journal.rotations_write (wanted : record.wanted = true) (now : Int) (journal : Journal) :
    (journal.write now record).rotations = journal.rotations +
      if journal.last.any fun last => last.1 ≠ (journal.ready now record).1.name then 1 else 0 := by
  rw [write, log_eq wanted]

/-- A prepared write keeps the account. -/
theorem Journal.Limited.of_prepared {now : Int} (wanted : record.wanted = true)
    (prepared : Prepared limit journal.files record date seqno (journal.ready now record))
    (config : (journal.ready now record).1.rotation = some rotation) (valid : date.Valid) (early : date.year ≤ 9999)
    (behind : ¬record.date < date) (counted : seqno ≤ (journal.write now record).rotations)
    (bounded : ∀ file ∈ journal.files, (file.records.dropLast.map Record.size).sum ≤ limit)
    (times : ∀ file ∈ journal.files, file.mtime < record.time) : (journal.write now record).Limited rotation limit := by
  constructor
  · rw [write_logger wanted]
    exact config
  · intro closed
    rw [write_logger wanted] at closed
    dsimp only at closed
    rw [prepared.isOpen] at closed
    cases closed
  · intro none
    rw [write_last wanted] at none
    cases none
  · intro name last written
    rw [write_last wanted] at written
    obtain ⟨rfl, rfl⟩ := Prod.mk.inj (Option.some.inj written)
    refine ⟨date, seqno, valid, early, behind, counted, prepared.name, ?_, ?_⟩
    · rw [write_files wanted]
      exact prepared.account bounded times
    · intro _
      rw [write_logger wanted, write_files wanted]
      refine ⟨rfl, prepared.number, prepared.day, ?_⟩
      intro file member same
      exact prepared.size_le file member (same.trans prepared.name)

/-- What a write needs of the directory before it. -/
structure Journal.Prepares (rotation : Rotation) (limit : Nat) (now : Int) (record : Record) (journal : Journal)
    (date : Date) (seqno : Nat) : Prop where
  prepared : Prepared limit journal.files record date seqno (journal.ready now record)
  config : (journal.ready now record).1.rotation = some rotation
  valid : date.Valid
  early : date.year ≤ 9999
  behind : ¬record.date < date
  counted : seqno ≤ journal.rotations ∨ (seqno ≤ journal.rotations + 1 ∧
    ∃ name last, journal.last = some (name, last) ∧ name ≠ fileName date seqno)

theorem Journal.Prepares.counted_write {now : Int} (prepares : journal.Prepares rotation limit now record date seqno)
    (wanted : record.wanted = true) : seqno ≤ (journal.write now record).rotations := by
  rw [rotations_write wanted, prepares.prepared.name]
  rcases prepares.counted with few | ⟨few, name, last, written, other⟩
  · exact few.trans (Nat.le_add_right _ _)
  · rw [written, Option.any_some, if_pos (decide_eq_true other)]
    exact few

/-- A new name with the date of the record is behind all others. -/
theorem prepares_new {now : Int} {last : Text × Record} {oldDate : Date} {oldSeqno time : Nat}
    (ready : journal.ready now record =
      (logger, create logger.name record.time (purge journal.logger.retention now journal.files)))
    (config : logger.rotation = some rotation) (written : journal.last = some last)
    (oldName : last.1 = fileName oldDate oldSeqno) (valid : oldDate.Valid) (early : oldDate.year ≤ 9999)
    (account : Account limit journal.files oldDate oldSeqno time) (precedes : Precedes oldDate oldSeqno record.date seqno)
    (few : seqno ≤ journal.rotations + 1) (name : logger.name = fileName record.date seqno)
    (number : logger.seqno = seqno) (day : logger.lastDay = record.date.day) (isOpen : logger.isOpen = true)
    (positive : 0 ≤ logger.size) : journal.Prepares rotation limit now record record.date seqno := by
  have before := account.namedBefore valid early precedes
  have oldBefore : NamedBefore last.1 record.date seqno := ⟨oldDate, oldSeqno, valid, early, oldName, precedes⟩
  refine ⟨?_, ?_, record.valid, record.early, Date.lt_irrefl _, Or.inr ⟨few, last.1, last.2, written, ?_⟩⟩
  · rw [ready]
    exact prepared_new _ now account.distinct name number day isOpen positive before
  · rw [ready]
    exact config
  · exact oldBefore.ne record.valid record.early

/-- A logger that does not rotate has a file within the limit. -/
theorem size_within (config : logger.rotation = some rotation) (bySize : rotation.bySize = true)
    (sized : rotation.size = limit) {size : Int} (room : ¬logger.rotateBySize size = true) : size ≤ limit := by
  rw [FileLogger.rotateBySize, config, Option.any_some, bySize, sized, Bool.true_and, decide_eq_true_eq, not_lt] at room
  exact room

/-- A logger that opens its file goes on with the newest one, or it takes a name behind all others. -/
theorem Journal.Limited.open (limited : journal.Limited rotation limit) (bySize : rotation.bySize = true)
    (sized : rotation.size = limit) (now : Int) (later : journal.Later record)
    (few : journal.rotations < 10 ^ 6) (closed : journal.logger.isOpen = false) :
    ∃ date seqno, journal.Prepares rotation limit now record date seqno := by
  have size := limited.closed closed
  have ready : journal.ready now record = journal.logger.openFile now record journal.files := by
    rw [Journal.ready, closed]
    rfl
  cases last : journal.last with
  | none =>
      obtain ⟨empty, zero, -⟩ := limited.fresh last
      have nothing : newest (listing journal.files) = none := by rw [empty]; rfl
      refine ⟨record.date, 0, ?_, ?_, record.valid, record.early, Date.lt_irrefl _, Or.inl (Nat.zero_le _)⟩
      · rw [ready, FileLogger.openFile, nothing, FileLogger.chooseName, zero]
        apply prepared_new
        · rw [empty]
          exact List.nodup_nil
        · rfl
        · rfl
        · rfl
        · rfl
        · exact size.ge
        · rw [empty]
          intro file member
          cases member
      · rw [ready, FileLogger.openFile, nothing]
        exact limited.config
  | some last' =>
      obtain ⟨name, written⟩ := last'
      obtain ⟨date, seqno, valid, early, behind, counted, named, account, -⟩ := limited.written name written last
      have notBehind := Date.not_lt_trans behind (later _ last).2
      have small := counted.trans_lt few
      obtain ⟨file, member, fileNamed, found⟩ := account.newest valid early small
      have attrNamed : file.attr.name = fileName date seqno := fileNamed
      rw [FileLogger.openFile, found, FileLogger.chooseName_fileName attrNamed valid early small] at ready
      by_cases other : date ≠ record.date
      · rw [if_pos other] at ready
        exact ⟨record.date, 0, prepares_new ready limited.config last named valid early account
          (Or.inl (Date.lt_of_not_lt other notBehind)) (Nat.zero_le _) rfl rfl rfl rfl size.ge⟩
      rw [if_neg other] at ready
      have same := not_not.1 other
      by_cases full : journal.logger.rotateBySize file.attr.size = true
      · rw [if_pos full] at ready
        exact ⟨record.date, seqno + 1, prepares_new ready limited.config last named valid early account
          (Or.inr ⟨same, seqno.lt_succ_self⟩) (Nat.succ_le_succ counted) rfl rfl rfl rfl size.ge⟩
      · rw [if_neg full] at ready
        have within : (file.size : Int) ≤ limit := size_within limited.config bySize sized full
        refine ⟨date, seqno, ?_, ?_, valid, early, notBehind, Or.inl counted⟩
        · rw [ready]
          apply prepared_create
          · exact account.distinct
          · exact fileNamed
          · rfl
          · exact congrArg Date.day same.symm
          · rfl
          · exact Int.natCast_nonneg _
          · exact fun other inside differs => (account.others other inside differs).2
          · intro other inside sameName
            have equal := List.inj_on_of_nodup_map account.distinct inside member (sameName.trans fileNamed.symm)
            rw [equal]
            exact ⟨by exact_mod_cast within, le_rfl⟩
        · rw [ready]
          exact limited.config

theorem rotateDaily_ne (config : logger.rotation = some rotation) {day : Nat}
    (another : logger.rotateDaily day = true) : day ≠ logger.lastDay := by
  rw [FileLogger.rotateDaily, config, Option.any_some, Bool.and_eq_true] at another
  exact bne_iff_ne.1 another.2

/-- A logger with an open file stays in it within the limit, or it goes on with a name behind all others. -/
theorem Journal.Limited.rotates (limited : journal.Limited rotation limit) (bySize : rotation.bySize = true)
    (sized : rotation.size = limit) (now : Int) (later : journal.Later record)
    (isOpen : journal.logger.isOpen = true) : ∃ date seqno, journal.Prepares rotation limit now record date seqno := by
  have ready : journal.ready now record = journal.logger.rotate now record journal.files := by
    rw [Journal.ready, isOpen]
    rfl
  cases last : journal.last with
  | none =>
      rw [(limited.fresh last).2.2] at isOpen
      cases isOpen
  | some last' =>
      obtain ⟨name, written⟩ := last'
      obtain ⟨date, seqno, valid, early, behind, counted, named, account, current⟩ := limited.written name written last
      obtain ⟨sameName, number, day, sizes⟩ := current isOpen
      have notBehind := Date.not_lt_trans behind (later _ last).2
      have closed : ∀ number, ({ journal.logger with seqno := number } : FileLogger).close =
          { journal.logger with seqno := number, isOpen := false, size := 0 } := by
        intro number
        rw [FileLogger.close, if_pos isOpen]
      rw [FileLogger.rotate] at ready
      by_cases another : journal.logger.rotateDaily record.date.day = true
      · rw [if_pos another, FileLogger.goOn, closed] at ready
        have other : date ≠ record.date := by
          rintro rfl
          exact rotateDaily_ne limited.config another day.symm
        exact ⟨record.date, 0, prepares_new ready limited.config last named valid early account
          (Or.inl (Date.lt_of_not_lt other notBehind)) (Nat.zero_le _) rfl rfl rfl rfl le_rfl⟩
      rw [if_neg another] at ready
      by_cases full : journal.logger.rotateBySize journal.logger.size = true
      · rw [if_pos full, FileLogger.goOn, closed, number] at ready
        have precedes : Precedes date seqno record.date (seqno + 1) := by
          by_cases same : date = record.date
          · exact Or.inr ⟨same, seqno.lt_succ_self⟩
          · exact Or.inl (Date.lt_of_not_lt same notBehind)
        exact ⟨record.date, seqno + 1, prepares_new ready limited.config last named valid early account precedes
          (Nat.succ_le_succ counted) rfl rfl rfl rfl le_rfl⟩
      · rw [if_neg full] at ready
        have within := size_within limited.config bySize sized full
        obtain ⟨file, member, fileNamed, -⟩ := account.current
        refine ⟨date, seqno, ?_, ?_, valid, early, notBehind, Or.inl counted⟩
        · rw [ready]
          refine ⟨sameName.trans named, number, day, isOpen, ?_, account.distinct, ⟨file, member, fileNamed⟩,
            fun other inside => Or.inl inside, fun other inside differs => (account.others other inside differs).2, ?_⟩
          · exact (Int.natCast_nonneg _).trans (sizes file member (fileNamed.trans named.symm))
          · intro other inside same
            have small := sizes other inside (same.trans named.symm)
            exact ⟨by exact_mod_cast small.trans within, small⟩
        · rw [ready]
          exact limited.config

/-- Without its last record every file is within the limit. -/
theorem Journal.Limited.bounded (limited : journal.Limited rotation limit) :
    ∀ file ∈ journal.files, (file.records.dropLast.map Record.size).sum ≤ limit := by
  cases last : journal.last with
  | none =>
      rw [(limited.fresh last).1]
      intro file member
      cases member
  | some written =>
      obtain ⟨date, seqno, -, -, -, -, -, account, -⟩ := limited.written written.1 written.2 last
      exact account.bounded

/-- A write keeps the account. -/
theorem Journal.Limited.write (limited : journal.Limited rotation limit) (bySize : rotation.bySize = true)
    (sized : rotation.size = limit) (now : Int) (wanted : record.wanted = true) (later : journal.Later record)
    (few : journal.rotations < 10 ^ 6) : (journal.write now record).Limited rotation limit := by
  obtain ⟨date, seqno, prepares⟩ : ∃ date seqno, journal.Prepares rotation limit now record date seqno := by
    cases isOpen : journal.logger.isOpen with
    | true => exact limited.rotates bySize sized now later isOpen
    | false => exact limited.open bySize sized now later few isOpen
  apply Journal.Limited.of_prepared wanted prepares.prepared prepares.config prepares.valid prepares.early
    prepares.behind (prepares.counted_write wanted)
  · exact limited.bounded
  · cases last : journal.last with
    | none =>
        rw [(limited.fresh last).1]
        intro file member
        cases member
    | some written =>
        obtain ⟨date, seqno, -, -, -, -, -, account, -⟩ := limited.written written.1 written.2 last
        have behind := (later _ last).1
        intro file member
        exact (account.mtime_le file member).trans_lt (by exact_mod_cast behind)

/-- A logger that is not open may be any of the same rotation. -/
theorem Journal.Limited.closed_logger (limited : journal.Limited rotation limit)
    (config : logger.rotation = some rotation) (size : logger.size = 0) (closed : logger.isOpen = false)
    (seqno : journal.last = none → logger.seqno = 0) : ({ journal with logger := logger } : Journal).Limited rotation limit := by
  refine ⟨config, fun _ => size, fun none => ⟨(limited.fresh none).1, seqno none, closed⟩, ?_⟩
  intro name last written
  obtain ⟨date, seqno, valid, early, behind, counted, named, account, -⟩ := limited.written name last written
  refine ⟨date, seqno, valid, early, behind, counted, named, account, fun isOpen => ?_⟩
  dsimp only at isOpen
  rw [closed] at isOpen
  cases isOpen

theorem Account.perm {other : List LogFile} {time : Nat} (account : Account limit files date seqno time)
    (order : other.Perm files) : Account limit other date seqno time := by
  refine ⟨((order.map LogFile.name).nodup_iff).2 account.distinct, ?_, ?_, ?_⟩
  · obtain ⟨file, member, current⟩ := account.current
    exact ⟨file, order.mem_iff.2 member, current⟩
  · exact fun file member => account.others file (order.mem_iff.1 member)
  · exact fun file member => account.bounded file (order.mem_iff.1 member)

theorem Journal.rotations_le_write (wanted : record.wanted = true) (now : Int) (journal : Journal) :
    journal.rotations ≤ (journal.write now record).rotations := by
  rw [rotations_write wanted]
  exact Nat.le_add_right _ _

/-- Every call of a run with few rotations keeps the account. -/
theorem Journal.Run.limited {retention : Option Retention} (run : Run Later (some rotation) retention journal)
    (bySize : rotation.bySize = true) (sized : rotation.size = limit) (few : journal.rotations < 10 ^ 6) :
    journal.Limited rotation limit := by
  induction run with
  | start =>
      refine ⟨rfl, fun _ => rfl, fun _ => ⟨rfl, rfl, rfl⟩, ?_⟩
      intro name last written
      cases written
  | write now run wanted later limited =>
      have before := (rotations_le_write wanted now _).trans_lt few
      exact (limited before).write bySize sized now wanted later before
  | skip now run unwanted limited =>
      rw [log_unwanted unwanted]
      exact limited few
  | reset run limited =>
      have kept := limited few
      unfold FileLogger.reset FileLogger.close
      split_ifs with isOpen
      · exact kept.closed_logger kept.config rfl rfl fun none => (kept.fresh none).2.1
      · exact kept
  | restart run limited =>
      exact (limited few).closed_logger rfl rfl rfl fun _ => rfl
  | list run order limited =>
      have kept := limited few
      refine ⟨kept.config, kept.closed, ?_, ?_⟩
      · intro none
        obtain ⟨empty, rest⟩ := kept.fresh none
        rw [empty] at order
        exact ⟨order.eq_nil, rest⟩
      · intro name last written
        obtain ⟨date, seqno, valid, early, behind, counted, named, account, current⟩ := kept.written name last written
        refine ⟨date, seqno, valid, early, behind, counted, named, account.perm order, fun isOpen => ?_⟩
        obtain ⟨sameName, number, day, sizes⟩ := current isOpen
        exact ⟨sameName, number, day, fun file member => sizes file (order.mem_iff.1 member)⟩

end Steps

end SimpleNFast.Log
