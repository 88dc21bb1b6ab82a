import SimpleNFast.Proof.Rdb.FreeDiskPages

namespace SimpleNFast.Rdb.FreeDiskPageMgr

variable {reply : DiskReply} {offset : Int} {mgr next : FreeDiskPageMgr} {file : DiskFile}

theorem length_diskImage (stack : List Int) : (diskImage stack).length = 8 * stack.length := by
  induction stack with
  | nil => rfl
  | cons top rest inductionHypothesis =>
      rw [diskImage, List.length_append, ByteFile.length_encode, inductionHypothesis, List.length_cons]
      omega

theorem diskImage_append (above below : List Int) : diskImage (above ++ below) = diskImage below ++ diskImage above := by
  induction above with
  | nil => simp [diskImage]
  | cons top rest inductionHypothesis => simp [diskImage, inductionHypothesis]

section Failures

/-- A truncation that fails changes neither the content nor the size. -/
theorem removeOffset_fails (mgr : FreeDiskPageMgr) (backing : mgr.file = some file) (large : 8 ≤ mgr.fsize)
    (fails : TruncationFails reply) :
    ∃ retval after, removeOffsetFromFile reply mgr = (retval, { mgr with file := some after }) ∧
      retval ≠ .E_ok ∧ after.content = file.content := by
  have notNegative : ¬mgr.fsize - 8 < 0 := by omega
  unfold removeOffsetFromFile DiskFile.truncate DiskFile.seek
  rw [backing]
  dsimp only
  rw [if_neg notNegative]
  cases seeks : reply.seeks with
  | false => exact ⟨.E_seek_failed, file, rfl, by decide, rfl⟩
  | true =>
      have cuts : reply.cuts = false := fails.resolve_left (by simp [seeks])
      exact ⟨.E_trunc_failed, { file with pointer := (mgr.fsize - 8).toNat }, by simp [cuts], by decide, rfl⟩

/-- A truncation that succeeds removes the last eight bytes. -/
theorem removeOffset_succeeds (mgr : FreeDiskPageMgr) (backing : mgr.file = some file) (large : 8 ≤ mgr.fsize)
    (succeeds : ¬TruncationFails reply) :
    removeOffsetFromFile reply mgr = (.E_ok, { mgr with
      file := some ⟨ByteFile.truncate file.content (mgr.fsize - 8).toNat, (mgr.fsize - 8).toNat⟩
      fsize := mgr.fsize - 8 }) := by
  have notNegative : ¬mgr.fsize - 8 < 0 := by omega
  rw [TruncationFails, not_or, Bool.not_eq_false, Bool.not_eq_false] at succeeds
  unfold removeOffsetFromFile DiskFile.truncate DiskFile.seek
  rw [backing]
  dsimp only
  rw [if_neg notNegative, succeeds.1, succeeds.2]
  rfl

/-- A write that fails keeps the size, and the file has the bytes of the short write. -/
theorem addOffset_fails (offset : Int) (mgr : FreeDiskPageMgr) (backing : mgr.file = some file) (fails : WriteFails reply) :
    ∃ after, addOffsetToFile reply offset mgr = (.E_write_failed, { mgr with file := some after }) ∧
      (after.content = file.content ↔ ∀ count, reply.written = some count →
        (ByteFile.encode 8 offset).take count <+: file.content.drop file.pointer) := by
  unfold addOffsetToFile DiskFile.write
  rw [backing]
  cases written : reply.written with
  | none => exact ⟨file, rfl, by simp⟩
  | some count =>
      have short := fails count written
      have length : ((ByteFile.encode 8 offset).take count).length = count := by
        rw [List.length_take, ByteFile.length_encode]
        omega
      dsimp only
      rw [if_pos (by omega)]
      refine ⟨_, rfl, ?_⟩
      rw [ByteFile.write_eq_self_iff]
      simp

/-- A truncation that fails ends the call of `get`. -/
theorem get_of_truncation_fails {retval : Code} {top : Int} {rest : List Int} {cut : FreeDiskPageMgr}
    (stack : mgr.nextFreeOffset = top :: rest) (failed : retval ≠ .E_ok)
    (removed : removeOffsetFromFile reply { mgr with nextFreeOffset := rest } = (retval, cut)) :
    get reply mgr = .ok (retval.value, { cut with nextFreeOffset := top :: rest }) := by
  unfold get
  rw [stack]
  dsimp only
  rw [removed]
  cases retval <;> first | exact absurd rfl failed | rfl

/-- A write that fails ends the call of `get` after the truncation. -/
theorem get_of_write_fails {retval : Code} {top : Int} {cut added : FreeDiskPageMgr}
    (stack : mgr.nextFreeOffset = [top]) (failed : retval ≠ .E_ok)
    (removed : removeOffsetFromFile reply { mgr with nextFreeOffset := [] } = (.E_ok, cut))
    (fits : -2 ^ 63 ≤ top + mgr.pageSize ∧ top + mgr.pageSize < 2 ^ 63)
    (written : addOffsetToFile reply (top + mgr.pageSize) { cut with nextFreeOffset := [top + mgr.pageSize] } =
      (retval, added)) :
    get reply mgr = .ok (retval.value, { added with nextFreeOffset := [top] }) := by
  unfold get
  rw [stack]
  dsimp only
  rw [removed]
  dsimp only
  rw [if_pos rfl, if_pos fits, written]
  cases retval <;> first | exact absurd rfl failed | rfl

/-- The call leaves everything as it was exactly when its failing operation changes no byte of the file. -/
theorem rollsBack_iff {call : PageCall} (agrees : Agrees mgr file) (fails : Fails reply mgr call) :
    RollsBack reply mgr call ↔ Harmless reply file call := by
  cases call with
  | get =>
      obtain ⟨nonempty, failing⟩ := fails
      obtain ⟨top, rest, stack⟩ := List.exists_cons_of_ne_nil nonempty
      have size : mgr.fsize = 8 * (rest.length + 1) := by
        rw [agrees.fsize, agrees.content, stack, length_diskImage, List.length_cons]
        omega
      have large : 8 ≤ mgr.fsize := by omega
      by_cases truncation : TruncationFails reply
      · obtain ⟨retval, after, cut, failed, kept⟩ :=
          removeOffset_fails { mgr with nextFreeOffset := rest } agrees.backing large truncation
        have result := get_of_truncation_fails stack failed cut
        refine iff_of_true ⟨_, _, result, Code.value_neg failed, stack.symm, ?_, rfl⟩ truncation
        rw [agrees.backing]
        exact congrArg some kept
      · obtain ⟨write, bottom, single, fits⟩ := failing.resolve_left truncation
        have cut := removeOffset_succeeds { mgr with nextFreeOffset := [] } agrees.backing large truncation
        obtain ⟨after, written, -⟩ := addOffset_fails (bottom + mgr.pageSize)
          { mgr with
            nextFreeOffset := [bottom + mgr.pageSize]
            file := some ⟨ByteFile.truncate file.content (mgr.fsize - 8).toNat, (mgr.fsize - 8).toNat⟩
            fsize := mgr.fsize - 8 } rfl write
        have result := get_of_write_fails single (by decide) cut fits written
        refine iff_of_false ?_ truncation
        rintro ⟨value, final, ran, -, -, -, same⟩
        have equal := (Prod.mk.inj (Except.ok.inj (result.symm.trans ran))).2
        rw [← equal] at same
        have shrunk : mgr.fsize - 8 = mgr.fsize := same
        omega
  | free offset =>
      obtain ⟨valid, aligned, write⟩ := fails
      obtain ⟨after, written, unchanged⟩ := addOffset_fails offset
        { mgr with nextFreeOffset := offset :: mgr.nextFreeOffset } agrees.backing write
      have result : PageCall.run reply mgr (.free offset) =
          .ok (Code.E_write_failed.value, { mgr with file := some after }) := by
        have accepted : ¬(offset < 0 ∨ offset.tmod mgr.pageSize ≠ 0) :=
          not_or.2 ⟨not_lt.2 valid, not_not.2 aligned⟩
        unfold PageCall.run free
        dsimp only
        rw [if_neg accepted, written]
        rfl
      rw [Harmless, ← unchanged]
      constructor
      · rintro ⟨value, final, ran, -, -, same, -⟩
        have equal := (Prod.mk.inj (Except.ok.inj (result.symm.trans ran))).2
        rw [← equal, agrees.backing] at same
        exact Option.some.inj same
      · intro same
        refine ⟨_, _, result, by decide, rfl, ?_, rfl⟩
        rw [agrees.backing]
        exact congrArg some same

/-- The only entry of this manager is the end of a file of two pages. -/
def twoPages : FreeDiskPageMgr := ⟨256, [512], some ⟨diskImage [512], 8⟩, 8⟩

theorem twoPages_agrees : Agrees twoPages ⟨diskImage [512], 8⟩ := ⟨rfl, rfl, rfl⟩

/-- When the seek of the truncation fails, `get` changes nothing. -/
theorem twoPages_rollsBack : RollsBack ⟨false, true, none⟩ twoPages .get := by
  have fails : Fails ⟨false, true, none⟩ twoPages .get := ⟨List.cons_ne_nil _ _, Or.inl (Or.inl rfl)⟩
  exact (rollsBack_iff twoPages_agrees fails).2 (Or.inl rfl)

/-- When the append behind the truncation fails, the file has lost its only offset. -/
theorem twoPages_not_rollsBack :
    Agrees twoPages ⟨diskImage [512], 8⟩ ∧ Fails ⟨true, true, none⟩ twoPages .get ∧
      ¬RollsBack ⟨true, true, none⟩ twoPages .get := by
  refine ⟨twoPages_agrees, ⟨List.cons_ne_nil _ _, Or.inr ⟨?_, 512, rfl, by decide, by decide⟩⟩, ?_⟩
  · rintro count ⟨⟩
  · rintro ⟨value, after, ran, -, -, -, same⟩
    have result : PageCall.run ⟨true, true, none⟩ twoPages .get = .ok (-7, ⟨256, [512], some ⟨[], 0⟩, 0⟩) := by
      decide
    cases result.symm.trans ran
    exact absurd same (by decide)

end Failures

section Reloading

/-- The file has the entries of a stack, and its pointer is at the end. -/
structure Follows (mgr : FreeDiskPageMgr) (file : DiskFile) (stack : List Int) : Prop where
  backing : mgr.file = some file
  content : file.content = diskImage stack
  pointer : file.pointer = file.content.length
  fsize : mgr.fsize = file.content.length

/-- An offset of the type `int64_t`. -/
def Fits (offset : Int) : Prop := -2 ^ 63 ≤ offset ∧ offset < 2 ^ 63

/-- A successful append adds the offset at the end of the file. -/
theorem Follows.add {stack : List Int} (follows : Follows mgr file stack)
    (done : addOffsetToFile reply offset mgr = (.E_ok, next)) : ∃ after, Follows next after (offset :: stack) := by
  unfold addOffsetToFile DiskFile.write at done
  rw [follows.backing] at done
  cases written : reply.written with
  | none =>
      rw [written] at done
      cases done
  | some count =>
      rw [written] at done
      dsimp only at done
      split at done
      · cases done
      · rename_i whole
        rw [not_not] at whole
        have all : (ByteFile.encode 8 offset).take count = ByteFile.encode 8 offset := by
          apply List.take_of_length_le
          rw [List.length_take, ByteFile.length_encode] at whole
          rw [ByteFile.length_encode]
          omega
        cases done
        rw [all, follows.pointer, ByteFile.write_end, ByteFile.length_encode, follows.content]
        refine ⟨_, rfl, rfl, ?_, ?_⟩
        · rw [List.length_append, ByteFile.length_encode]
        · show mgr.fsize + 8 = _
          rw [follows.fsize, follows.content, List.length_append, ByteFile.length_encode]
          rfl

/-- A successful truncation removes the top offset from the end of the file. -/
theorem Follows.remove {top : Int} {stack : List Int} (follows : Follows mgr file (top :: stack))
    (done : removeOffsetFromFile reply mgr = (.E_ok, next)) : ∃ after, Follows next after stack := by
  have size : mgr.fsize = (diskImage stack).length + 8 := by
    rw [follows.fsize, follows.content, diskImage, List.length_append, ByteFile.length_encode]
    rfl
  by_cases truncation : TruncationFails reply
  · obtain ⟨retval, after, failed, notOk, -⟩ := removeOffset_fails mgr follows.backing (by omega) truncation
    exact absurd (Prod.mk.inj (failed.symm.trans done)).1 notOk
  · have cut := removeOffset_succeeds mgr follows.backing (by omega) truncation
    have same := (Prod.mk.inj (cut.symm.trans done)).2
    have shorter : (mgr.fsize - 8).toNat = (diskImage stack).length := by omega
    rw [shorter, follows.content, diskImage, ByteFile.truncate_append] at same
    subst same
    refine ⟨_, rfl, rfl, rfl, ?_⟩
    show mgr.fsize - 8 = (diskImage stack).length
    omega

/-- Without failures the loop reads the offsets from the bottom to the top. -/
theorem readOffsets_reload (above below : List Int) (fuel index : Nat) (mgr : FreeDiskPageMgr)
    (enough : above.length < fuel) (fits : ∀ offset ∈ above, Fits offset) (start : mgr.nextFreeOffset = below)
    (whole : file.content = diskImage (above ++ below)) (pointer : file.pointer = (diskImage below).length) :
    readOffsets (fun _ => false) fuel index file mgr = .ok (.E_eof_detected, { mgr with
      file := some ⟨file.content, file.content.length⟩
      nextFreeOffset := above ++ below
      fsize := mgr.fsize + 8 * above.length }) := by
  induction above using List.reverseRecOn generalizing below fuel index file mgr with
  | nil =>
      obtain ⟨rest, rfl⟩ : ∃ rest, fuel = rest + 1 := ⟨fuel - 1, by omega⟩
      have atEnd : file.pointer = file.content.length := by rw [pointer, whole, List.nil_append]
      have empty : ByteFile.read file.content file.pointer 8 = [] := by
        rw [ByteFile.read, atEnd, List.drop_length, List.take_nil]
      rw [readOffsets, DiskFile.read, if_neg Bool.false_ne_true]
      dsimp only
      rw [empty, List.length_nil, if_pos rfl, atEnd, ← start]
      simp
  | append_singleton above last inductionHypothesis =>
      obtain ⟨rest, rfl⟩ : ∃ rest, fuel = rest + 1 := ⟨fuel - 1, by omega⟩
      have entry : ByteFile.read file.content file.pointer 8 = ByteFile.encode 8 last := by
        rw [ByteFile.read, whole, pointer, diskImage_append, List.drop_left, diskImage_append, diskImage, diskImage,
          List.nil_append]
        exact List.take_left' (ByteFile.length_encode 8 last)
      have value : ByteFile.decode (ByteFile.encode 8 last) = last := by
        have bounds := fits last (by simp)
        exact ByteFile.decode_encode 7 last bounds.1 bounds.2
      rw [readOffsets, DiskFile.read, if_neg Bool.false_ne_true]
      dsimp only
      rw [entry, ByteFile.length_encode, if_neg (by decide), if_neg (by decide), value]
      have order : (above ++ [last]) ++ below = above ++ last :: below := by simp
      have shorter : above.length < rest := by
        rw [List.length_append, List.length_singleton] at enough
        omega
      have further := @inductionHypothesis { file with pointer := file.pointer + 8 } (last :: below) rest (index + 1)
        { mgr with fsize := mgr.fsize + 8, nextFreeOffset := last :: mgr.nextFreeOffset } shorter
        (fun other member => fits other (List.mem_append_left _ member)) (by rw [start])
        (by rw [whole, order]) (by rw [pointer, diskImage, List.length_append, ByteFile.length_encode])
      refine further.trans ?_
      rw [order, List.length_append, List.length_singleton]
      simp only [Nat.cast_add, Nat.cast_one, Except.ok.injEq, Prod.mk.injEq, FreeDiskPageMgr.mk.injEq, true_and]
      ring

/-- The loop ends, and it detects the end of the file unless the file is damaged. -/
theorem readOffsets_outcome (fails : Nat → Bool) (fuel index : Nat) (file : DiskFile) (mgr : FreeDiskPageMgr)
    (enough : (file.content.length - file.pointer) / 8 < fuel) :
    ∃ retval after, readOffsets fails fuel index file mgr = .ok (retval, after) ∧
      (retval = .E_eof_detected ↔ (file.content.length - file.pointer) % 8 = 0 ∧
        ∀ step, step ≤ (file.content.length - file.pointer) / 8 → fails (index + step) = false) := by
  induction fuel generalizing index file mgr with
  | zero => omega
  | succ fuel inductionHypothesis =>
      have length : (ByteFile.read file.content file.pointer 8).length =
          min 8 (file.content.length - file.pointer) := by
        rw [ByteFile.read, List.length_take, List.length_drop]
      rw [readOffsets, DiskFile.read]
      cases failed : fails index with
      | true =>
          refine ⟨_, _, rfl, iff_of_false (by decide) ?_⟩
          rintro ⟨-, steady⟩
          have contrary := steady 0 (Nat.zero_le _)
          rw [Nat.add_zero, failed] at contrary
          cases contrary
      | false =>
          rw [if_neg Bool.false_ne_true]
          dsimp only
          by_cases ended : file.content.length - file.pointer = 0
          · rw [if_pos (by omega)]
            refine ⟨_, _, rfl, iff_of_true rfl ⟨by omega, ?_⟩⟩
            intro step small
            have zero : step = 0 := by omega
            rw [zero, Nat.add_zero, failed]
          · rw [if_neg (by omega)]
            by_cases short : file.content.length - file.pointer < 8
            · rw [if_pos (by omega)]
              refine ⟨_, _, rfl, iff_of_false (by decide) ?_⟩
              omega
            · rw [if_neg (by omega)]
              have moved : file.pointer + (ByteFile.read file.content file.pointer 8).length = file.pointer + 8 := by
                omega
              rw [moved]
              obtain ⟨retval, after, ran, outcome⟩ := inductionHypothesis (index + 1)
                { file with pointer := file.pointer + 8 }
                { mgr with
                  fsize := mgr.fsize + (ByteFile.read file.content file.pointer 8).length
                  nextFreeOffset := ByteFile.decode (ByteFile.read file.content file.pointer 8) :: mgr.nextFreeOffset }
                (by dsimp only; omega)
              refine ⟨retval, after, ran, outcome.trans (and_congr ?_ ?_)⟩
              · dsimp only
                omega
              · constructor
                · intro steady step small
                  cases step with
                  | zero => exact failed
                  | succ step =>
                      have later := steady step (by dsimp only; omega)
                      rw [← later]
                      congr 1
                      omega
                · intro steady step small
                  have later := steady (step + 1) (by dsimp only at small; omega)
                  rw [← later]
                  congr 1
                  omega

/-- Without failures a new manager reads the stack, but it returns `E_eof_detected`. -/
theorem init_reload (pageSize : Int) {stack : List Int} (whole : file.content = diskImage stack)
    (fits : ∀ offset ∈ stack, Fits offset) :
    init true (fun _ => false) (new pageSize (some file)) = .ok (.E_eof_detected,
      ⟨pageSize, stack, some ⟨file.content, file.content.length⟩, file.content.length⟩) := by
  have length : (file.content.length : Int) = 8 * stack.length := by
    rw [whole, length_diskImage]
    push_cast
    rfl
  have read := @readOffsets_reload { file with pointer := 0 } stack [] (file.content.length + 1) 0
    (new pageSize (some file)) (by omega) fits rfl (by rw [whole, List.append_nil]) rfl
  unfold init new DiskFile.seek
  dsimp only
  rw [if_neg (by decide), if_pos rfl]
  dsimp only
  rw [Int.toNat_zero]
  unfold new at read
  rw [read]
  simp [bind, Except.bind, length]

/-- A file is intact when the reading reaches its end. -/
theorem damaged_iff {fails : Nat → Bool} {content : List UInt8} :
    Damaged true fails content ↔
      ¬(content.length % 8 = 0 ∧ ∀ step, step ≤ content.length / 8 → fails step = false) := by
  rw [Damaged, not_and_or, not_forall]
  simp

/-- The reading of any file ends, and it is a damaged file that is reported with `E_ok`. -/
theorem init_outcome (fails : Nat → Bool) (pageSize : Int) (file : DiskFile) :
    ∃ retval next, init true fails (new pageSize (some file)) = .ok (retval, next) ∧
      (Damaged true fails file.content → retval = .E_ok) ∧
      (¬Damaged true fails file.content → retval = .E_eof_detected) := by
  obtain ⟨retval, after, read, ended⟩ := readOffsets_outcome fails (file.content.length + 1) 0
    { file with pointer := 0 } (new pageSize (some file)) (by dsimp only; omega)
  simp only [Nat.zero_add, Nat.sub_zero] at ended
  have run : init true fails (new pageSize (some file)) =
      if retval ≠ .E_eof_detected then .ok (.E_ok, after) else .ok (retval, after) := by
    unfold init new DiskFile.seek
    dsimp only
    rw [if_neg (by decide), if_pos rfl]
    dsimp only
    rw [Int.toNat_zero]
    unfold new at read
    rw [read]
    rfl
  rw [run, damaged_iff, ← ended]
  by_cases same : retval = .E_eof_detected
  · exact ⟨retval, after, if_neg (not_not.2 same), fun damaged => absurd same damaged, fun _ => same⟩
  · exact ⟨.E_ok, after, if_pos same, fun _ => rfl, fun intact => absurd same intact⟩

/-- The file of the manager follows its stack after every call and every restart. -/
theorem persisting_follows (persisting : Persisting mgr) :
    ∃ file, Follows mgr file mgr.nextFreeOffset ∧ ∀ offset ∈ mgr.nextFreeOffset, Fits offset := by
  induction persisting with
  | new pageSize => exact ⟨⟨[], 0⟩, ⟨rfl, rfl, rfl, rfl⟩, fun offset member => by cases member⟩
  | @get reply offset mgr next _ done success inductionHypothesis =>
      obtain ⟨file, follows, fits⟩ := inductionHypothesis
      obtain ⟨rest, removed, stack, cut, final⟩ := get_cases done success
      rw [stack] at follows fits
      have shorter : Follows { mgr with nextFreeOffset := rest } file (offset :: rest) :=
        ⟨follows.backing, follows.content, follows.pointer, follows.fsize⟩
      obtain ⟨after, left⟩ := shorter.remove cut
      have kept := (removeOffsetFromFile_frame reply { mgr with nextFreeOffset := rest }).1
      rw [cut] at kept
      have fitsRest := fun other member => fits other (List.mem_cons_of_mem offset member)
      rcases final with ⟨-, rfl⟩ | ⟨rfl, bounds, written⟩
      · exact ⟨after, kept ▸ left, kept ▸ fitsRest⟩
      · have pushed := (addOffsetToFile_frame reply (offset + mgr.pageSize)
          { removed with nextFreeOffset := [offset + mgr.pageSize] }).1
        rw [written] at pushed
        have emptied : Follows { removed with nextFreeOffset := [offset + mgr.pageSize] } after [] :=
          ⟨left.backing, left.content, left.pointer, left.fsize⟩
        obtain ⟨last, whole⟩ := emptied.add written
        refine ⟨last, pushed ▸ whole, ?_⟩
        rw [pushed]
        intro other member
        rw [List.mem_singleton.1 member]
        exact bounds
  | @free reply offset mgr next _ small done inductionHypothesis =>
      obtain ⟨file, follows, fits⟩ := inductionHypothesis
      obtain ⟨valid, -, written⟩ := free_cases done
      have before : Follows { mgr with nextFreeOffset := offset :: mgr.nextFreeOffset } file mgr.nextFreeOffset :=
        ⟨follows.backing, follows.content, follows.pointer, follows.fsize⟩
      obtain ⟨after, whole⟩ := before.add written
      have pushed := (free_stack done).1
      refine ⟨after, pushed ▸ whole, ?_⟩
      rw [pushed]
      intro other member
      rcases List.mem_cons.1 member with rfl | old
      · exact ⟨by omega, small⟩
      · exact fits other old
  | @init pageSize code mgr next _ done inductionHypothesis =>
      obtain ⟨file, follows, fits⟩ := inductionHypothesis
      rw [follows.backing, init_reload pageSize follows.content fits] at done
      cases done
      exact ⟨_, ⟨rfl, follows.content, rfl, rfl⟩, fits⟩

/-- A new manager reads the stack of the old one in its order, but its code is right only when the seek fails. -/
theorem reloads_iff (persisting : Persisting mgr) (seeks : Bool) (fails : Nat → Bool) (pageSize : Int)
    (file : DiskFile) :
    (∃ backing after, mgr.file = some backing ∧
      init true (fun _ => false) (new pageSize (some backing)) = .ok (.E_eof_detected, after) ∧
      after.nextFreeOffset = mgr.nextFreeOffset) ∧
    (Reloads mgr.nextFreeOffset seeks fails pageSize file ↔ seeks = false) := by
  constructor
  · obtain ⟨backing, follows, fits⟩ := persisting_follows persisting
    exact ⟨backing, _, follows.backing, init_reload pageSize follows.content fits, rfl⟩
  · cases seeks with
    | false =>
        refine iff_of_true ?_ rfl
        exact ⟨.E_seek_failed, _, rfl, fun intact => absurd (Or.inl rfl) intact, fun _ => by decide⟩
    | true =>
        refine iff_of_false ?_ (by decide)
        rintro ⟨retval, next, ran, whole, rejected⟩
        obtain ⟨code, after, result, onDamage, onEnd⟩ := init_outcome fails pageSize file
        obtain ⟨same, -⟩ := Prod.mk.inj (Except.ok.inj (result.symm.trans ran))
        by_cases damaged : Damaged true fails file.content
        · have negative := rejected damaged
          rw [← same, onDamage damaged] at negative
          exact absurd negative (by decide)
        · have accepted := (whole damaged).1
          rw [← same, onEnd damaged] at accepted
          cases accepted

/-- A seek that fails is reported. -/
theorem reloads_of_seek_failed :
    Reloads (new 256 (some ⟨[], 0⟩)).nextFreeOffset false (fun _ => false) 256 ⟨[], 0⟩ :=
  (reloads_iff (.new 256) false (fun _ => false) 256 ⟨[], 0⟩).2.2 rfl

/-- The reload of one offset does not return `E_ok`, and the reload of a single byte does. -/
theorem twoPages_not_reloads :
    Persisting twoPages ∧ ¬Reloads twoPages.nextFreeOffset true (fun _ => false) 256 ⟨diskImage [512], 8⟩ ∧
      Damaged true (fun _ => false) [0] ∧ ¬Reloads [] true (fun _ => false) 256 ⟨[0], 0⟩ := by
  have intact : ¬Damaged true (fun _ => false) (diskImage [512]) := by
    rintro (seek | cut | ⟨index, -, failed⟩)
    · cases seek
    · exact absurd cut (by decide)
    · cases failed
  have damaged : Damaged true (fun _ => false) [0] := Or.inr (Or.inl (by decide))
  refine ⟨?_, ?_, damaged, ?_⟩
  · exact @Persisting.free ⟨true, true, some 8⟩ 512 _ _ (.new 256) (by decide) rfl
  · rintro ⟨retval, next, ran, whole, -⟩
    have fits : ∀ offset ∈ [(512 : Int)], Fits offset := List.forall_mem_singleton.2 ⟨by decide, by decide⟩
    cases (@init_reload ⟨diskImage [512], 8⟩ 256 [512] rfl fits).symm.trans ran
    cases (whole intact).1
  · rintro ⟨retval, next, ran, -, rejected⟩
    have result : init true (fun _ => false) (new 256 (some ⟨[0], 0⟩)) =
        .ok (.E_ok, ⟨256, [], some ⟨[0], 1⟩, 0⟩) := by decide
    cases result.symm.trans ran
    exact absurd (rejected damaged) (by decide)

end Reloading

end SimpleNFast.Rdb.FreeDiskPageMgr
