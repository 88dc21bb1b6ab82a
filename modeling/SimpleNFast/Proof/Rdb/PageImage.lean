import SimpleNFast.Construction.Rdb.PageImage

namespace SimpleNFast.Rdb

/-- A successful write has put all bytes at the offset. -/
theorem writeFile_ok {reply : DiskReply} {place : Nat} {bytes : List UInt8} {file after : DiskFile}
    (done : writeFile reply place bytes file = (.E_ok, after)) :
    after.content = ByteFile.write file.content place bytes := by
  have notNegative : ¬(place : Int) < 0 := by omega
  unfold writeFile DiskFile.writeAt DiskFile.seek DiskFile.write at done
  rw [if_neg notNegative] at done
  cases seeks : reply.seeks with
  | false =>
      rw [seeks] at done
      cases done
  | true =>
      rw [seeks, if_pos rfl] at done
      cases written : reply.written with
      | none =>
          rw [written] at done
          cases done
      | some count =>
          rw [written] at done
          dsimp only at done
          split at done
          · cases done
          · rename_i whole
            rw [not_not, List.length_take] at whole
            have all : bytes.take count = bytes := List.take_of_length_le (by omega)
            cases done
            rw [all, Int.toNat_natCast]

namespace KeyPageImage

variable {page : KeyPageImage} {offset : Nat} {file : DiskFile}

@[simp] theorem length_middleBytes (page : KeyPageImage) : page.middleBytes.length = 12 := by
  simp [middleBytes]

theorem length_bytes (page : KeyPageImage) : page.bytes.length = 64 + page.keys.length := by
  simp [bytes, tailBytes]
  omega

/-- A field that is written in its own width is read back, and nothing else has changed. -/
theorem stored_update {before old new behind : List UInt8} {changed : KeyPageImage} (stored : page.Stored offset file)
    (split : page.bytes = before ++ old ++ behind) (joined : changed.bytes = before ++ new ++ behind)
    (same : new.length = old.length) :
    ByteFile.read (ByteFile.write file.content (offset + before.length) new) offset changed.bytes.length =
      changed.bytes := by
  have length : (before ++ new ++ behind).length = (before ++ old ++ behind).length := by simp [same]
  rw [Stored, split] at stored
  rw [joined, length]
  exact ByteFile.read_write_inside stored same

/-- The four bytes of the flags are those of the short flags and of their upper half. -/
theorem encode_flags (value : Int16) :
    ByteFile.encode 4 value.toInt32.toInt =
      ByteFile.encode 2 value.toInt ++ ByteFile.encode 2 (upperHalf value).toInt := by
  have lower := value.le_toInt
  have upper := value.toInt_lt
  rw [Int16.toInt_toInt32, ByteFile.encode_add 2 2, upperHalf]
  congr 2
  split
  · rename_i negative
    have below : value.toInt < 0 := Int16.lt_iff_toInt_lt.1 negative
    show _ = (-1 : Int)
    omega
  · rename_i notNegative
    have above : ¬value.toInt < 0 := fun below => notNegative (Int16.lt_iff_toInt_lt.2 below)
    show _ = (0 : Int)
    omega

theorem encode_int16_inj {first second : Int16} :
    ByteFile.encode 2 first.toInt = ByteFile.encode 2 second.toInt ↔ first = second := by
  have bounds (value : Int16) : -2 ^ (8 * 1 + 7) ≤ value.toInt ∧ value.toInt < 2 ^ (8 * 1 + 7) := by
    have lower := value.le_toInt
    have upper := value.toInt_lt
    norm_num
    omega
  rw [ByteFile.encode_inj (bounds first).1 (bounds first).2 (bounds second).1 (bounds second).2, Int16.toInt_inj]

/-- The place of the field in the page. -/
def FieldValue.place : FieldValue → Nat
  | .flags _ => 0
  | .poff _ => 16
  | .noff _ => 24

/-- The bytes that are written at the place. -/
def FieldValue.bytes : FieldValue → List UInt8
  | .flags value => ByteFile.encode 4 value.toInt32.toInt
  | .poff value | .noff value => ByteFile.encode 8 value.toInt

theorem writeBytes_ok (place : Nat) {reply : DiskReply} {bytes : List UInt8} {change : KeyPageImage → KeyPageImage}
    {before kp : Option KeyPageImage} {after : DiskFile}
    (done : writeBytes reply place bytes change before file = (.E_ok, kp, after)) :
    kp = before.map change ∧ after.content = ByteFile.write file.content place bytes := by
  unfold writeBytes at done
  split at done
  · rename_i written
    cases done
    exact ⟨rfl, writeFile_ok written⟩
  · rename_i notOk _
    cases done
    exact absurd rfl notOk

/-- The result of a successful write of a field. -/
theorem writeField_ok {reply : DiskReply} {value : FieldValue} {kp : Option KeyPageImage} {after : DiskFile}
    (done : writeField reply offset (some page) file value = (.E_ok, kp, after)) :
    kp = some (page.update value) ∧
      after.content = ByteFile.write file.content (offset + value.place) value.bytes := by
  cases value with
  | flags value =>
      obtain ⟨updated, content⟩ := writeBytes_ok (offset + 0) done
      rw [Option.map_some, Int16.toInt_toInt32, Int16.ofInt_toInt] at updated
      exact ⟨updated, content⟩
  | poff value => exact writeBytes_ok (offset + 16) done
  | noff value => exact writeBytes_ok (offset + 24) done

/-- The page with new flags and with their upper half as the number of valid keys. -/
def spoil (page : KeyPageImage) (value : Int16) : KeyPageImage :=
  { page with flags := value, vcount := upperHalf value }

/-- The write of the flags leaves the spoiled page in the file. -/
theorem read_flags (stored : page.Stored offset file) (value : Int16) :
    (page.spoil value).Stored offset
      { file with content := ByteFile.write file.content offset (ByteFile.encode 4 value.toInt32.toInt) } := by
  obtain ⟨front, empty⟩ : ∃ front : List UInt8, front = [] := ⟨[], rfl⟩
  have split : page.bytes = front ++ (ByteFile.encode 2 page.flags.toInt ++ ByteFile.encode 2 page.vcount.toInt) ++
      (page.middleBytes ++ ByteFile.encode 8 page.poff.toInt ++ ByteFile.encode 8 page.noff.toInt ++
        page.tailBytes) := by
    rw [empty, List.nil_append]
    simp only [bytes, List.append_assoc]
  have joined : (page.spoil value).bytes = front ++ ByteFile.encode 4 value.toInt32.toInt ++
      (page.middleBytes ++ ByteFile.encode 8 page.poff.toInt ++ ByteFile.encode 8 page.noff.toInt ++
        page.tailBytes) := by
    rw [encode_flags, empty, List.nil_append]
    simp only [bytes, spoil, middleBytes, tailBytes, List.append_assoc]
  have width : (ByteFile.encode 4 value.toInt32.toInt).length =
      (ByteFile.encode 2 page.flags.toInt ++ ByteFile.encode 2 page.vcount.toInt).length := by
    rw [List.length_append, ByteFile.length_encode, ByteFile.length_encode, ByteFile.length_encode]
  have read := stored_update stored split joined width
  rw [empty, List.length_nil, Nat.add_zero] at read
  exact read

/-- The write of the previous offset changes this field only. -/
theorem read_poff (stored : page.Stored offset file) (value : Int64) :
    (page.update (.poff value)).Stored offset
      { file with content := ByteFile.write file.content (offset + 16) (ByteFile.encode 8 value.toInt) } := by
  have split : page.bytes = (ByteFile.encode 2 page.flags.toInt ++ ByteFile.encode 2 page.vcount.toInt ++
      page.middleBytes) ++ ByteFile.encode 8 page.poff.toInt ++
      (ByteFile.encode 8 page.noff.toInt ++ page.tailBytes) := by
    simp [bytes]
  have joined : (page.update (.poff value)).bytes = (ByteFile.encode 2 page.flags.toInt ++
      ByteFile.encode 2 page.vcount.toInt ++ page.middleBytes) ++ ByteFile.encode 8 value.toInt ++
      (ByteFile.encode 8 page.noff.toInt ++ page.tailBytes) := by
    simp [bytes, update, middleBytes, tailBytes]
  have place : (ByteFile.encode 2 page.flags.toInt ++ ByteFile.encode 2 page.vcount.toInt ++
      page.middleBytes).length = 16 := by simp
  have read := stored_update stored split joined (by simp)
  rw [place] at read
  exact read

/-- The write of the next offset changes this field only. -/
theorem read_noff (stored : page.Stored offset file) (value : Int64) :
    (page.update (.noff value)).Stored offset
      { file with content := ByteFile.write file.content (offset + 24) (ByteFile.encode 8 value.toInt) } := by
  have split : page.bytes = (ByteFile.encode 2 page.flags.toInt ++ ByteFile.encode 2 page.vcount.toInt ++
      page.middleBytes ++ ByteFile.encode 8 page.poff.toInt) ++ ByteFile.encode 8 page.noff.toInt ++
      page.tailBytes := by
    simp [bytes]
  have joined : (page.update (.noff value)).bytes = (ByteFile.encode 2 page.flags.toInt ++
      ByteFile.encode 2 page.vcount.toInt ++ page.middleBytes ++ ByteFile.encode 8 page.poff.toInt) ++
      ByteFile.encode 8 value.toInt ++ page.tailBytes := by
    simp [bytes, update, middleBytes, tailBytes]
  have place : (ByteFile.encode 2 page.flags.toInt ++ ByteFile.encode 2 page.vcount.toInt ++
      page.middleBytes ++ ByteFile.encode 8 page.poff.toInt).length = 24 := by simp
  have read := stored_update stored split joined (by simp)
  rw [place] at read
  exact read

/-- Two pages with the same bytes have the same number of valid keys. -/
theorem vcount_of_bytes {first second : KeyPageImage} (same : first.bytes = second.bytes) :
    first.vcount = second.vcount := by
  have vcounts (page : KeyPageImage) : (page.bytes.drop 2).take 2 = ByteFile.encode 2 page.vcount.toInt := by
    simp [bytes]
  rw [← encode_int16_inj, ← vcounts first, ← vcounts second, same]

/-- The spoiled page is the page with the new flags when the number of valid keys is their upper half. -/
theorem read_flags_iff (stored : page.Stored offset file) (value : Int16) :
    (page.update (.flags value)).Stored offset
        { file with content := ByteFile.write file.content offset (ByteFile.encode 4 value.toInt32.toInt) } ↔
      page.vcount = upperHalf value := by
  have read := read_flags stored value
  have length : (page.spoil value).bytes.length = (page.update (.flags value)).bytes.length := by
    rw [length_bytes, length_bytes]
    rfl
  rw [Stored, length] at read
  rw [Stored, read]
  constructor
  · intro same
    exact (vcount_of_bytes same).symm
  · intro count
    rw [spoil, update, ← count]

/-- After a successful write of a field the page is read back with the new value, but the flags spoil the number of
valid keys unless it is their upper half. -/
theorem rereads_iff {reply : DiskReply} {value : FieldValue} {kp : Option KeyPageImage} {after : DiskFile}
    (stored : page.Stored offset file) (done : writeField reply offset (some page) file value = (.E_ok, kp, after)) :
    Rereads offset page value kp after ↔ page.CountIsUpperHalf value := by
  obtain ⟨updated, content⟩ := writeField_ok done
  rw [Rereads, Stored, content, and_iff_right updated]
  cases value with
  | flags value => exact read_flags_iff stored value
  | poff value => exact iff_of_true (read_poff stored value) trivial
  | noff value => exact iff_of_true (read_noff stored value) trivial

/-- A page with five valid keys. -/
def fiveKeys : KeyPageImage := ⟨0, 5, 0, 0, 7, 0, -1, -1, 0, 0, 0, 0, []⟩

theorem fiveKeys_stored : fiveKeys.Stored 0 ⟨fiveKeys.bytes, 0⟩ := by
  rw [Stored, ByteFile.read, List.drop_zero, List.take_length]

/-- The previous offset of the page is read back. -/
theorem fiveKeys_rereads_poff :
    ∃ kp after, writeField ⟨true, true, some 8⟩ 0 (some fiveKeys) ⟨fiveKeys.bytes, 0⟩ (.poff 4096) = (.E_ok, kp, after) ∧
      Rereads 0 fiveKeys (.poff 4096) kp after :=
  ⟨_, _, rfl, (@rereads_iff fiveKeys 0 ⟨fiveKeys.bytes, 0⟩ ⟨true, true, some 8⟩ (.poff 4096) _ _ fiveKeys_stored
    rfl).2 trivial⟩

/-- The mark of a deleted page takes the number of valid keys from the file. -/
theorem fiveKeys_not_rereads_flags :
    ∃ kp after, fiveKeys.Stored 0 ⟨fiveKeys.bytes, 0⟩ ∧
      writeField ⟨true, true, some 4⟩ 0 (some fiveKeys) ⟨fiveKeys.bytes, 0⟩ (.flags 1) = (.E_ok, kp, after) ∧
      ¬Rereads 0 fiveKeys (.flags 1) kp after := by
  refine ⟨_, _, fiveKeys_stored, rfl, ?_⟩
  rintro ⟨-, read⟩
  exact absurd ((read_flags_iff fiveKeys_stored 1).1 read) (by decide)

end KeyPageImage

end SimpleNFast.Rdb
