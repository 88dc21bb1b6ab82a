import SimpleNFast.Construction.Net.Nio
import SimpleNFast.Construction.Net.Strings
import SimpleNFast.Proof.Text

namespace SimpleNFast.Net
open Nio

/-- A read from an empty buffer ends before the buffer is filled. -/
theorem readBuffered_empty {io : Nio} {toRead : Int} (positive : 0 < toRead) (memory : List UInt8)
    (empty : io.len ≤ io.idx) : io.readBuffered toRead memory = some (⟨.E_invalid_state, []⟩, io) := by
  obtain ⟨count, rfl⟩ : ∃ count : Nat, toRead = count + 1 := ⟨toRead.toNat - 1, by omega⟩
  have enough : 2 * (count + 1 : Int).toNat = 2 * count + 1 + 1 := by omega
  have size : (count + 1 : Int).toNat = count + 1 := by omega
  rw [readBuffered, if_neg (by omega), enough, size, readLoop, takeBuffered, if_neg (by omega)]
  simp [empty]

/-- A connection with an empty buffer stays so. -/
theorem reads_buffered {io : Nio} (buffered : io.buffered = true) (empty : io.len ≤ io.idx)
    (asked : List (Int × List UInt8)) (positive : ∀ read ∈ asked, 0 < read.1) :
    io.reads asked = some (asked.map fun _ => ⟨.E_invalid_state, []⟩) := by
  induction asked with
  | nil => rfl
  | cons first rest others =>
      have fails := readBuffered_empty (positive first List.mem_cons_self) first.2 empty
      have later := others fun read inside => positive read (List.mem_cons_of_mem _ inside)
      simp only [reads, Nio.read, buffered, if_true, fails, Option.bind_eq_bind, Option.bind_some, later, List.map_cons]
      rfl

theorem setbuf_empty (source : Source) (bufsize : Int) :
    ((init source).setbuf bufsize).buffered = true ∧
      ((init source).setbuf bufsize).len ≤ ((init source).setbuf bufsize).idx :=
  ⟨rfl, le_rfl⟩

/-- Reads with a buffer give what reads without one give if and only if nothing is read. -/
theorem sameReads_iff (source : Source) (bufsize : Int) (asked : List (Int × List UInt8))
    (positive : ∀ read ∈ asked, 0 < read.1) : SameReads source bufsize asked ↔ asked = [] := by
  obtain ⟨buffered, empty⟩ := setbuf_empty source bufsize
  have fails := reads_buffered buffered empty asked positive
  constructor
  · rintro ⟨deliveries, -, same, fine⟩
    rw [fails] at same
    cases same
    cases asked with
    | nil => rfl
    | cons first rest =>
        have wrong := fine ⟨.E_invalid_state, []⟩ (by simp)
        cases wrong
  · rintro rfl
    exact ⟨[], rfl, rfl, by simp⟩

/-- A stream of three bytes that come at once. -/
def threeBytes : Source := ⟨[1, 2, 3], fun _ => 2, 0⟩

theorem sameReads_iff_threeBytes : SameReads threeBytes 64 [(3, [0, 0, 0])] ↔ [((3 : Int), [(0 : UInt8), 0, 0])] = [] :=
  sameReads_iff threeBytes 64 [(3, [0, 0, 0])] (by decide)

instance threeBytes_buffered :
    Fact (((init threeBytes).setbuf 64).reads [(3, [0, 0, 0])] = some [⟨.E_invalid_state, []⟩]) :=
  ⟨by decide +kernel⟩

theorem threeBytes_lost : ¬ ∀ source bufsize asked, (∀ read ∈ asked, 0 < read.1) → SameReads source bufsize asked := by
  intro claimed
  obtain ⟨deliveries, plain, buffered, -⟩ := claimed threeBytes 64 [(3, [0, 0, 0])] (by decide)
  have first : (init threeBytes).reads [(3, [0, 0, 0])] = some [⟨.E_ok, [1, 2, 3]⟩] := by
    decide
  rw [first] at plain
  rw [threeBytes_buffered.out, ← plain] at buffered
  cases buffered

namespace Socket

/-- The loop reads all bytes that were asked for, or those up to the end of the stream. -/
theorem readLoop_eq {fuel : Nat} {source : Source} {toRead : Nat} {buf : List UInt8} (enough : toRead ≤ fuel) :
    (readLoop fuel source toRead buf).1 = buf ++ source.bytes.take toRead ∧
      (readLoop fuel source toRead buf).2.bytes = source.bytes.drop toRead := by
  induction fuel generalizing source toRead buf with
  | zero =>
      obtain rfl : toRead = 0 := by omega
      simp [readLoop]
  | succ fuel later =>
      have few : source.taken toRead ≤ toRead := Nat.min_le_left _ _
      simp only [readLoop, recv, List.length_take]
      split
      · rename_i nothing
        -- nothing comes only when nothing was asked for or the stream has ended
        have ended : toRead = 0 ∨ source.bytes = [] := by
          rw [← List.length_eq_zero_iff]
          unfold Source.taken at nothing
          omega
        obtain rfl | ended := ended
        · simp [Source.taken]
        · simp [ended]
      · rename_i taken
        split
        · rename_i all
          have same : source.taken toRead = toRead := by omega
          rw [same]
          exact ⟨rfl, rfl⟩
        · have short : toRead - min (source.taken toRead) source.bytes.length ≤ fuel := by omega
          obtain ⟨bytes, left⟩ := @later
            { source with bytes := source.bytes.drop (source.taken toRead), calls := source.calls + 1 }
            (toRead - min (source.taken toRead) source.bytes.length)
            (buf ++ source.bytes.take (source.taken toRead)) short
          rw [bytes, left]
          by_cases inside : source.taken toRead ≤ source.bytes.length
          · rw [Nat.min_eq_left inside, List.append_assoc, List.drop_drop, Nat.add_sub_cancel' few]
            have split := List.take_add (l := source.bytes) (i := source.taken toRead) (j := toRead - source.taken toRead)
            rw [Nat.add_sub_cancel' few] at split
            exact ⟨by rw [split], rfl⟩
          · have beyond : source.bytes.length ≤ source.taken toRead := by omega
            rw [List.drop_eq_nil_of_le beyond, List.take_of_length_le beyond, List.take_nil, List.drop_nil,
              List.take_of_length_le (beyond.trans few), List.drop_eq_nil_of_le (beyond.trans few), List.append_nil]
            exact ⟨rfl, rfl⟩

end Socket

/-- Each portion is as large as what is left. -/
def Source.Steady (source : Source) : Prop := ∀ call, source.bytes.length ≤ source.portion call

theorem Source.Steady.readn {source : Source} (steady : source.Steady) {toRead : Int} (positive : 0 < toRead) :
    source.readn toRead = (⟨.E_ok, source.bytes.take toRead.toNat⟩,
      { source with bytes := source.bytes.drop toRead.toNat, calls := source.calls + 1 }) := by
  have portion := steady source.calls
  have taken : min toRead.toNat (source.portion source.calls + 1) = toRead.toNat ∨
      source.bytes.length ≤ min toRead.toNat (source.portion source.calls + 1) := by omega
  rw [Source.readn, if_neg (by omega), Source.taken]
  obtain same | beyond := taken
  · rw [same]
  · have further : source.bytes.length ≤ toRead.toNat ∨ source.bytes.length ≤ source.portion source.calls + 1 := by omega
    have all : source.bytes.length ≤ toRead.toNat := by omega
    rw [List.take_of_length_le beyond, List.take_of_length_le all, List.drop_eq_nil_of_le beyond,
      List.drop_eq_nil_of_le all]

theorem Source.Steady.drop {source : Source} (steady : source.Steady) (count calls : Nat) :
    Source.Steady { source with bytes := source.bytes.drop count, calls := calls } := by
  intro call
  have portion := steady call
  simp only [List.length_drop]
  omega

theorem Socket.source_steady (under : Source) : (Socket.source under).Steady := fun _ => le_rfl

/-- The source of a socket delivers what the loop of `readn` reads from the portions. -/
theorem Socket.readn_eq (under : Source) (toRead : Int) :
    (Socket.readn under toRead).1 = ((Socket.source under).readn toRead).1 ∧
      (Socket.readn under toRead).2.bytes = ((Socket.source under).readn toRead).2.bytes := by
  by_cases positive : 0 < toRead
  · obtain ⟨bytes, left⟩ := @Socket.readLoop_eq toRead.toNat under toRead.toNat [] le_rfl
    rw [(Socket.source_steady under).readn positive, Socket.readn, if_neg (by omega)]
    exact ⟨congrArg (Delivery.mk .E_ok) bytes, left⟩
  · rw [Socket.readn, Source.readn, if_pos (by omega), if_pos (by omega)]
    exact ⟨rfl, rfl⟩

namespace Socket

/-- The loop writes all bytes. -/
theorem writeLoop_eq {fuel : Nat} {sink : Sink} {buf : List UInt8} {nbytes : Nat} (enough : buf.length ≤ fuel) :
    (writeLoop fuel sink buf nbytes).1 = nbytes + buf.length ∧
      (writeLoop fuel sink buf nbytes).2.bytes = sink.bytes ++ buf := by
  induction fuel generalizing sink buf nbytes with
  | zero =>
      obtain rfl := List.length_eq_zero_iff.1 (Nat.le_zero.1 enough)
      simp [writeLoop]
  | succ fuel later =>
      unfold writeLoop send
      dsimp only
      have few : min buf.length (sink.portion sink.calls + 1) ≤ buf.length := Nat.min_le_left _ _
      by_cases ended : min buf.length (sink.portion sink.calls + 1) = 0
      · obtain rfl : buf = [] := by
          rw [← List.length_eq_zero_iff]
          omega
        simp
      · rw [if_neg ended]
        by_cases all : buf.length - min buf.length (sink.portion sink.calls + 1) = 0
        · have same : min buf.length (sink.portion sink.calls + 1) = buf.length := by omega
          rw [if_pos all, same, List.take_length]
          exact ⟨rfl, rfl⟩
        · obtain ⟨written, bytes⟩ := @later
            { sink with
              bytes := sink.bytes ++ buf.take (min buf.length (sink.portion sink.calls + 1)), calls := sink.calls + 1 }
            (buf.drop (min buf.length (sink.portion sink.calls + 1)))
            (nbytes + min buf.length (sink.portion sink.calls + 1)) (by rw [List.length_drop]; omega)
          rw [if_neg all, written, bytes, List.length_drop, List.append_assoc, List.take_append_drop]
          exact ⟨by omega, rfl⟩

/-- A write of all bytes of a buffer that is not empty succeeds. -/
theorem writen_eq (sink : Sink) {buf : List UInt8} {toWrite : Int} (whole : toWrite = buf.length) (filled : buf ≠ []) :
    (writen sink buf toWrite).1 = .E_ok ∧ (writen sink buf toWrite).2.1 = buf.length ∧
      (writen sink buf toWrite).2.2.bytes = sink.bytes ++ buf := by
  subst whole
  have positive := List.length_pos_of_ne_nil filled
  obtain ⟨count, bytes⟩ := @writeLoop_eq buf.length sink buf 0 le_rfl
  rw [writen, if_neg (by omega), Int.toNat_natCast, List.take_length]
  exact ⟨rfl, by rw [count, Nat.zero_add], bytes⟩

end Socket

@[simp] theorem hton_length (data : Int) : (hton data).length = 4 := rfl

/-- A length that fits comes back from its bytes. -/
theorem ntoh_hton {length : Nat} (fits : length < 2 ^ 31) : ntoh (hton length) = length := by
  have value : (BitVec.ofInt 32 (length : Int)).toNat = length := by
    rw [BitVec.ofInt_natCast, BitVec.toNat_ofNat]
    omega
  rw [ntoh, hton, value]
  simp only [List.foldl_cons, List.foldl_nil, UInt8.toNat_ofNat', Nat.toUInt8_eq]
  have bytes : (((0 * 256 + length / 2 ^ 24 % 2 ^ 8) * 256 + length / 2 ^ 16 % 2 ^ 8) * 256 +
      length / 2 ^ 8 % 2 ^ 8) * 256 + length % 2 ^ 8 = length := by omega
  have small : (BitVec.ofNat 32 length).toNat = length := by
    rw [BitVec.toNat_ofNat]
    omega
  rw [bytes, BitVec.toInt_eq_toNat_of_lt (by omega), small]

/-- A string with its length in front. -/
def frame (str : Text) : List UInt8 := hton str.length ++ str

namespace Sink

variable {sink : Sink} {str : Text}

/-- A write of a string sends its frame; only the empty string is refused, after its length was sent. -/
theorem writeString_eq (fits : str.length < 2 ^ 31) :
    (sink.writeString str).1 = (if str = [] then .of .E_invalid_arg else .of .E_ok) ∧
      (sink.writeString str).2.bytes = sink.bytes ++ frame str := by
  have size : castInt str.length = str.length := castInt_eq (by omega) (by omega)
  obtain ⟨code, count, bytes⟩ := @Socket.writen_eq sink (hton str.length) 4 rfl (by simp [hton])
  have fine : writeCode (Socket.writen sink (hton str.length) 4) 4 = .of .E_ok := by
    rw [writeCode, if_pos code, count]
    rfl
  unfold writeString
  simp only [size, fine]
  by_cases empty : str = []
  · subst empty
    exact ⟨rfl, bytes⟩
  · obtain ⟨second, written, all⟩ := @Socket.writen_eq (Socket.writen sink (hton str.length) 4).2.2 str _ rfl empty
    rw [if_neg empty, if_neg (by simp), writeCode, if_pos second, if_neg (by rw [written]; exact not_not.2 rfl)]
    refine ⟨rfl, ?_⟩
    rw [frame, ← List.append_assoc]
    exact all.trans (congrArg (· ++ str) bytes)

/-- The strings are sent as their frames. -/
theorem writeStrings_eq {strings : List Text} (fits : ∀ str ∈ strings, str.length < 2 ^ 31) :
    (sink.writeStrings strings).1 = strings.map (fun str => if str = [] then .of .E_invalid_arg else .of .E_ok) ∧
      (sink.writeStrings strings).2.bytes = sink.bytes ++ strings.flatMap frame := by
  induction strings generalizing sink with
  | nil => simp [writeStrings]
  | cons str rest later =>
      obtain ⟨code, bytes⟩ := @writeString_eq sink str (fits str List.mem_cons_self)
      obtain ⟨codes, others⟩ := @later (sink.writeString str).2 fun other inside => fits other (List.mem_cons_of_mem _ inside)
      exact ⟨congrArg₂ List.cons code codes, by
        rw [List.flatMap_cons, ← List.append_assoc, ← bytes]
        exact others⟩

end Sink

namespace Nio

/-- A connection without a buffer over a source that delivers all that was asked for. -/
structure Plain (io : Nio) (bytes : List UInt8) : Prop where
  unbuffered : io.buffered = false
  steady : io.source.Steady
  left : io.source.bytes = bytes

variable {io : Nio} {bytes rest : List UInt8} {str : Text}

/-- A read takes what was asked for, or what there is. -/
theorem Plain.read (plain : Plain io bytes) {toRead : Int} (positive : 0 < toRead) (memory : List UInt8) :
    ∃ later, Plain later (bytes.drop toRead.toNat) ∧
      io.read toRead memory = some (⟨.E_ok, bytes.take toRead.toNat⟩, later) := by
  refine ⟨{ io with source := (io.source.readn toRead).2 }, ⟨plain.unbuffered, ?_, ?_⟩, ?_⟩
  · rw [plain.steady.readn positive]
    exact plain.steady.drop _ _
  · rw [plain.steady.readn positive, ← plain.left]
  · rw [Nio.read, plain.unbuffered, if_neg (by decide), plain.steady.readn positive, plain.left]

theorem Plain.read_refused (plain : Plain io bytes) {toRead : Int} (nothing : toRead ≤ 0) (memory : List UInt8) :
    io.read toRead memory = some (⟨.E_invalid_arg, []⟩, io) := by
  rw [Nio.read, plain.unbuffered, if_neg (by decide), Source.readn, if_pos nothing]
  simp only [← plain.unbuffered]

/-- The string is read behind the four bytes of its length. -/
theorem readString_begun {io middle : Nio} {first : List UInt8} (str : Text) (four : first.length = 4)
    (length : io.read 4 (List.replicate 4 0) = some (⟨.E_ok, first⟩, middle)) :
    io.readString str = (if ntoh first < 0 then some ⟨.badArrayNewLength, str, [ntoh first], [4], middle⟩
      else (middle.read (ntoh first) (List.replicate (ntoh first).toNat 0)).bind fun (payload, io) =>
        if readCode payload (ntoh first) ≠ .of .E_ok then
          some ⟨.returned (readCode payload (ntoh first)), str, [ntoh first], [4, ntoh first], io⟩
        else some ⟨.returned (.of .E_ok), payload.bytes ++ str, [ntoh first], [4, ntoh first], io⟩) := by
  have fine : readCode ⟨.E_ok, first⟩ 4 = .of .E_ok := by
    rw [readCode, if_pos rfl, four]
    rfl
  rw [Nio.readString, length, Option.bind_eq_bind, Option.bind_some]
  simp only [fine, ne_eq, not_true_eq_false, if_false]
  rfl

/-- The call of `read_string` on a connection that holds a length and what follows it. -/
theorem Plain.readString {first : List UInt8} (plain : Plain io (first ++ rest)) (str : Text)
    (four : first.length = 4) :
    ∃ later, Plain later (rest.drop (ntoh first).toNat) ∧
      (ntoh first < 0 → ∃ io', io.readString str = some ⟨.badArrayNewLength, str, [ntoh first], [4], io'⟩) ∧
      (ntoh first = 0 → io.readString str = some ⟨.returned (.of .E_invalid_arg), str, [0], [4, 0], later⟩) ∧
      (0 < ntoh first → (rest.length : Int) < ntoh first →
        io.readString str = some ⟨.returned .E_read_failed, str, [ntoh first], [4, ntoh first], later⟩) ∧
      (0 < ntoh first → ntoh first ≤ rest.length →
        io.readString str = some ⟨.returned (.of .E_ok), rest.take (ntoh first).toNat ++ str, [ntoh first],
          [4, ntoh first], later⟩) := by
  obtain ⟨middle, held, length⟩ := plain.read (by decide : (0 : Int) < 4) (List.replicate 4 0)
  have size : (4 : Int).toNat = first.length := four.symm
  rw [size, List.drop_left] at held
  rw [size, List.take_left] at length
  have begun := readString_begun str four length
  by_cases positive : 0 < ntoh first
  · obtain ⟨later, left, payload⟩ := held.read positive (List.replicate (ntoh first).toNat 0)
    rw [payload, if_neg (by omega), Option.bind_some] at begun
    dsimp only at begun
    refine ⟨later, left, fun negative => by omega, fun zero => by omega, ?_, ?_⟩
    · intro _ short
      have failed : readCode ⟨.E_ok, rest.take (ntoh first).toNat⟩ (ntoh first) = .E_read_failed := by
        rw [readCode, if_pos rfl, if_pos]
        simp only [List.length_take]
        omega
      rw [begun, failed, if_pos (by decide)]
    · intro _ enough
      have done : readCode ⟨.E_ok, rest.take (ntoh first).toNat⟩ (ntoh first) = .of .E_ok := by
        rw [readCode, if_pos rfl, if_neg]
        simp only [List.length_take]
        omega
      rw [begun, done, if_neg (not_not.2 rfl)]
  · refine ⟨middle, ?_, ?_, ?_, fun wrong => by omega, fun wrong => by omega⟩
    · rw [show (ntoh first).toNat = 0 by omega]
      exact held
    · intro negative
      exact ⟨middle, by rw [begun, if_pos negative]⟩
    · intro zero
      rw [begun, if_neg (by omega), held.read_refused (by omega), zero]
      rfl

/-- The frames of strings come back as these strings if and only if none is empty and each variable was empty. -/
theorem Plain.readStrings_iff (strings : List (Text × Text)) (fits : ∀ string ∈ strings, string.1.length < 2 ^ 31)
    (plain : Plain io ((strings.map Prod.fst).flatMap frame)) :
    io.readStrings (strings.map Prod.snd) = some (strings.map fun string => (.returned (.of .E_ok), string.1)) ↔
      ∀ string ∈ strings, string.1 ≠ [] ∧ string.2 = [] := by
  induction strings generalizing io with
  | nil => simp [readStrings]
  | cons string rest later =>
      obtain ⟨str, old⟩ := string
      have short : str.length < 2 ^ 31 := fits _ List.mem_cons_self
      have shape : ((((str, old) :: rest).map Prod.fst).flatMap frame) =
          hton str.length ++ (str ++ (rest.map Prod.fst).flatMap frame) := by
        rw [List.map_cons, List.flatMap_cons, frame, List.append_assoc]
      rw [shape] at plain
      obtain ⟨next, left, -, empty, -, whole⟩ := plain.readString old (hton_length _)
      rw [ntoh_hton short] at left empty whole
      rw [Int.toNat_natCast] at left whole
      rw [List.drop_left] at left
      simp only [List.map_cons, readStrings, Option.bind_eq_bind, List.forall_mem_cons]
      by_cases filled : str = []
      · subst filled
        rw [empty rfl, Option.bind_some]
        constructor
        · intro same
          obtain ⟨others, -, same⟩ := Option.bind_eq_some_iff.1 same
          cases same
        · intro wrong
          exact absurd rfl wrong.1.1
      · have positive := List.length_pos_of_ne_nil filled
        rw [whole (by omega) (by rw [List.length_append]; omega), Option.bind_some, List.take_left]
        have others := later (fun string inside => fits string (List.mem_cons_of_mem _ inside)) left
        constructor
        · intro same
          obtain ⟨results, read, same⟩ := Option.bind_eq_some_iff.1 same
          obtain ⟨head, tail⟩ := List.cons.inj (Option.some.inj same)
          rw [tail] at read
          have before : str ++ old = str := congrArg Prod.snd head
          exact ⟨⟨filled, List.append_right_eq_self.1 before⟩, others.1 read⟩
        · rintro ⟨⟨-, none⟩, fine⟩
          subst none
          rw [others.2 fine, Option.bind_some, List.append_nil]
          rfl

/-- A connection with a buffer refuses each read of a string before it allocates anything. -/
theorem readString_buffered {io : Nio} (buffered : io.buffered = true) (empty : io.len ≤ io.idx) (str : Text) :
    io.readString str = some ⟨.returned (.of .E_invalid_state), str, [], [4], io⟩ := by
  rw [readString, Nio.read, buffered, if_pos rfl, readBuffered_empty (by decide) _ empty]
  rfl

end Nio

theorem receiver_plain (bytes : List UInt8) (portion : Nat → Nat) : (receiver none bytes portion).Plain bytes :=
  ⟨rfl, Socket.source_steady _, rfl⟩

theorem receiver_buffered (size : Int) (bytes : List UInt8) (portion : Nat → Nat) (str : Text) :
    (receiver (some size) bytes portion).readString str =
      some ⟨.returned (.of .E_invalid_state), str, [], [4], receiver (some size) bytes portion⟩ :=
  Nio.readString_buffered rfl le_rfl str

/-- Strings come back if and only if there are none, or the connection has no buffer, no string is empty and each
variable was empty. -/
theorem framesBack_iff (bufsize : Option Int) (sent received : Nat → Nat) (strings : List (Text × Text))
    (fits : ∀ string ∈ strings, string.1.length < 2 ^ 31) :
    FramesBack bufsize sent received strings ↔
      strings = [] ∨ bufsize = none ∧ ∀ string ∈ strings, string.1 ≠ [] ∧ string.2 = [] := by
  have short : ∀ str ∈ strings.map Prod.fst, str.length < 2 ^ 31 := by
    simpa using fun str old inside => fits (str, old) inside
  obtain ⟨codes, bytes⟩ := @Sink.writeStrings_eq ⟨[], sent, 0⟩ _ short
  rw [FramesBack, codes, bytes, List.nil_append, List.map_map]
  cases bufsize with
  | none =>
      rw [(receiver_plain _ received).readStrings_iff strings fits]
      constructor
      · rintro ⟨-, fine⟩
        exact .inr ⟨rfl, fine⟩
      · rintro (rfl | ⟨-, fine⟩)
        · simp
        · refine ⟨List.map_congr_left fun string inside => ?_, fine⟩
          exact if_neg (fine string inside).1
  | some size =>
      constructor
      · rintro ⟨-, read⟩
        cases strings with
        | nil => exact .inl rfl
        | cons string rest =>
            simp only [List.map_cons, Nio.readStrings, receiver_buffered, Option.bind_eq_bind, Option.bind_some] at read
            obtain ⟨others, -, same⟩ := Option.bind_eq_some_iff.1 read
            cases same
      · rintro (rfl | ⟨wrong, -⟩)
        · exact ⟨rfl, rfl⟩
        · cases wrong

/-- A length from the peer does no harm if and only if the connection has a buffer, or the length is positive and the
string does not come after an old content. -/
theorem readsSafely_iff (bufsize : Option Int) (received : Nat → Nat) (length : UInt8 × UInt8 × UInt8 × UInt8)
    (rest : List UInt8) (str : Text) :
    let announced := ntoh [length.1, length.2.1, length.2.2.1, length.2.2.2]
    ReadsSafely bufsize received length rest str ↔
      bufsize.isSome ∨ 0 < announced ∧ (str = [] ∨ (rest.length : Int) < announced) := by
  intro announced
  unfold ReadsSafely
  dsimp only
  cases bufsize with
  | some size =>
      rw [receiver_buffered]
      simp
  | none =>
      obtain ⟨later, -, negative, zero, short, whole⟩ := (receiver_plain
        ([length.1, length.2.1, length.2.2.1, length.2.2.2] ++ rest) received).readString str rfl
      change (announced < 0 → _) at negative
      change (announced = 0 → _) at zero
      change (0 < announced → (rest.length : Int) < announced → _) at short
      change (0 < announced → announced ≤ rest.length → _) at whole
      have nowhere : ∀ size : Int, (none : Option Int).isSome = true ∨ 0 < announced ∧ (str = [] ∨ size < announced) ↔
          0 < announced ∧ (str = [] ∨ size < announced) := by simp
      rw [nowhere]
      by_cases positive : 0 < announced
      · by_cases enough : announced ≤ rest.length
        · have size : ((rest.take announced.toNat).length : Int) = announced := by
            rw [List.length_take]
            omega
          have read := whole positive enough
          constructor
          · rintro ⟨found, code, same, -, ended, right⟩
            obtain rfl := Option.some.inj (read.symm.trans same)
            cases ended
            have kept := (right rfl).1
            exact ⟨positive, .inl (List.append_right_eq_self.1 kept)⟩
          · rintro ⟨-, rfl | wrong⟩
            · refine ⟨_, .of .E_ok, read, by simpa using positive, rfl, fun _ => ?_⟩
              rw [List.append_nil]
              exact ⟨rfl, size⟩
            · omega
        · have read := short positive (by omega)
          constructor
          · intro _
            exact ⟨positive, .inr (by omega)⟩
          · intro _
            exact ⟨_, .E_read_failed, read, by simpa using positive, rfl, fun wrong => by cases wrong⟩
      · constructor
        · rintro ⟨found, code, same, sizes, ended, -⟩
          by_cases nothing : announced = 0
          · obtain rfl := Option.some.inj ((zero nothing).symm.trans same)
            exact absurd (sizes 0 (by simp)) (by decide)
          · obtain ⟨io, read⟩ := negative (by omega)
            obtain rfl := Option.some.inj (read.symm.trans same)
            cases ended
        · rintro ⟨wrong, -⟩
          exact absurd wrong positive

/-- What was written comes back, and a length from the peer does no harm, exactly under these conditions. -/
theorem readString_writeString_iff (bufsize : Option Int) (sent received : Nat → Nat) (strings : List (Text × Text))
    (fits : ∀ string ∈ strings, string.1.length < 2 ^ 31) (length : UInt8 × UInt8 × UInt8 × UInt8) (rest : List UInt8)
    (str : Text) :
    let announced := ntoh [length.1, length.2.1, length.2.2.1, length.2.2.2]
    (FramesBack bufsize sent received strings ↔
      strings = [] ∨ bufsize = none ∧ ∀ string ∈ strings, string.1 ≠ [] ∧ string.2 = []) ∧
    (ReadsSafely bufsize received length rest str ↔
      bufsize.isSome ∨ 0 < announced ∧ (str = [] ∨ (rest.length : Int) < announced)) :=
  ⟨framesBack_iff bufsize sent received strings fits, readsSafely_iff bufsize received length rest str⟩

theorem readString_writeString_iff_one :
    (FramesBack none (fun _ => 0) (fun _ => 1) [(text "a", [])] ↔
      [(text "a", ([] : Text))] = [] ∨ (none : Option Int) = none ∧
        ∀ string ∈ [(text "a", ([] : Text))], string.1 ≠ [] ∧ string.2 = []) ∧
    (ReadsSafely none (fun _ => 1) (0, 0, 0, 1) (text "a") [] ↔
      (none : Option Int).isSome ∨ 0 < ntoh [0, 0, 0, 1] ∧
        (([] : Text) = [] ∨ ((text "a").length : Int) < ntoh [0, 0, 0, 1])) :=
  readString_writeString_iff none (fun _ => 0) (fun _ => 1) [(text "a", [])] (by decide) (0, 0, 0, 1) (text "a") []

/-- The empty string does not come back. -/
theorem framesBack_empty : ¬ ∀ (sent received : Nat → Nat) (strings : List (Text × Text)),
    (∀ string ∈ strings, string.1.length < 2 ^ 31) → FramesBack none sent received strings := by
  intro claimed
  have codes := (claimed (fun _ => 0) (fun _ => 0) [([], [])] (by decide)).1
  revert codes
  decide

end SimpleNFast.Net
