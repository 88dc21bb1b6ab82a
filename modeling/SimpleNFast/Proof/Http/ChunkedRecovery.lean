import SimpleNFast.Proof.Http.ChunkedDecoding

namespace SimpleNFast.Http

section Zeros

variable {is later : IStream} {data : Text}

theorem IStream.get_zeros (is : IStream) :
    (is.get.1.toList).count 0 + is.get.2.chars.count 0 ≤ is.chars.count 0 := by
  rw [IStream.get]
  split
  · simp
  · split
    · simp
    · rename_i next rest chars
      rw [chars]
      simp only [Option.toList_some, List.count_cons, List.count_nil]
      omega

theorem IStream.readlineLoop_zeros (fuel : Nat) (is : IStream) :
    (IStream.readlineLoop fuel is).2.chars.count 0 ≤ is.chars.count 0 := by
  induction fuel generalizing is with
  | zero => exact Nat.le_refl _
  | succ fuel inductionHypothesis =>
      have step := IStream.get_zeros is
      rw [IStream.readlineLoop]
      split
      · rename_i next found
        rw [found] at step
        exact (Nat.le_add_left _ _).trans step
      · rename_i char next found
        rw [found] at step
        have tail := inductionHypothesis next
        dsimp only at step
        split
        · dsimp only
          omega
        · dsimp only
          omega

/-- The loop of `read` keeps or drops each byte that it takes from the stream. -/
theorem IStream.readLoop_zeros (toRead : Int) (fuel count : Nat) (is : IStream) :
    (IStream.readLoop toRead fuel count is).1.count 0 + (IStream.readLoop toRead fuel count is).2.chars.count 0 ≤
      is.chars.count 0 := by
  induction fuel generalizing count is with
  | zero => simp [IStream.readLoop]
  | succ fuel inductionHypothesis =>
      have step := IStream.get_zeros is
      rw [IStream.readLoop]
      split
      · rename_i next found
        rw [found] at step
        simpa using step
      · rename_i char next found
        rw [found] at step
        have tail := inductionHypothesis (count + 1) next
        simp only [Option.toList_some, List.count_cons, List.count_nil] at step
        split
        · simp only [List.count_cons]
          omega
        · simp only [List.count_nil]
          omega

theorem istreamInput_readline_zeros {line : Text} (read : istreamInput.readline is = .ok (line, later)) :
    later.chars.count 0 ≤ is.chars.count 0 := by
  have bound := IStream.readlineLoop_zeros (is.chars.length + 1) is
  simp only [istreamInput, IStream.readline] at read
  split at read
  · cases read
  · rename_i found
    cases read
    rw [← (Prod.mk.inj found).2]
    exact bound

theorem istreamInput_getc_zeros {char : Int} (read : istreamInput.getc is = .ok (char, later)) :
    later.chars.count 0 ≤ is.chars.count 0 := by
  have bound := IStream.get_zeros is
  simp only [istreamInput] at read
  split at read
  all_goals
    rename_i found
    cases read
    rw [found] at bound
    exact (Nat.le_add_left _ _).trans bound

theorem istreamInput_read_zeros {toRead : Int} (read : istreamInput.read is toRead = .ok (data, later)) :
    data.count 0 + later.chars.count 0 ≤ is.chars.count 0 := by
  have bound := IStream.readLoop_zeros toRead (is.chars.length + 1) 0 is
  simp only [istreamInput, IStream.read] at read
  split at read
  · cases read
  · rename_i found
    cases read
    obtain ⟨kept, left⟩ := Prod.mk.inj found
    split at kept
    · cases kept
    · cases kept
      rw [← left]
      exact bound

theorem expectCrlf_zeros {what : Text} (read : StreamSource.expectCrlf istreamInput is what = .ok later) :
    later.chars.count 0 ≤ is.chars.count 0 := by
  rw [StreamSource.expectCrlf] at read
  cases first : istreamInput.getc is with
  | error fault =>
      rw [first] at read
      cases read
  | ok result =>
      obtain ⟨char, middle⟩ := result
      rw [first] at read
      change (if (char != code '\r') = true then _ else _) = _ at read
      split at read
      · cases read
      · change (istreamInput.getc middle).bind _ = _ at read
        cases second : istreamInput.getc middle with
        | error fault =>
            rw [second] at read
            cases read
        | ok result =>
            obtain ⟨other, final⟩ := result
            rw [second] at read
            change (if (other != code '\n') = true then _ else _) = _ at read
            split at read
            · cases read
            · cases read
              exact (istreamInput_getc_zeros second).trans (istreamInput_getc_zeros first)

theorem istream_hasNext_zeros {body ready : StreamSource IStream} {more : Bool}
    (found : body.hasNext istreamInput = .ok (more, ready)) :
    ready.input.chars.count 0 ≤ body.input.chars.count 0 := by
  rw [StreamSource.hasNext] at found
  split at found
  · cases found
    exact Nat.le_refl _
  · split at found
    · cases first : istreamInput.readline body.input with
      | error fault =>
          rw [first] at found
          cases found
      | ok result =>
          obtain ⟨line, rest⟩ := result
          have bound := istreamInput_readline_zeros first
          rw [first] at found
          change (StreamSource.chunkLine (Scanner.init line)).bind _ = _ at found
          cases second : StreamSource.chunkLine (Scanner.init line) with
          | error fault =>
              rw [second] at found
              cases found
          | ok result =>
              obtain ⟨⟨count, extensions⟩, scanner⟩ := result
              rw [second] at found
              change (if count = 0 then
                (StreamSource.expectCrlf istreamInput rest _).bind _ else _) = _ at found
              split at found
              · cases third : StreamSource.expectCrlf istreamInput rest
                    (text "message body not terminated properly") with
                | error fault =>
                    rw [third] at found
                    cases found
                | ok final =>
                    rw [third] at found
                    cases found
                    exact (expectCrlf_zeros third).trans bound
              · cases found
                exact bound
    · cases found
      exact Nat.le_refl _

theorem istream_next_zeros {body ready : StreamSource IStream} (taken : body.next istreamInput = .ok (data, ready)) :
    data.count 0 + ready.input.chars.count 0 ≤ body.input.chars.count 0 := by
  obtain ⟨left, read, -, -, -, ends⟩ := next_inversion taken
  have bound := istreamInput_read_zeros read
  split at ends
  · have less := expectCrlf_zeros ends
    omega
  · rw [ends]
    exact bound

/-- A stream body delivers at most the zeros that its stream has. -/
theorem istream_drains_zeros {body last : Body} (drained : Drains body data last) :
    ∀ source, body = .istream source → data.count 0 ≤ source.input.chars.count 0 := by
  induction drained with
  | done none =>
      intro source same
      simp
  | @step body ready next last data rest more taken _ inductionHypothesis =>
      intro source same
      subst same
      rw [Body.hasNext] at more
      cases found : source.hasNext istreamInput with
      | error fault =>
          rw [found] at more
          cases more
      | ok result =>
          obtain ⟨again, middle⟩ := result
          rw [found] at more
          cases more
          rw [Body.next] at taken
          cases moved : middle.next istreamInput with
          | error fault =>
              rw [moved] at taken
              cases taken
          | ok result =>
              obtain ⟨piece, final⟩ := result
              rw [moved] at taken
              cases taken
              have tail := inductionHypothesis final rfl
              have first := istream_hasNext_zeros found
              have second := istream_next_zeros moved
              rw [List.count_append]
              omega

end Zeros

/-- The loop of `read` takes one byte more than it keeps. -/
theorem IStream.readLoop_drops {toRead : Int} {data : Text} (rest : Text) (char : UInt8) (fuel count : Nat)
    (amount : (toRead - count).toNat = data.length) (enough : data.length < fuel) :
    IStream.readLoop toRead fuel count ⟨data ++ char :: rest, false⟩ = (data, ⟨rest, false⟩) := by
  induction data generalizing fuel count with
  | nil =>
      obtain ⟨fuel, rfl⟩ : ∃ smaller, fuel = smaller + 1 := ⟨fuel - 1, by simp at enough; omega⟩
      have full : ¬ (count : Int) < toRead := by
        rw [List.length_nil] at amount
        omega
      rw [IStream.readLoop]
      change (if (count : Int) < toRead then _ else _) = _
      rw [if_neg full]
  | cons first data inductionHypothesis =>
      obtain ⟨fuel, rfl⟩ : ∃ smaller, fuel = smaller + 1 := ⟨fuel - 1, by simp at enough; omega⟩
      rw [List.length_cons] at amount enough
      have tail := inductionHypothesis fuel (count + 1) (by omega) (by omega)
      rw [IStream.readLoop]
      change (if (count : Int) < toRead then
        (first :: (IStream.readLoop toRead fuel (count + 1) ⟨data ++ char :: rest, false⟩).1,
          (IStream.readLoop toRead fuel (count + 1) ⟨data ++ char :: rest, false⟩).2) else _) = _
      rw [if_pos (by omega), tail]

section Istream

variable {size read : Nat} {extensions : Params} {rest data : Text} {char : UInt8}

theorem istreamInput_read {toRead : Int} (amount : toRead.toNat = data.length) :
    istreamInput.read ⟨data ++ char :: rest, false⟩ toRead = .ok (data, ⟨rest, false⟩) := by
  have loop := IStream.readLoop_drops rest char ((data ++ char :: rest).length + 1) 0
    (by simpa using amount) (by simp)
  simp only [istreamInput, IStream.read, loop]
  rfl

/-- A call of `next` loses the byte after the data it returns. -/
theorem istream_next
    (amount : (StreamSource.toRead (⟨⟨data ++ char :: rest, false⟩, size, read, true, extensions⟩ :
      StreamSource IStream)).toNat = data.length) :
    (Body.istream ⟨⟨data ++ char :: rest, false⟩, size, read, true, extensions⟩).next =
      if size ≤ read + data.length then
        (StreamSource.expectCrlf istreamInput ⟨rest, false⟩ (text "chunk data not terminated properly")).bind
          fun rest => .ok (data, .istream ⟨rest, size, read + data.length, true, extensions⟩)
      else .ok (data, .istream ⟨⟨rest, false⟩, size, read + data.length, true, extensions⟩) := by
  rw [Body.next, StreamSource.next, istreamInput_read amount]
  change Except.map _ (if (true && decide (size ≤ read + data.length)) = true then
    (StreamSource.expectCrlf istreamInput ⟨rest, false⟩ (text "chunk data not terminated properly")).bind _
    else _) = _
  rw [Bool.true_and]
  by_cases whole : size ≤ read + data.length
  · simp only [whole, decide_true, if_true]
    cases StreamSource.expectCrlf istreamInput ⟨rest, false⟩ (text "chunk data not terminated properly") <;> rfl
  · simp only [whole, decide_false, Bool.false_eq_true, if_false]
    rfl

end Istream

namespace ChunkedLayout

/-- The chunks that consist of zeros. -/
def zeros (lines : List SizeLine) : List Text := lines.map fun line => List.replicate line.count 0

theorem fits_zeros (layout : ChunkedLayout) : layout.Fits (zeros layout.lines) := by
  rw [Fits, zeros, List.forall₂_map_right_iff, List.forall₂_same]
  intro line _
  rw [List.length_replicate]

theorem count_flatten_zeros (lines : List SizeLine) :
    (zeros lines).flatten.count 0 = (lines.map SizeLine.count).sum := by
  induction lines with
  | nil => rfl
  | cons line lines inductionHypothesis =>
      rw [zeros, List.map_cons, List.flatten_cons, List.count_append, List.count_replicate_self, ← zeros,
        inductionHypothesis, List.map_cons, List.sum_cons]

theorem count_line (line : SizeLine) : line.spelling.count 0 = 0 := by
  rw [List.count_eq_zero]
  intro member
  have split : line.spelling = line.content ++ crlf := rfl
  rw [split, List.mem_append] at member
  obtain inside | terminator := member
  · exact (line.visible _ inside).1 rfl
  · exact absurd terminator (by decide)

theorem count_chunks_zeros (lines : List SizeLine) :
    (chunks lines (zeros lines)).count 0 = (lines.map SizeLine.count).sum := by
  have terminator : crlf.count 0 = 0 := by decide
  induction lines with
  | nil => rfl
  | cons line lines inductionHypothesis =>
      change (line.spelling ++ List.replicate line.count 0 ++ crlf ++ chunks lines (zeros lines)).count 0 = _
      rw [List.count_append, List.count_append, List.count_append, count_line, terminator,
        List.count_replicate_self, inductionHypothesis, List.map_cons, List.sum_cons]
      omega

variable {size read : Nat} {extensions : Params} {rest : Text} {ending : Ending} {line last : SizeLine}

/-- The line of the last chunk ends a body from a socket when it is plain, and throws otherwise. -/
theorem socket_last_iff (rest : Text) (ending : Ending) (extensions : Params) (zero : last.count = 0)
    (finished : size ≤ read) (drained : Text) :
    (∃ final : StreamSource Nio,
      Drains (.socket ⟨⟨last.spelling ++ (crlf ++ rest), ending⟩, size, read, true, extensions⟩) drained
        (.socket final) ∧ final.input = ⟨rest, ending⟩) ↔ drained = [] ∧ last.plain = true := by
  cases plain : last.plain with
  | false =>
      obtain ⟨fault, failed⟩ := hasNext_fault (socket_feeds ending) (crlf ++ rest) extensions
        (by omega) plain finished
      constructor
      · rintro ⟨final, drains, -⟩
        have stopped : (Body.socket ⟨⟨last.spelling ++ (crlf ++ rest), ending⟩, size, read, true, extensions⟩).hasNext =
            .error fault := by
          rw [Body.hasNext, failed]
          rfl
        exact absurd drains (Drains.not_of_fault stopped)
      · rintro ⟨-, never⟩
        cases never
  | true =>
      obtain ⟨others, ended⟩ := hasNext_last (socket_feeds ending) rest extensions
        zero plain finished
      have none : (Body.socket ⟨⟨last.spelling ++ (crlf ++ rest), ending⟩, size, read, true, extensions⟩).hasNext =
          .ok (false, .socket ⟨⟨rest, ending⟩, 0, read, true, others⟩) := by
        rw [Body.hasNext, ended]
        rfl
      constructor
      · rintro ⟨final, drains, -⟩
        exact ⟨((Drains.done_iff none).mp drains).1, rfl⟩
      · rintro ⟨rfl, -⟩
        exact ⟨_, (Drains.done_iff none).mpr ⟨rfl, rfl⟩, rfl⟩

/-- A size line that is not plain stops a body from a socket. -/
theorem socket_strange_never (small : line.count < 2 ^ 63) (strange : line.plain = false) (finished : size ≤ read)
    (drained : Text) (final : Body) :
    ¬ Drains (.socket ⟨⟨line.spelling ++ rest, ending⟩, size, read, true, extensions⟩) drained final := by
  obtain ⟨fault, failed⟩ := hasNext_fault (socket_feeds ending) rest extensions small
    strange finished
  have stopped : (Body.socket ⟨⟨line.spelling ++ rest, ending⟩, size, read, true, extensions⟩).hasNext =
      .error fault := by
    rw [Body.hasNext, failed]
    rfl
  exact Drains.not_of_fault stopped

/-- The first line of a body starts its first chunk. -/
theorem socket_starts (rest : Text) (ending : Ending) (plain : line.plain = true) (positive : 0 < line.count)
    (small : line.count < 2 ^ 63) :
    ∃ others, (Body.fromSocket ⟨line.spelling ++ rest, ending⟩).hasNext =
      .ok (true, .socket ⟨⟨rest, ending⟩, line.count, 0, true, others⟩) := by
  obtain ⟨others, starts⟩ := hasNext_line (socket_feeds ending) rest [] small plain (by omega) (Nat.le_refl 0)
  refine ⟨others, ?_⟩
  rw [Body.fromSocket, Body.hasNext, starts, decide_eq_true positive]
  rfl

/-- A body that has started is drained as one that finds its chunk. -/
theorem drains_ready {body ready final : Body} {drained : Text} (more : body.hasNext = .ok (true, ready))
    (again : ready.hasNext = .ok (true, ready)) : Drains body drained final ↔ Drains ready drained final := by
  cases taken : ready.next with
  | error fault =>
      exact iff_of_false (Drains.not_of_next_fault more taken) (Drains.not_of_next_fault again taken)
  | ok result => rw [Drains.step_iff more taken, Drains.step_iff again taken]

theorem socket_hasNext_more {source : StreamSource Nio} (less : source.read < source.size) :
    (Body.socket source).hasNext = .ok (true, .socket source) := by
  rw [Body.hasNext, hasNext_more less]
  rfl

/-- A first chunk below 2^31 bytes with a plain line is drained. -/
theorem socket_first_iff (chunk rest : Text) (ending : Ending) (plain : line.plain = true) (positive : 0 < line.count)
    (small : line.count < 2 ^ 31) (fits : line.count = chunk.length) :
    ∃ extensions, ∀ drained final,
      Drains (Body.fromSocket ⟨line.spelling ++ (chunk ++ (crlf ++ rest)), ending⟩) drained final ↔
        ∃ others, drained = chunk ++ others ∧
          Drains (.socket ⟨⟨rest, ending⟩, line.count, line.count, true, extensions⟩) others final := by
  obtain ⟨extensions, starts⟩ := socket_starts (chunk ++ (crlf ++ rest)) ending plain positive
    (by omega)
  refine ⟨extensions, fun drained final => ?_⟩
  rw [drains_ready starts (socket_hasNext_more positive)]
  exact socket_chunk_iff chunk (List.length_pos_iff.mp (by omega)) (by omega) (by omega) drained final

/-- A second chunk of zeros is left out or read from the wrong count on. -/
theorem socket_second_never {count : Nat} {drained : Text} {final : Body} (before : 0 < count)
    (positive : 0 < line.count) (small : line.count < 2 ^ 63) (some : drained ≠ []) :
    ¬ Drains (.socket ⟨⟨line.spelling ++ (List.replicate line.count 0 ++ rest), ending⟩, count, count, true,
      extensions⟩) drained final := by
  cases plain : line.plain with
  | false => exact socket_strange_never small plain (Nat.le_refl _) _ _
  | true =>
      obtain ⟨others, found⟩ := hasNext_line (socket_feeds ending) (List.replicate line.count 0 ++ rest)
        extensions small plain (by omega) (Nat.le_refl count)
      have next : (Body.socket ⟨⟨line.spelling ++ (List.replicate line.count 0 ++ rest), ending⟩, count, count, true,
          extensions⟩).hasNext = .ok (decide (count < line.count),
            .socket ⟨⟨List.replicate line.count 0 ++ rest, ending⟩, line.count, count, true, others⟩) := by
        rw [Body.hasNext, found]
        rfl
      by_cases grows : count < line.count
      · rw [decide_eq_true grows] at next
        rw [drains_ready next (socket_hasNext_more grows)]
        exact socket_zeros_never grows (by omega) _ _
      · rw [decide_eq_false grows] at next
        rw [Drains.done_iff next]
        rintro ⟨empty, -⟩
        exact some empty

/-- The lines of a recovered body from a socket, when its data may be anything. -/
theorem socket_recovery_lines (layout : ChunkedLayout)
    (recovers : layout.SocketRecovers (zeros layout.lines) [] .closed) :
    layout.lines.length ≤ 1 ∧ (∀ line ∈ layout.lines, line.count < 2 ^ 31) ∧
      ∀ line ∈ layout.last :: layout.lines, line.plain = true := by
  obtain ⟨final, drains, left⟩ := recovers
  have zero := layout.zero
  have sized := layout.sized
  rw [spelling, List.append_nil] at drains
  match shape : layout.lines with
  | [] =>
      rw [shape] at drains
      have ended := (socket_last_iff [] .closed [] zero (Nat.le_refl 0) _).mp
        ⟨final, drains, left⟩
      simp [ended.2]
  | first :: others =>
      rw [shape] at drains sized
      have bounds := sized first List.mem_cons_self
      have text : chunks (first :: others) (zeros (first :: others)) ++ layout.last.spelling ++ crlf =
          first.spelling ++ (List.replicate first.count 0 ++
            (crlf ++ (chunks others (zeros others) ++ layout.last.spelling ++ crlf))) := by
        change first.spelling ++ List.replicate first.count 0 ++ crlf ++ chunks others (zeros others) ++
          layout.last.spelling ++ crlf = _
        simp only [List.append_assoc]
      rw [text] at drains
      have plain : first.plain = true := by
        by_contra strange
        exact socket_strange_never bounds.2 (by simpa using strange) (Nat.le_refl 0) _ _ drains
      have small : first.count < 2 ^ 31 := by
        by_contra large
        obtain ⟨extensions, starts⟩ := socket_starts (List.replicate first.count 0 ++
          (crlf ++ (chunks others (zeros others) ++ layout.last.spelling ++ crlf))) .closed plain bounds.1 bounds.2
        rw [drains_ready starts (socket_hasNext_more bounds.1)] at drains
        exact socket_large_never (by omega) _ _ drains
      obtain ⟨extensions, first_iff⟩ := socket_first_iff (List.replicate first.count 0)
        (chunks others (zeros others) ++ layout.last.spelling ++ crlf) .closed plain bounds.1
        small List.length_replicate.symm
      obtain ⟨more, together, drains⟩ := (first_iff _ _).mp drains
      have same : (zeros others).flatten = more := by
        have split : (zeros (first :: others)).flatten = List.replicate first.count 0 ++ (zeros others).flatten := rfl
        rw [split] at together
        exact List.append_cancel_left together
      subst same
      match others with
      | [] =>
          have ended := (socket_last_iff [] .closed extensions zero (Nat.le_refl _) _).mp
            ⟨final, by simpa [chunks] using drains, left⟩
          refine ⟨Nat.le_refl 1, ?_, ?_⟩
          · intro line member
            rw [List.mem_singleton] at member
            rw [member]
            exact small
          · intro line member
            simp only [List.mem_cons, List.not_mem_nil, or_false] at member
            obtain rfl | rfl := member
            · exact ended.2
            · exact plain
      | second :: others =>
          have next := sized second (List.mem_cons_of_mem _ List.mem_cons_self)
          have shape : chunks (second :: others) (zeros (second :: others)) ++ layout.last.spelling ++ crlf =
              second.spelling ++ (List.replicate second.count 0 ++
                (crlf ++ chunks others (zeros others) ++ layout.last.spelling ++ crlf)) := by
            change second.spelling ++ List.replicate second.count 0 ++ crlf ++ chunks others (zeros others) ++
              layout.last.spelling ++ crlf = _
            simp only [List.append_assoc]
          rw [shape] at drains
          refine absurd drains (socket_second_never bounds.1 next.1 next.2 ?_)
          intro empty
          have whole : (zeros (second :: others)).flatten =
              List.replicate second.count 0 ++ (zeros others).flatten := rfl
          rw [whole, List.append_eq_nil_iff, List.replicate_eq_nil_iff] at empty
          omega

/-- A body from a socket with at most one chunk is recovered. -/
theorem socket_recovers (layout : ChunkedLayout) (few : layout.lines.length ≤ 1)
    (small : ∀ line ∈ layout.lines, line.count < 2 ^ 31)
    (plain : ∀ line ∈ layout.last :: layout.lines, line.plain = true) (data : List Text) (rest : Text)
    (ending : Ending) (fits : layout.Fits data) : layout.SocketRecovers data rest ending := by
  have zero := layout.zero
  have sized := layout.sized
  have lastPlain := plain layout.last List.mem_cons_self
  rw [Fits] at fits
  rw [SocketRecovers, spelling]
  match shape : layout.lines with
  | [] =>
      rw [shape] at fits
      cases fits
      have text : chunks [] [] ++ layout.last.spelling ++ crlf ++ rest = layout.last.spelling ++ (crlf ++ rest) := by
        simp [chunks]
      rw [text]
      exact (socket_last_iff rest ending [] zero (Nat.le_refl 0) _).mpr ⟨rfl, lastPlain⟩
  | [line] =>
      rw [shape] at fits sized small plain
      cases fits with
      | cons first others =>
          rename_i chunk data
          cases others
          have bounds := sized line List.mem_cons_self
          have text : chunks [line] [chunk] ++ layout.last.spelling ++ crlf ++ rest =
              line.spelling ++ (chunk ++ (crlf ++ (layout.last.spelling ++ (crlf ++ rest)))) := by
            simp [chunks]
          obtain ⟨extensions, first_iff⟩ := socket_first_iff chunk
            (layout.last.spelling ++ (crlf ++ rest)) ending (plain line (List.mem_cons_of_mem _ List.mem_cons_self)) bounds.1 (small line List.mem_cons_self) first
          obtain ⟨final, drains, left⟩ := (socket_last_iff rest ending extensions zero
            (Nat.le_refl line.count) []).mpr ⟨rfl, lastPlain⟩
          refine ⟨final, ?_, left⟩
          rw [text, first_iff]
          exact ⟨[], rfl, drains⟩
  | first :: second :: others =>
      rw [shape] at few
      simp at few

/-- The line of the last chunk ends a body from a stream when it is plain, and throws otherwise. -/
theorem istream_last_iff (rest : Text) (extensions : Params) (zero : last.count = 0) (finished : size ≤ read)
    (drained : Text) :
    (∃ final : StreamSource IStream,
      Drains (.istream ⟨⟨last.spelling ++ (crlf ++ rest), false⟩, size, read, true, extensions⟩) drained
        (.istream final) ∧ final.input = ⟨rest, false⟩) ↔ drained = [] ∧ last.plain = true := by
  cases plain : last.plain with
  | false =>
      obtain ⟨fault, failed⟩ := hasNext_fault istream_feeds (crlf ++ rest) extensions
        (by omega) plain finished
      constructor
      · rintro ⟨final, drains, -⟩
        have stopped : (Body.istream ⟨⟨last.spelling ++ (crlf ++ rest), false⟩, size, read, true, extensions⟩).hasNext =
            .error fault := by
          rw [Body.hasNext, failed]
          rfl
        exact absurd drains (Drains.not_of_fault stopped)
      · rintro ⟨-, never⟩
        cases never
  | true =>
      obtain ⟨others, ended⟩ := hasNext_last istream_feeds rest extensions zero plain finished
      have none : (Body.istream ⟨⟨last.spelling ++ (crlf ++ rest), false⟩, size, read, true, extensions⟩).hasNext =
          .ok (false, .istream ⟨⟨rest, false⟩, 0, read, true, others⟩) := by
        rw [Body.hasNext, ended]
        rfl
      constructor
      · rintro ⟨final, drains, -⟩
        exact ⟨((Drains.done_iff none).mp drains).1, rfl⟩
      · rintro ⟨rfl, -⟩
        exact ⟨_, (Drains.done_iff none).mpr ⟨rfl, rfl⟩, rfl⟩

/-- A size line that is not plain stops a body from a stream. -/
theorem istream_strange_never (small : line.count < 2 ^ 63) (strange : line.plain = false) (finished : size ≤ read)
    (drained : Text) (final : Body) :
    ¬ Drains (.istream ⟨⟨line.spelling ++ rest, false⟩, size, read, true, extensions⟩) drained final := by
  obtain ⟨fault, failed⟩ := hasNext_fault istream_feeds rest extensions small strange finished
  have stopped : (Body.istream ⟨⟨line.spelling ++ rest, false⟩, size, read, true, extensions⟩).hasNext =
      .error fault := by
    rw [Body.hasNext, failed]
    rfl
  exact Drains.not_of_fault stopped

theorem istream_starts (rest : Text) (plain : line.plain = true) (positive : 0 < line.count)
    (small : line.count < 2 ^ 63) :
    ∃ others, (Body.fromIstream ⟨line.spelling ++ rest, false⟩).hasNext =
      .ok (true, .istream ⟨⟨rest, false⟩, line.count, 0, true, others⟩) := by
  obtain ⟨others, starts⟩ := hasNext_line istream_feeds rest [] small plain (by omega) (Nat.le_refl 0)
  refine ⟨others, ?_⟩
  rw [Body.fromIstream, Body.hasNext, starts, decide_eq_true positive]
  rfl

theorem istream_hasNext_more {source : StreamSource IStream} (less : source.read < source.size) :
    (Body.istream source).hasNext = .ok (true, .istream source) := by
  rw [Body.hasNext, hasNext_more less]
  rfl

theorem istream_toRead_le (is : IStream) : (StreamSource.toRead ⟨is, size, 0, true, extensions⟩).toNat ≤ size := by
  have bound := castInt_le size
  have same : ((size : Int) - ((0 : Nat) : Int)) = size := by omega
  rw [StreamSource.toRead, same]
  omega

/-- A chunk of zeros from a stream loses a zero or its terminator. -/
theorem istream_zeros_never {drained tail : Text} {final : Body} (positive : 0 < size)
    (whole : size + tail.count 0 ≤ drained.count 0) :
    ¬ Drains (.istream ⟨⟨List.replicate size 0 ++ (crlf ++ tail), false⟩, size, 0, true, extensions⟩) drained
      final := by
  have more := istream_hasNext_more (show (StreamSource.mk (IStream.mk (List.replicate size 0 ++ (crlf ++ tail)) false)
    size 0 true extensions).read < _ from positive)
  obtain ⟨taken, amount⟩ : ∃ taken, taken = (StreamSource.toRead
      (⟨⟨List.replicate size 0 ++ (crlf ++ tail), false⟩, size, 0, true,
        extensions⟩ : StreamSource IStream)).toNat := ⟨_, rfl⟩
  have bound : taken ≤ size := by
    rw [amount]
    exact istream_toRead_le _
  by_cases all : taken = size
  · -- The first byte of the terminator is the one that `read` drops.
    have text : List.replicate size (0 : UInt8) ++ (crlf ++ tail) =
        List.replicate size 0 ++ byte '\r' :: (byte '\n' :: tail) := rfl
    have full : (StreamSource.toRead (⟨⟨List.replicate size 0 ++ byte '\r' :: (byte '\n' :: tail), false⟩, size, 0, true,
        extensions⟩ : StreamSource IStream)).toNat = (List.replicate size (0 : UInt8)).length := by
      rw [← text, ← amount, all, List.length_replicate]
    have failed := istream_next full
    rw [List.length_replicate, if_pos (by omega),
      expectCrlf_other istream_feeds _ (by decide) (by decide), ← text] at failed
    exact Drains.not_of_next_fault more failed
  · have text : List.replicate size (0 : UInt8) ++ (crlf ++ tail) =
        List.replicate taken 0 ++ 0 :: (List.replicate (size - taken - 1) 0 ++ (crlf ++ tail)) := by
      have zeros : size = taken + (size - taken - 1 + 1) := by omega
      rw [← List.cons_append, ← List.replicate_succ, ← List.append_assoc (List.replicate taken 0),
        List.replicate_append_replicate, ← zeros]
    have part : (StreamSource.toRead (⟨⟨List.replicate taken 0 ++ 0 :: (List.replicate (size - taken - 1) 0 ++
        (crlf ++ tail)), false⟩, size, 0, true, extensions⟩ : StreamSource IStream)).toNat =
        (List.replicate taken (0 : UInt8)).length := by
      rw [← text, ← amount, List.length_replicate]
    have step := istream_next part
    rw [List.length_replicate, if_neg (by omega), ← text] at step
    rw [Drains.step_iff more step]
    rintro ⟨others, rfl, drains⟩
    have less := istream_drains_zeros drains _ rfl
    have terminator : crlf.count 0 = 0 := by decide
    simp only [List.count_append, List.count_replicate_self, terminator] at less whole
    omega

/-- The line of a recovered body from a stream, when its data may be anything. -/
theorem istream_recovery_lines (layout : ChunkedLayout)
    (recovers : layout.IstreamRecovers (zeros layout.lines) []) :
    layout.lines = [] ∧ layout.last.plain = true := by
  obtain ⟨final, drains, left⟩ := recovers
  have zero := layout.zero
  have sized := layout.sized
  rw [spelling, List.append_nil] at drains
  match shape : layout.lines with
  | [] =>
      rw [shape] at drains
      exact ⟨rfl, ((istream_last_iff [] [] zero (Nat.le_refl 0) _).mp
        ⟨final, drains, left⟩).2⟩
  | first :: others =>
      rw [shape] at drains sized
      have bounds := sized first List.mem_cons_self
      have text : chunks (first :: others) (zeros (first :: others)) ++ layout.last.spelling ++ crlf =
          first.spelling ++ (List.replicate first.count 0 ++
            (crlf ++ (chunks others (zeros others) ++ layout.last.spelling ++ crlf))) := by
        change first.spelling ++ List.replicate first.count 0 ++ crlf ++ chunks others (zeros others) ++
          layout.last.spelling ++ crlf = _
        simp only [List.append_assoc]
      rw [text] at drains
      cases plain : first.plain with
      | false => exact absurd drains (istream_strange_never bounds.2 plain (Nat.le_refl 0) _ _)
      | true =>
          obtain ⟨extensions, starts⟩ := istream_starts (List.replicate first.count 0 ++
            (crlf ++ (chunks others (zeros others) ++ layout.last.spelling ++ crlf))) plain bounds.1 bounds.2
          rw [drains_ready starts (istream_hasNext_more bounds.1)] at drains
          refine absurd drains (istream_zeros_never bounds.1 ?_)
          have terminator : crlf.count 0 = 0 := by decide
          rw [count_flatten_zeros, List.count_append, List.count_append, count_chunks_zeros, count_line,
            terminator, List.map_cons, List.sum_cons]
          omega

/-- A body from a stream without a chunk is recovered. -/
theorem istream_recovers (layout : ChunkedLayout) (none : layout.lines = []) (plain : layout.last.plain = true)
    (data : List Text) (rest : Text) (fits : layout.Fits data) : layout.IstreamRecovers data rest := by
  rw [Fits, none] at fits
  cases fits
  rw [IstreamRecovers, spelling, none]
  have text : chunks [] [] ++ layout.last.spelling ++ crlf ++ rest = layout.last.spelling ++ (crlf ++ rest) := by
    simp [chunks]
  rw [text]
  exact (istream_last_iff rest [] layout.zero (Nat.le_refl 0) _).mpr ⟨rfl, plain⟩

/-- The decoder works from a socket with at most one chunk and from a stream with no chunk at all. -/
theorem recovers_iff (layout : ChunkedLayout) :
    ((∀ data rest ending, layout.Fits data → layout.SocketRecovers data rest ending) ↔
      layout.lines.length ≤ 1 ∧ (∀ line ∈ layout.lines, line.count < 2 ^ 31) ∧
        ∀ line ∈ layout.last :: layout.lines, line.plain = true) ∧
    ((∀ data rest, layout.Fits data → layout.IstreamRecovers data rest) ↔
      layout.lines = [] ∧ layout.last.plain = true) := by
  constructor
  · constructor
    · intro recovers
      exact socket_recovery_lines layout (recovers _ [] .closed (fits_zeros layout))
    · rintro ⟨few, small, plain⟩ data rest ending fits
      exact socket_recovers layout few small plain data rest ending fits
  · constructor
    · intro recovers
      exact istream_recovery_lines layout (recovers _ [] (fits_zeros layout))
    · rintro ⟨none, plain⟩ data rest fits
      exact istream_recovers layout none plain data rest fits

/-- The body of two chunks with one byte each. -/
def twoBytes : ChunkedLayout where
  lines := List.replicate 2 ⟨text "1", [], by decide, List.all_eq_true.1 (by decide)⟩
  last := ⟨text "0", [], by decide, List.all_eq_true.1 (by decide)⟩
  sized := by decide
  zero := by decide

/-- The count of the first chunk stays, so the body from a socket ends before the second one. -/
theorem twoBytes_not_recovered : twoBytes.Fits [text "a", text "b"] ∧
    ¬ twoBytes.SocketRecovers [text "a", text "b"] [] .closed := by
  refine ⟨.cons (by decide) (.cons (by decide) .nil), ?_⟩
  rintro ⟨final, drains, -⟩
  have first : (Body.fromSocket ⟨twoBytes.spelling [text "a", text "b"] ++ [], .closed⟩).hasNext =
      .ok (true, .socket ⟨⟨text "a\r\n1\r\nb\r\n0\r\n\r\n", .closed⟩, 1, 0, true, []⟩) := by decide
  have taken : (Body.socket ⟨⟨text "a\r\n1\r\nb\r\n0\r\n\r\n", .closed⟩, 1, 0, true, []⟩).next =
      .ok (text "a", .socket ⟨⟨text "1\r\nb\r\n0\r\n\r\n", .closed⟩, 1, 1, true, []⟩) := by decide
  have ended : (Body.socket ⟨⟨text "1\r\nb\r\n0\r\n\r\n", .closed⟩, 1, 1, true, []⟩).hasNext =
      .ok (false, .socket ⟨⟨text "b\r\n0\r\n\r\n", .closed⟩, 1, 1, true, []⟩) := by decide
  obtain ⟨others, together, drains⟩ := (Drains.step_iff first taken).mp drains
  obtain ⟨rfl, -⟩ := (Drains.done_iff ended).mp drains
  exact absurd together (by decide)

end ChunkedLayout

end SimpleNFast.Http
