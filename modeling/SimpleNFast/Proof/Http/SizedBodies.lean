import SimpleNFast.Construction.Http.Framing
import SimpleNFast.Proof.Http.ChunkedDecoding

namespace SimpleNFast.Http

/-- A loop that has more data takes one step. -/
theorem Iterates.inversion {body ready last : Body} {requests : List Int} {rest : Text}
    (iterates : Iterates body requests rest last) (more : body.hasNext = .ok (true, ready)) :
    ∃ amount others data left later, requests = amount :: others ∧ rest = data ++ left ∧
      ready.next = .ok (data, later) ∧ Iterates later others left last := by
  cases iterates with
  | done none =>
      rw [more] at none
      cases none
  | step again _ taken others =>
      rw [more] at again
      cases again
      exact ⟨_, _, _, _, _, rfl, rfl, taken, others⟩

section Istream

/-- The loop of `read` that does not fail takes one byte more than it keeps. -/
theorem IStream.readLoop_takes (toRead : Int) (fuel count : Nat) (is : IStream) (enough : is.chars.length < fuel)
    (fine : (IStream.readLoop toRead fuel count is).2.fail = false) :
    (IStream.readLoop toRead fuel count is).1.length + 1 + (IStream.readLoop toRead fuel count is).2.chars.length =
      is.chars.length := by
  induction fuel generalizing count is with
  | zero => exact absurd enough (Nat.not_lt_zero _)
  | succ fuel inductionHypothesis =>
      obtain ⟨chars, fail⟩ := is
      cases fail with
      | true => cases fine
      | false =>
          cases chars with
          | nil => cases fine
          | cons first chars =>
              have smaller : chars.length < fuel := by simpa using enough
              rw [IStream.readLoop] at fine ⊢
              change (if (count : Int) < toRead then
                (first :: (IStream.readLoop toRead fuel (count + 1) ⟨chars, false⟩).1,
                  (IStream.readLoop toRead fuel (count + 1) ⟨chars, false⟩).2) else ([], ⟨chars, false⟩)).2.fail = _ at fine
              change (if (count : Int) < toRead then
                (first :: (IStream.readLoop toRead fuel (count + 1) ⟨chars, false⟩).1,
                  (IStream.readLoop toRead fuel (count + 1) ⟨chars, false⟩).2) else ([], ⟨chars, false⟩)).1.length + 1 +
                (if (count : Int) < toRead then
                (first :: (IStream.readLoop toRead fuel (count + 1) ⟨chars, false⟩).1,
                  (IStream.readLoop toRead fuel (count + 1) ⟨chars, false⟩).2) else ([], ⟨chars, false⟩)).2.chars.length =
                  _
              split at fine
              · rename_i less
                have tail := inductionHypothesis (count + 1) ⟨chars, false⟩ smaller fine
                simp only [less, if_true, List.length_cons] at tail ⊢
                omega
              · rename_i full
                simp only [full, if_false, List.length_nil, List.length_cons]
                omega

theorem istreamInput_takes {is later : IStream} {toRead : Int} {data : Text}
    (read : istreamInput.read is toRead = .ok (data, later)) :
    data.length + 1 + later.chars.length = is.chars.length := by
  have takes := IStream.readLoop_takes toRead (is.chars.length + 1) 0 is (Nat.lt_succ_self _)
  simp only [istreamInput, IStream.read] at read
  split at read
  · cases read
  · rename_i found
    cases read
    obtain ⟨kept, left⟩ := Prod.mk.inj found
    split at kept
    · cases kept
    · rename_i fine
      cases kept
      rw [← left]
      exact takes (by simpa using fine)

/-- Each call of `next` takes one byte more than it yields. -/
theorem istream_iterates {body last : Body} {requests : List Int} {data : Text}
    (iterates : Iterates body requests data last) (source : StreamSource IStream) (same : body = .istream source)
    (whole : source.chunked = false) :
    ∃ final, last = .istream final ∧
      data.length + requests.length + final.input.chars.length = source.input.chars.length := by
  induction iterates generalizing source with
  | done none =>
      subst same
      rw [Body.hasNext, StreamSource.hasNext] at none
      split at none
      · cases none
      · rw [whole] at none
        cases none
        exact ⟨source, rfl, by simp⟩
  | @step body ready later last amount requests data rest more asked taken _ inductionHypothesis =>
      subst same
      have less : source.read < source.size := by
        by_contra full
        rw [Body.hasNext, StreamSource.hasNext, if_neg full, whole] at more
        cases more
      rw [Body.hasNext, hasNext_more less] at more
      cases more
      rw [Body.next] at taken
      cases outcome : source.next istreamInput with
      | error fault =>
          rw [outcome] at taken
          cases taken
      | ok result =>
          obtain ⟨data, next⟩ := result
          rw [outcome] at taken
          cases taken
          obtain ⟨left, read, -, -, kind, ends⟩ := next_inversion outcome
          rw [whole, if_neg (by simp)] at ends
          obtain ⟨final, same, count⟩ := inductionHypothesis next rfl (kind.trans whole)
          have takes := istreamInput_takes read
          rw [ends] at count
          refine ⟨final, same, ?_⟩
          rw [List.length_append, List.length_cons]
          omega

/-- A stream never stands right after a body of a declared length. -/
theorem istream_never (is : IStream) {length : Nat} (positive : 0 < length) (enough : length ≤ is.chars.length)
    (requests : List Int) (last : Body) : ¬ FixedLength (.istream is) length requests last := by
  rintro ⟨delivers, -, stands⟩
  obtain ⟨final, rfl, count⟩ := istream_iterates delivers ⟨is, length, 0, false, []⟩ rfl rfl
  have more : (ByteSource.body (.istream is) length).hasNext = .ok (true, .istream ⟨is, length, 0, false, []⟩) := by
    change Except.map _ (StreamSource.hasNext istreamInput ⟨is, length, 0, false, []⟩) = _
    rw [hasNext_more positive]
    rfl
  obtain ⟨amount, others, data, left, later, rfl, -⟩ := delivers.inversion more
  have skipped : final.input.chars = is.chars.drop length := by
    have same : ByteSource.istream final.input = .istream { is with chars := is.chars.drop length } :=
      Option.some.inj stands
    injection same with same
    rw [same]
  change (is.chars.take length).length + (amount :: others).length + final.input.chars.length = is.chars.length at count
  rw [skipped, List.length_drop, List.length_take, List.length_cons] at count
  omega

end Istream

section Socket

variable {ending : Ending} {size read : Nat} {rest : Text}

/-- A socket yields what it is asked for. -/
theorem socket_sized_next {data : Text} (some : data ≠ [])
    (amount : StreamSource.toRead (⟨⟨data ++ rest, ending⟩, size, read, false, []⟩ : StreamSource Nio) = data.length) :
    (Body.socket ⟨⟨data ++ rest, ending⟩, size, read, false, []⟩).next =
      .ok (data, .socket ⟨⟨rest, ending⟩, size, read + data.length, false, []⟩) := by
  rw [Body.next, StreamSource.next, amount, socketInput_read some]
  rfl

/-- The data of a body below 2^31 bytes is delivered, whatever it is. -/
theorem socket_iterates (data : Text) (left : data.length = size - read) (inside : read ≤ size)
    (small : data.length < 2 ^ 31) :
    ∃ requests, Iterates (.socket ⟨⟨data ++ rest, ending⟩, size, read, false, []⟩) requests data
        (.socket ⟨⟨rest, ending⟩, size, size, false, []⟩) ∧
      ∀ amount ∈ requests, 1 ≤ amount ∧ amount ≤ 65536 := by
  induction step : data.length using Nat.strong_induction_on generalizing data read with
  | _ length inductionHypothesis =>
      by_cases none : data = []
      · subst none
        have ended : read = size := by
          rw [List.length_nil] at left
          omega
        subst ended
        refine ⟨[], .done ?_, by simp⟩
        change Except.map _ (StreamSource.hasNext socketInput _) = _
        rw [StreamSource.hasNext, if_neg (lt_irrefl _)]
        rfl
      · have positive := List.length_pos_iff.mpr none
        have less : read < size := by omega
        have more (io : Nio) : (Body.socket ⟨io, size, read, false, []⟩).hasNext =
            .ok (true, .socket ⟨io, size, read, false, []⟩) := by
          rw [Body.hasNext, hasNext_more less]
          rfl
        have amount (io : Nio) : StreamSource.toRead ⟨io, size, read, false, []⟩ = _ :=
          socket_toRead io false less (by omega)
        have pieces : data ++ rest = data.take chunkSize ++ (data.drop chunkSize ++ rest) := by
          rw [← List.append_assoc, List.take_append_drop]
        have first : (data.take chunkSize).length = min (size - read) chunkSize := by
          rw [List.length_take, left, min_comm]
        have size_pos : 0 < chunkSize := by decide
        have begins : data.take chunkSize ≠ [] := List.length_pos_iff.mp (by omega)
        have second : (data.drop chunkSize).length = size - (read + (data.take chunkSize).length) := by
          rw [List.length_drop, left]
          omega
        obtain ⟨requests, iterates, bounded⟩ := inductionHypothesis (data.drop chunkSize).length (by omega)
          (data.drop chunkSize) second (by omega) (by omega) rfl
        refine ⟨(data.take chunkSize).length :: requests, ?_, ?_⟩
        · have joined := Iterates.step (more ⟨data ++ rest, ending⟩) (congrArg some (amount _)) (by
            rw [pieces]
            exact socket_sized_next begins (by rw [amount, first])) iterates
          rwa [List.take_append_drop, ← first] at joined
        · have large : chunkSize = 65536 := rfl
          rw [List.forall_mem_cons]
          exact ⟨by omega, bounded⟩

/-- A body from 2^31 bytes on never ends, because its size does not fit an `int`. -/
theorem socket_sized_never {body last : Body} {requests : List Int} {data : Text}
    (iterates : Iterates body requests data last) (source : StreamSource Nio) (same : body = .socket source) :
    ¬ 2 ^ 31 ≤ source.size - source.read := by
  induction iterates generalizing source with
  | done none =>
      intro large
      subst same
      rw [Body.hasNext, hasNext_more (by omega)] at none
      cases none
  | @step body ready later last amount requests data rest more asked taken _ inductionHypothesis =>
      intro large
      subst same
      rw [Body.hasNext, hasNext_more (by omega)] at more
      cases more
      rw [Body.next] at taken
      cases outcome : source.next socketInput with
      | error fault =>
          rw [outcome] at taken
          cases taken
      | ok result =>
          obtain ⟨data, next⟩ := result
          rw [outcome] at taken
          cases taken
          exact inductionHypothesis next rfl (socket_large_next large outcome).2

end Socket

/-- Only a socket delivers a body of a declared length, and only one whose length fits an `int`. -/
theorem fixedLength_iff (source : ByteSource) (length : Nat) (positive : 0 < length)
    (enough : length ≤ source.bytes.length) :
    (∃ requests last, FixedLength source length requests last) ↔ source.isSocket = true ∧ length < 2 ^ 31 := by
  cases source with
  | istream is =>
      constructor
      · rintro ⟨requests, last, delivered⟩
        exact absurd delivered (istream_never is positive enough requests last)
      · rintro ⟨kind, -⟩
        cases kind
  | socket io =>
      obtain ⟨incoming, ending⟩ := io
      constructor
      · rintro ⟨requests, last, delivered⟩
        refine ⟨rfl, Nat.lt_of_not_le ?_⟩
        exact socket_sized_never delivered.delivers ⟨⟨incoming, ending⟩, length, 0, false, []⟩ rfl
      · rintro ⟨-, small⟩
        have taken : (incoming.take length).length = length := List.length_take_of_le enough
        obtain ⟨requests, iterates, bounded⟩ := @socket_iterates ending length 0 (incoming.drop length)
          (incoming.take length) taken (Nat.zero_le _) (by rw [taken]; exact small)
        rw [List.take_append_drop] at iterates
        exact ⟨requests, _, iterates, bounded, rfl⟩

/-- A socket delivers a body of one byte. -/
theorem fixedLength_iff_one :
    (∃ requests last, FixedLength (.socket ⟨text "ab", .closed⟩) 1 requests last) ↔
      (ByteSource.socket ⟨text "ab", .closed⟩).isSocket = true ∧ 1 < 2 ^ 31 :=
  fixedLength_iff (.socket ⟨text "ab", .closed⟩) 1 (by decide) (by decide)

/-- A stream of one byte does not deliver it. -/
theorem fixedLength_stream : ¬ ∀ source length, 0 < length → length < 2 ^ 64 →
    length ≤ (ByteSource.bytes source).length → ∃ requests last, FixedLength source length requests last := by
  intro holds
  obtain ⟨requests, last, delivered⟩ := holds (.istream ⟨text "a", false⟩) 1 (by decide) (by decide) (by decide)
  exact istream_never _ (by decide) (by decide) requests last delivered

end SimpleNFast.Http
