import SimpleNFast.Construction.Http.Transmit

namespace SimpleNFast.Http

open Rdb (Code)

theorem Send.bind_eq {first second : Type} {program : Send first} {next : first → Send second}
    {wire last : Wire} {result : Except Fault second}
    (sent : (program >>= next) wire = some (result, last)) :
    (∃ fault, program wire = some (.error fault, last) ∧ result = .error fault) ∨
      ∃ value later, program wire = some (.ok value, later) ∧ next value later = some (result, last) := by
  change (program wire).bind _ = _ at sent
  match equation : program wire with
  | none =>
      rw [equation] at sent
      cases sent
  | some (.error fault, later) =>
      rw [equation] at sent
      cases sent
      exact .inl ⟨fault, rfl, rfl⟩
  | some (.ok value, later) =>
      rw [equation] at sent
      exact .inr ⟨value, later, rfl, sent⟩

/-- A program that ends has written at most this many bytes. -/
def Grows {value : Type} (bound : Nat) (program : Send value) : Prop :=
  ∀ wire later result, program wire = some (result, later) →
    later.written.length ≤ wire.written.length + bound

namespace Grows

variable {first second : Type} {bound more : Nat}

theorem pure (value : first) : Grows bound (Pure.pure value : Send first) := by
  intro wire later result sent
  cases sent
  exact Nat.le_add_right _ _

theorem ofExcept (outcome : Except Fault first) : Grows bound (Send.ofExcept outcome) := by
  intro wire later result sent
  cases sent
  exact Nat.le_add_right _ _

theorem running : Grows bound (Send.running : Send first) := by
  intro wire later result sent
  cases sent

theorem weaken {program : Send first} (grows : Grows bound program) (le : bound ≤ more) :
    Grows more program := by
  intro wire later result sent
  exact (grows wire later result sent).trans (Nat.add_le_add_left le _)

theorem bind {program : Send first} {next : first → Send second} (grows : Grows bound program)
    (after : ∀ value, Grows more (next value)) : Grows (bound + more) (program >>= next) := by
  intro wire later result sent
  obtain ⟨fault, failed, -⟩ | ⟨value, middle, passed, rest⟩ := Send.bind_eq sent
  · have := grows wire later _ failed
    omega
  · have := grows wire middle _ passed
    have := after value middle later _ rest
    omega

end Grows

/-- A write adds at most the bytes it was given. -/
theorem write_length (wire : Wire) (data : Text) (toWrite : Int) :
    (wire.write data toWrite).2.written.length ≤ wire.written.length + data.length := by
  rw [Wire.write]
  split
  · simp
  · split <;> simp

theorem sendData_grows (data : Text) (what : String) : Grows data.length (sendData data what) := by
  intro wire later result sent
  have grown := write_length wire data (castInt data.length)
  have same : (wire.write data (castInt data.length)).2 = later := by
    simp only [sendData] at sent
    split at sent
    all_goals
      rename_i outcome
      rw [outcome]
      exact (Prod.mk.inj (Option.some.inj sent)).2
  rwa [same] at grown

/-- One pass of the loop writes the size line without its terminator, the data and a terminator. -/
theorem sendPiece_grows (extensions : Params) (data : Text) :
    Grows ((chunkHeader data.length extensions).length + (data.length + 2))
      (sendPiece true extensions data) := by
  simp only [sendPiece, if_true]
  apply Grows.bind (sendData_grows _ _)
  intro code
  split
  · exact Grows.pure _
  · apply Grows.bind (sendData_grows _ _)
    intro code
    split
    · exact Grows.pure _
    · exact sendData_grows (text "\r\n") _

/-- The bytes that the loop writes for these chunks. -/
def sentLength (chunks : List Produced) : Nat :=
  (chunks.map fun chunk =>
    (chunkHeader chunk.data.length chunk.extensions).length + (chunk.data.length + 2)).sum

theorem sendPieces_grows (chunks : List Produced) (fuel : Nat) (extensions : Params) (missing : Int) :
    Grows (sentLength chunks) (sendPieces true fuel (.functor ⟨chunks, [], extensions⟩) missing) := by
  induction fuel generalizing chunks extensions missing with
  | zero => exact Grows.running
  | succ fuel inductionHypothesis =>
      intro wire later result sent
      rw [sendPieces] at sent
      obtain ⟨fault, failed, -⟩ | ⟨⟨more, body⟩, middle, passed, rest⟩ := Send.bind_eq sent
      · exact Grows.ofExcept _ wire later _ failed
      · cases chunks with
        | nil =>
            cases passed
            exact Grows.pure _ wire later _ rest
        | cons chunk chunks =>
            have total : sentLength (chunk :: chunks) =
                ((chunkHeader chunk.data.length chunk.extensions).length + (chunk.data.length + 2)) +
                  sentLength chunks := by
              simp [sentLength]
            by_cases fine : chunk.ok = true
            · simp only [Body.hasNext, FunctorSource.hasNext, FunctorSource.call, ne_eq, not_true_eq_false,
                if_false, fine, if_true] at passed
              cases passed
              by_cases empty : chunk.data = []
              · simp only [empty, not_true_eq_false, decide_false, Bool.false_eq_true, if_false] at rest
                exact Grows.pure _ wire later _ rest
              · simp only [empty, not_false_eq_true, decide_true, if_true] at rest
                rw [total]
                apply Grows.bind (sendPiece_grows chunk.extensions chunk.data) _ wire later _ rest
                intro code
                split
                · exact Grows.pure _
                · exact inductionHypothesis chunks chunk.extensions missing
            · simp only [Body.hasNext, FunctorSource.hasNext, FunctorSource.call, ne_eq, not_true_eq_false,
                if_false, fine] at passed
              cases passed

theorem sendBody_grows (fuel : Nat) (chunks : List Produced) :
    Grows (sentLength chunks + 5) (sendBody fuel (Body.fromFunctor chunks)) := by
  apply Grows.bind (sendPieces_grows chunks fuel [] _)
  intro ⟨code, missing⟩
  simp only [Body.chunked, Body.fromFunctor, if_true]
  split
  · exact Grows.pure _
  · exact sendData_grows (text "0\r\n\r\n") _

/-- The encoding has two bytes more for each chunk than the loop writes. -/
theorem encodeChunks_length (chunks : List Produced) :
    (encodeChunks chunks).length = sentLength chunks + 2 * chunks.length + 5 := by
  induction chunks with
  | nil => rfl
  | cons chunk chunks inductionHypothesis =>
      have last : (text "0").length = 1 := rfl
      have terminator : crlf.length = 2 := rfl
      simp only [encodeChunks, List.length_append, last, terminator, List.flatMap_cons, sentLength,
        List.map_cons, List.sum_cons, List.length_cons, encodeChunk, chunkHeader] at inductionHypothesis ⊢
      omega

/-- The sender writes the chunked coding of what the functor produces, when no write fails. -/
def SendsEncoding (chunks : List Produced) : Prop :=
  ∀ (written : Text) (fuel : Nat), chunks.length < fuel →
    sendBody fuel (Body.fromFunctor chunks) ⟨written, []⟩ =
      some (.ok .E_ok, ⟨written ++ encodeChunks chunks, []⟩)

/-- The size line of a chunk has no terminator, so only a body without chunks is encoded. -/
theorem sendBody_encodes_iff_no_chunk (chunks : List Produced) : SendsEncoding chunks ↔ chunks = [] := by
  constructor
  · intro encodes
    have sent := encodes [] (chunks.length + 1) (Nat.lt_succ_self _)
    have grown : ([] ++ encodeChunks chunks).length ≤ 0 + (sentLength chunks + 5) :=
      sendBody_grows _ chunks _ _ _ sent
    have length := encodeChunks_length chunks
    rw [List.nil_append] at grown
    exact List.length_eq_zero_iff.mp (by omega)
  · rintro rfl written fuel positive
    obtain ⟨fuel, rfl⟩ : ∃ smaller, fuel = smaller + 1 := ⟨fuel - 1, by simp at positive; omega⟩
    rfl

/-- The chunk `a` goes out as `1a`, and a reader takes it for the size 26. -/
theorem sendBody_runs_size_into_data :
    sendBody 2 (Body.fromFunctor [⟨true, text "a", []⟩]) ⟨[], []⟩ =
        some (.ok .E_ok, ⟨text "1a\r\n0\r\n\r\n", []⟩) ∧
      encodeChunks [⟨true, text "a", []⟩] = text "1\r\na\r\n0\r\n\r\n" ∧
      ¬ SendsEncoding [⟨true, text "a", []⟩] := by
  have sent : sendBody 2 (Body.fromFunctor [⟨true, text "a", []⟩]) ⟨[], []⟩ =
      some (.ok .E_ok, ⟨text "1a\r\n0\r\n\r\n", []⟩) := by rfl
  have encoding : encodeChunks [⟨true, text "a", []⟩] = text "1\r\na\r\n0\r\n\r\n" := by rfl
  refine ⟨sent, encoding, fun encodes => ?_⟩
  have other := encodes [] 2 (by decide)
  rw [sent, encoding] at other
  exact absurd other (by decide)

end SimpleNFast.Http
