import SimpleNFast.Proof.Http.SizeLines
import SimpleNFast.Proof.Text

namespace SimpleNFast.Http

namespace Drains

variable {body ready later last : Body} {data rest : Text}

theorem step_iff (more : body.hasNext = .ok (true, ready)) (taken : ready.next = .ok (data, later)) :
    Drains body rest last ↔ ∃ others, rest = data ++ others ∧ Drains later others last := by
  constructor
  · intro drained
    cases drained with
    | done none =>
        rw [more] at none
        cases none
    | step again moved drained =>
        rw [more] at again
        cases again
        rw [taken] at moved
        cases moved
        exact ⟨_, rfl, drained⟩
  · rintro ⟨others, rfl, drained⟩
    exact .step more taken drained

theorem done_iff (none : body.hasNext = .ok (false, later)) :
    Drains body rest last ↔ rest = [] ∧ last = later := by
  constructor
  · intro drained
    cases drained with
    | done again =>
        rw [none] at again
        cases again
        exact ⟨rfl, rfl⟩
    | step more moved drained =>
        rw [none] at more
        cases more
  · rintro ⟨rfl, rfl⟩
    exact .done none

theorem not_of_fault {fault : Fault} (failed : body.hasNext = .error fault) : ¬ Drains body rest last := by
  intro drained
  cases drained with
  | done none =>
      rw [failed] at none
      cases none
  | step more moved drained =>
      rw [failed] at more
      cases more

theorem not_of_next_fault {fault : Fault} (more : body.hasNext = .ok (true, ready))
    (failed : ready.next = .error fault) : ¬ Drains body rest last := by
  intro drained
  cases drained with
  | done none =>
      rw [more] at none
      cases none
  | step again moved drained =>
      rw [more] at again
      cases again
      rw [failed] at moved
      cases moved

/-- A loop that keeps an invariant with more data to come has no end. -/
theorem never (keeps : Body → Prop)
    (kept : ∀ body, keeps body → ∀ more ready, body.hasNext = .ok (more, ready) →
      more = true ∧ ∀ data later, ready.next = .ok (data, later) → keeps later)
    (holds : keeps body) : ¬ Drains body rest last := by
  intro drained
  induction drained with
  | done none => cases (kept _ holds _ _ none).1
  | step more taken _ inductionHypothesis =>
      exact inductionHypothesis ((kept _ holds _ _ more).2 _ _ taken)

end Drains

/-- The three calls of a body on a source that holds this text. -/
structure Feeds {source : Type} (input : Input source) (make : Text → source) : Prop where
  readline : ∀ line rest, byte '\n' ∉ line →
    input.readline (make (line ++ byte '\n' :: rest)) = .ok (line ++ [byte '\n'], make rest)
  getc : ∀ char rest, char < 128 → input.getc (make (char :: rest)) = .ok (char.toNat, make rest)

theorem Nio.read_take {data rest : Text} {ending : Ending} (some : data ≠ []) :
    Nio.read ⟨data ++ rest, ending⟩ data.length = .ok (data, ⟨rest, ending⟩) := by
  have positive := List.length_pos_iff.mpr some
  rw [Nio.read, if_neg (by omega), if_pos (by simp)]
  simp

/-- A read that succeeds takes at most the bytes it asks for from the front. -/
theorem Nio.read_inversion {io later : Nio} {toRead : Int} {data : Text} (read : io.read toRead = .ok (data, later)) :
    0 < toRead ∧ data.length ≤ toRead ∧ data ++ later.incoming = io.incoming := by
  rw [Nio.read] at read
  split at read
  · cases read
  · split at read
    · cases read
      refine ⟨by omega, ?_, List.take_append_drop _ _⟩
      rw [List.length_take]
      omega
    · split at read
      · cases read
        exact ⟨by omega, by omega, List.append_nil _⟩
      · cases read

theorem Nio.read_one {char : UInt8} {rest : Text} {ending : Ending} :
    Nio.read ⟨char :: rest, ending⟩ 1 = .ok ([char], ⟨rest, ending⟩) :=
  Nio.read_take (List.cons_ne_nil char [])

theorem Nio.readlineLoop_line {line : Text} (rest : Text) (ending : Ending) (inner : byte '\n' ∉ line) (fuel : Nat)
    (enough : line.length < fuel) :
    Nio.readlineLoop fuel ⟨line ++ byte '\n' :: rest, ending⟩ = .ok (line ++ [byte '\n'], ⟨rest, ending⟩) := by
  induction line generalizing fuel with
  | nil =>
      obtain ⟨fuel, rfl⟩ : ∃ smaller, fuel = smaller + 1 := ⟨fuel - 1, by simp at enough; omega⟩
      rw [Nio.readlineLoop, List.nil_append, Nio.read_one]
      rfl
  | cons char line inductionHypothesis =>
      obtain ⟨fuel, rfl⟩ : ∃ smaller, fuel = smaller + 1 := ⟨fuel - 1, by simp at enough; omega⟩
      have other : (char == byte '\n') = false := beq_eq_false_iff_ne.mpr fun same => inner (by simp [same])
      have tail := inductionHypothesis (fun member => inner (List.mem_cons_of_mem _ member)) fuel
        (by simpa using enough)
      rw [Nio.readlineLoop, List.cons_append, Nio.read_one]
      change (if (char == byte '\n') = true then _ else _) = _
      rw [other, if_neg Bool.false_ne_true, tail]
      rfl

theorem socket_feeds (ending : Ending) : Feeds socketInput fun incoming => ⟨incoming, ending⟩ where
  readline line rest inner := by
    have line := Nio.readlineLoop_line rest ending inner
      ((line ++ byte '\n' :: rest).length + 1) (by simp)
    change Except.mapError _ (Nio.readlineLoop _ _) = _
    rw [line]
    rfl
  getc char rest small := by
    change (Except.mapError _ (Nio.getChar _)).bind _ = _
    rw [Nio.getChar, Nio.read_one, ← toInt_of_lt small]
    rfl

theorem IStream.readlineLoop_line {line : Text} (rest : Text) (inner : byte '\n' ∉ line) (fuel : Nat)
    (enough : line.length < fuel) :
    IStream.readlineLoop fuel ⟨line ++ byte '\n' :: rest, false⟩ = (line ++ [byte '\n'], ⟨rest, false⟩) := by
  induction line generalizing fuel with
  | nil =>
      obtain ⟨fuel, rfl⟩ : ∃ smaller, fuel = smaller + 1 := ⟨fuel - 1, by simp at enough; omega⟩
      rfl
  | cons char line inductionHypothesis =>
      obtain ⟨fuel, rfl⟩ : ∃ smaller, fuel = smaller + 1 := ⟨fuel - 1, by simp at enough; omega⟩
      have other : (char == byte '\n') = false := beq_eq_false_iff_ne.mpr fun same => inner (by simp [same])
      have tail := inductionHypothesis (fun member => inner (List.mem_cons_of_mem _ member)) fuel
        (by simpa using enough)
      rw [IStream.readlineLoop]
      change (if (char == byte '\n') = true then _ else _) = _
      rw [other, if_neg Bool.false_ne_true]
      change ((char :: (IStream.readlineLoop fuel ⟨line ++ byte '\n' :: rest, false⟩).1),
        (IStream.readlineLoop fuel ⟨line ++ byte '\n' :: rest, false⟩).2) = _
      rw [tail]
      rfl

theorem istream_feeds : Feeds istreamInput fun chars => ⟨chars, false⟩ where
  readline line rest inner := by
    have line := IStream.readlineLoop_line rest inner ((line ++ byte '\n' :: rest).length + 1) (by simp)
    simp only [istreamInput, IStream.readline, line]
    rfl
  getc char rest small := rfl

/-- A character of a size line is neither zero nor a line terminator. -/
def Visible (char : UInt8) : Prop := char ≠ 0 ∧ char ≠ byte '\n'

theorem visible_of_int {char : UInt8} (zero : toInt char ≠ 0) (newline : toInt char ≠ code '\n') : Visible char := by
  constructor
  · rintro rfl
    exact zero (by decide)
  · rintro rfl
    exact newline (by decide)

theorem visible_tchar {char : UInt8} (accepted : isTchar (toInt char) = true) : Visible char := by
  apply visible_of_int
  all_goals
    intro same
    rw [same] at accepted
    exact absurd accepted (by decide)

theorem visible_obsolete {char : UInt8} (obsolete : QuotedChar.obsolete char = true) : Visible char := by
  have negative := toInt_neg (of_decide_eq_true obsolete)
  apply visible_of_int
  · omega
  · simp only [code, Char.reduceToNat]
    omega

theorem visible_quoted {char : QuotedChar} (valid : char.valid = true) : ∀ part ∈ char.spelling, Visible part := by
  intro part member
  cases char with
  | plain char =>
      rw [QuotedChar.spelling, List.mem_singleton] at member
      subst member
      rw [QuotedChar.valid, Bool.or_eq_true] at valid
      obtain obsolete | quoted := valid
      · exact visible_obsolete obsolete
      · apply visible_of_int
        all_goals
          intro same
          rw [same] at quoted
          exact absurd quoted (by decide)
  | pair char =>
      rw [QuotedChar.spelling, List.mem_cons, List.mem_singleton] at member
      obtain rfl | rfl := member
      · exact ⟨by decide, by decide⟩
      · rw [QuotedChar.valid, Bool.or_eq_true] at valid
        obtain obsolete | escaped := valid
        · exact visible_obsolete obsolete
        · apply visible_of_int
          all_goals
            intro same
            rw [same] at escaped
            exact absurd escaped (by decide)

theorem visible_value {value : ExtensionValue} (valid : value.valid = true) : ∀ part ∈ value.spelling, Visible part := by
  intro part member
  cases value with
  | token word => exact visible_tchar (isWord_tchar valid part member)
  | quoted chars =>
      have mark : Visible (byte '"') := ⟨by decide, by decide⟩
      rw [ExtensionValue.valid, List.all_eq_true] at valid
      simp only [ExtensionValue.spelling, List.mem_append, List.mem_singleton, List.mem_flatMap] at member
      obtain (rfl | ⟨char, among, inside⟩) | rfl := member
      · exact mark
      · exact visible_quoted (valid char among) part inside
      · exact mark

theorem visible_extension (extension : Extension) : ∀ part ∈ extension.spelling, Visible part := by
  intro part member
  have valid := extension.valid
  rw [Extension.spelling, List.cons_append, List.mem_cons, List.mem_append] at member
  obtain rfl | inName | inValue := member
  · exact ⟨by decide, by decide⟩
  · exact visible_tchar (isWord_tchar extension.word part inName)
  · cases given : extension.value with
    | none =>
        rw [given] at inValue
        cases inValue
    | some value =>
        rw [given] at inValue valid
        obtain rfl | inside := List.mem_cons.mp inValue
        · exact ⟨by decide, by decide⟩
        · exact visible_value valid part inside

/-- The size line without its terminator. -/
def SizeLine.content (line : SizeLine) : Text := line.size ++ line.extensions.flatMap Extension.spelling

theorem SizeLine.visible (line : SizeLine) : ∀ part ∈ line.content, Visible part := by
  intro part member
  rw [SizeLine.content, List.mem_append, List.mem_flatMap] at member
  obtain digit | ⟨extension, -, inside⟩ := member
  · have accepted := line.hexadecimal part digit
    apply visible_of_int
    all_goals
      intro same
      rw [same] at accepted
      exact absurd accepted (by decide)
  · exact visible_extension extension part inside

theorem SizeLine.spelling_split (line : SizeLine) (rest : Text) :
    line.spelling ++ rest = line.content ++ [byte '\r'] ++ byte '\n' :: rest := by
  simp [SizeLine.spelling, SizeLine.content, crlf, text]

section Steps

variable {source : Type} {input : Input source} {make : Text → source} {size read : Nat} {extensions : Params}
  {rest : Text}

theorem expectCrlf_crlf (feeds : Feeds input make) (what : Text) :
    StreamSource.expectCrlf input (make (crlf ++ rest)) what = .ok (make rest) := by
  change StreamSource.expectCrlf input (make (byte '\r' :: byte '\n' :: rest)) what = _
  rw [StreamSource.expectCrlf, feeds.getc _ _ (by decide)]
  change (input.getc (make (byte '\n' :: rest))).bind _ = _
  rw [feeds.getc _ _ (by decide)]
  rfl

/-- The first character after the data is not a carriage return. -/
theorem expectCrlf_other (feeds : Feeds input make) (what : Text) {char : UInt8} (small : char < 128)
    (other : char ≠ byte '\r') :
    StreamSource.expectCrlf input (make (char :: rest)) what = .error (.badMessage what) := by
  have differs : ((char.toNat : Int) != code '\r') = true := by
    rw [bne_iff_ne]
    intro same
    apply other
    apply UInt8.toNat_inj.mp
    have value : code '\r' = 13 := rfl
    have target : (byte '\r').toNat = 13 := rfl
    omega
  rw [StreamSource.expectCrlf, feeds.getc _ _ small]
  change (if ((char.toNat : Int) != code '\r') = true then _ else _) = _
  rw [differs]
  rfl

theorem hasNext_more {input : Input source} {body : StreamSource source} (less : body.read < body.size) :
    body.hasNext input = .ok (true, body) := by
  rw [StreamSource.hasNext, if_pos less]
  rfl

/-- What a call of `next` has done when it returns. -/
theorem next_inversion {input : Input source} {body later : StreamSource source} {data : Text}
    (taken : body.next input = .ok (data, later)) :
    ∃ left, input.read body.input body.toRead = .ok (data, left) ∧ later.size = body.size ∧
      later.read = body.read + data.length ∧ later.chunked = body.chunked ∧
      if body.chunked = true ∧ body.size ≤ body.read + data.length then
        StreamSource.expectCrlf input left (text "chunk data not terminated properly") = .ok later.input
      else later.input = left := by
  rw [StreamSource.next] at taken
  cases outcome : input.read body.input body.toRead with
  | error fault =>
      rw [outcome] at taken
      cases taken
  | ok result =>
      obtain ⟨read, left⟩ := result
      rw [outcome] at taken
      change (if (body.chunked && decide (body.size ≤ body.read + read.length)) = true then
        (StreamSource.expectCrlf input left (text "chunk data not terminated properly")).bind _ else _) = _ at taken
      simp only [Bool.and_eq_true, decide_eq_true_eq] at taken
      split at taken
      · rename_i ends
        cases terminated : StreamSource.expectCrlf input left (text "chunk data not terminated properly") with
        | error fault =>
            rw [terminated] at taken
            cases taken
        | ok final =>
            rw [terminated] at taken
            cases taken
            refine ⟨left, rfl, rfl, rfl, rfl, ?_⟩
            rw [if_pos ends, terminated]
      · rename_i ends
        cases taken
        refine ⟨left, rfl, rfl, rfl, rfl, ?_⟩
        rw [if_neg ends]

/-- What `has_next` does with the size line of a new chunk. -/
theorem hasNext_eq (feeds : Feeds input make) (line : SizeLine) (finished : size ≤ read) :
    StreamSource.hasNext input ⟨make (line.spelling ++ rest), size, read, true, extensions⟩ =
      (StreamSource.chunkLine (Scanner.init line.spelling)).bind fun result =>
        (if result.1.1 = 0 then
            StreamSource.expectCrlf input (make rest) (text "message body not terminated properly")
          else .ok (make rest)).bind fun rest =>
        .ok (decide (read < result.1.1), ⟨rest, result.1.1, read, true, result.1.2.getD extensions⟩) := by
  have fed := feeds.readline (line.content ++ [byte '\r']) rest (by
    rw [List.mem_append, List.mem_singleton]
    rintro (inside | same)
    · exact (line.visible _ inside).2 rfl
    · exact absurd same (by decide))
  have whole : line.content ++ [byte '\r'] ++ [byte '\n'] = line.spelling := by
    simp [SizeLine.spelling, SizeLine.content, crlf, text]
  rw [StreamSource.hasNext, if_neg (Nat.not_lt.mpr finished), if_pos rfl, SizeLine.spelling_split, fed, whole]
  change (StreamSource.chunkLine (Scanner.init line.spelling)).bind _ = _
  congr 1
  funext result
  obtain ⟨⟨count, found⟩, _⟩ := result
  dsimp only
  split <;> rfl

/-- A size line with an extension that is not plain throws. -/
theorem hasNext_fault (feeds : Feeds input make) (rest : Text)
    (extensions : Params) {line : SizeLine} (small : line.count < 2 ^ 63)
    (strange : line.plain = false) (finished : size ≤ read) :
    ∃ fault, StreamSource.hasNext input ⟨make (line.spelling ++ rest), size, read, true, extensions⟩ =
      .error fault := by
  have reads := chunkLine_reads line small
  rw [strange] at reads
  obtain ⟨fault, run⟩ := reads
  refine ⟨fault, ?_⟩
  rw [hasNext_eq feeds line finished, run]
  rfl

/-- A size line with plain extensions starts the next chunk, and the count goes on. -/
theorem hasNext_line (feeds : Feeds input make) (rest : Text)
    (extensions : Params) {line : SizeLine} (small : line.count < 2 ^ 63)
    (plain : line.plain = true) (positive : line.count ≠ 0) (finished : size ≤ read) :
    ∃ others, StreamSource.hasNext input ⟨make (line.spelling ++ rest), size, read, true, extensions⟩ =
      .ok (decide (read < line.count), ⟨make rest, line.count, read, true, others⟩) := by
  have reads := chunkLine_reads line small
  rw [plain] at reads
  obtain ⟨⟨count, others⟩, same, run⟩ := reads
  change count = line.count at same
  subst same
  refine ⟨others.getD extensions, ?_⟩
  rw [hasNext_eq feeds line finished, run]
  simp only [Except.bind, positive, if_false]

/-- The line of the last chunk and an empty trailer end the body. -/
theorem hasNext_last (feeds : Feeds input make) (rest : Text) (extensions : Params) {line : SizeLine} (zero : line.count = 0)
    (plain : line.plain = true) (finished : size ≤ read) :
    ∃ others, StreamSource.hasNext input ⟨make (line.spelling ++ (crlf ++ rest)), size, read, true, extensions⟩ =
      .ok (false, ⟨make rest, 0, read, true, others⟩) := by
  have reads := chunkLine_reads line (by omega)
  rw [plain] at reads
  obtain ⟨⟨count, others⟩, same, run⟩ := reads
  change count = line.count at same
  rw [zero] at same
  subst same
  refine ⟨others.getD extensions, ?_⟩
  rw [hasNext_eq feeds line finished, run]
  simp only [Except.bind, if_true, expectCrlf_crlf feeds]
  rfl

end Steps

section Socket

variable {ending : Ending} {size read : Nat} {extensions : Params} {rest : Text}

/-- The body reads a chunk in one piece, or the first part of it. -/
theorem socket_toRead (io : Nio) (chunked : Bool) (less : read < size) (small : size - read < 2 ^ 31) :
    StreamSource.toRead ⟨io, size, read, chunked, extensions⟩ = ((min (size - read) chunkSize : Nat) : Int) := by
  rw [StreamSource.toRead, castInt_eq (by dsimp only; omega) (by dsimp only; omega)]
  dsimp only
  omega

theorem socketInput_read {data : Text} (some : data ≠ []) :
    socketInput.read ⟨data ++ rest, ending⟩ data.length = .ok (data, ⟨rest, ending⟩) := by
  simp only [socketInput, Nio.read_take some]
  rfl

/-- A read takes the terminator as well when it ends the chunk. -/
theorem socket_next {data : Text} (some : data ≠ [])
    (amount : StreamSource.toRead (⟨⟨data ++ rest, ending⟩, size, read, true, extensions⟩ : StreamSource Nio) =
      data.length) :
    (Body.socket ⟨⟨data ++ rest, ending⟩, size, read, true, extensions⟩).next =
      if size ≤ read + data.length then
        (StreamSource.expectCrlf socketInput ⟨rest, ending⟩ (text "chunk data not terminated properly")).bind
          fun rest => .ok (data, .socket ⟨rest, size, read + data.length, true, extensions⟩)
      else .ok (data, .socket ⟨⟨rest, ending⟩, size, read + data.length, true, extensions⟩) := by
  rw [Body.next, StreamSource.next, amount, socketInput_read some]
  change Except.map _ (if (true && decide (size ≤ read + data.length)) = true then
    (StreamSource.expectCrlf socketInput ⟨rest, ending⟩ (text "chunk data not terminated properly")).bind _
    else _) = _
  rw [Bool.true_and]
  by_cases whole : size ≤ read + data.length
  · simp only [whole, decide_true, if_true]
    cases StreamSource.expectCrlf socketInput ⟨rest, ending⟩ (text "chunk data not terminated properly") <;> rfl
  · simp only [whole, decide_false, Bool.false_eq_true, if_false]
    rfl

/-- The data of a chunk below 2^31 bytes is drained, whatever it is. -/
theorem socket_chunk_iff (data : Text) (some : data ≠ []) (left : data.length = size - read)
    (small : data.length < 2 ^ 31) (drained : Text) (last : Body) :
    Drains (.socket ⟨⟨data ++ (crlf ++ rest), ending⟩, size, read, true, extensions⟩) drained last ↔
      ∃ others, drained = data ++ others ∧
        Drains (.socket ⟨⟨rest, ending⟩, size, size, true, extensions⟩) others last := by
  induction step : data.length using Nat.strong_induction_on generalizing data read drained with
  | _ length inductionHypothesis =>
      have positive := List.length_pos_iff.mpr some
      have less : read < size := by omega
      have more : (Body.socket ⟨⟨data ++ (crlf ++ rest), ending⟩, size, read, true, extensions⟩).hasNext =
          .ok (true, .socket ⟨⟨data ++ (crlf ++ rest), ending⟩, size, read, true, extensions⟩) := by
        rw [Body.hasNext, hasNext_more less]
        rfl
      have amount : StreamSource.toRead
          (⟨⟨data ++ (crlf ++ rest), ending⟩, size, read, true, extensions⟩ : StreamSource Nio) = _ :=
        socket_toRead _ true less (by omega)
      by_cases short : data.length ≤ chunkSize
      · have all : size = read + data.length := by omega
        have taken : (Body.socket ⟨⟨data ++ (crlf ++ rest), ending⟩, size, read, true, extensions⟩).next =
            .ok (data, .socket ⟨⟨rest, ending⟩, size, size, true, extensions⟩) := by
          rw [socket_next some (by rw [amount]; omega), if_pos (by omega),
            expectCrlf_crlf (socket_feeds ending), ← all]
          rfl
        exact Drains.step_iff more taken
      · have first : (data.take chunkSize).length = chunkSize := by
          rw [List.length_take]
          omega
        have second : (data.drop chunkSize).length = data.length - chunkSize := List.length_drop
        have pieces : data ++ (crlf ++ rest) = data.take chunkSize ++ (data.drop chunkSize ++ (crlf ++ rest)) := by
          rw [← List.append_assoc (data.take chunkSize), List.take_append_drop]
        have size_pos : 0 < chunkSize := by decide
        have taken : (Body.socket ⟨⟨data ++ (crlf ++ rest), ending⟩, size, read, true, extensions⟩).next =
            .ok (data.take chunkSize, .socket ⟨⟨data.drop chunkSize ++ (crlf ++ rest), ending⟩, size,
              read + chunkSize, true, extensions⟩) := by
          rw [pieces] at amount ⊢
          rw [socket_next (List.length_pos_iff.mp (by omega)) (by rw [amount]; omega), first, if_neg (by omega)]
        have left : (data.drop chunkSize).length = size - (read + chunkSize) := by omega
        have tail := inductionHypothesis (data.length - chunkSize) (by omega) (data.drop chunkSize)
          (List.length_pos_iff.mp (by omega)) left (by omega)
        rw [Drains.step_iff more taken]
        constructor
        · rintro ⟨others, rfl, drains⟩
          obtain ⟨final, rfl, ended⟩ := (tail others second).mp drains
          exact ⟨final, by rw [← List.append_assoc, List.take_append_drop], ended⟩
        · rintro ⟨others, rfl, drains⟩
          exact ⟨data.drop chunkSize ++ others, by rw [← List.append_assoc, List.take_append_drop],
            (tail _ second).mpr ⟨others, rfl, drains⟩⟩

/-- A read that succeeds leaves at least 2^31 bytes, because a larger count does not fit an `int`. -/
theorem socket_large_next {source later : StreamSource Nio} {data : Text} (large : 2 ^ 31 ≤ source.size - source.read)
    (taken : source.next socketInput = .ok (data, later)) :
    later.chunked = source.chunked ∧ 2 ^ 31 ≤ later.size - later.read := by
  obtain ⟨left, read, size, count, kind, -⟩ := next_inversion taken
  refine ⟨kind, ?_⟩
  have bounds : 0 < source.toRead ∧ data.length ≤ source.toRead := by
    simp only [socketInput] at read
    cases taken : source.input.read source.toRead with
    | error fault =>
        rw [taken] at read
        cases read
    | ok result =>
        rw [taken] at read
        cases read
        have inverted := Nio.read_inversion taken
        exact ⟨inverted.1, inverted.2.1⟩
  have wide := castInt_cases (source.size - source.read) large
  rw [StreamSource.toRead, ← Nat.cast_sub (by omega)] at bounds
  omega

/-- A chunk from 2^31 bytes on never ends, because its size does not fit an `int`. -/
theorem socket_large_never {incoming : Text} (large : 2 ^ 31 ≤ size - read) (drained : Text) (last : Body) :
    ¬ Drains (.socket ⟨⟨incoming, ending⟩, size, read, true, extensions⟩) drained last := by
  apply Drains.never (fun body => ∃ source : StreamSource Nio, body = .socket source ∧
    source.chunked = true ∧ 2 ^ 31 ≤ source.size - source.read) _ ⟨_, rfl, rfl, large⟩
  rintro body ⟨source, rfl, chunked, large⟩ more ready found
  rw [Body.hasNext, hasNext_more (by omega)] at found
  cases found
  refine ⟨rfl, fun data later taken => ?_⟩
  rw [Body.next] at taken
  cases outcome : source.next socketInput with
  | error fault =>
      rw [outcome] at taken
      cases taken
  | ok result =>
      obtain ⟨data, next⟩ := result
      rw [outcome] at taken
      cases taken
      obtain ⟨kind, still⟩ := socket_large_next large outcome
      exact ⟨next, rfl, kind.trans chunked, still⟩

/-- Zeros after the counted part of a chunk are not its terminator. -/
theorem socket_zeros_never {count : Nat} {tail : Text} (less : read < size) (more : size - read < count)
    (drained : Text) (last : Body) :
    ¬ Drains (.socket ⟨⟨List.replicate count 0 ++ tail, ending⟩, size, read, true, extensions⟩) drained last := by
  induction step : size - read using Nat.strong_induction_on generalizing read count drained with
  | _ left inductionHypothesis =>
      have again : (Body.socket ⟨⟨List.replicate count 0 ++ tail, ending⟩, size, read, true, extensions⟩).hasNext =
          .ok (true, .socket ⟨⟨List.replicate count 0 ++ tail, ending⟩, size, read, true, extensions⟩) := by
        rw [Body.hasNext, hasNext_more less]
        rfl
      have amount : StreamSource.toRead
          (⟨⟨List.replicate count 0 ++ tail, ending⟩, size, read, true, extensions⟩ : StreamSource Nio) =
          min (castInt ((size - read : Nat) : Int)) chunkSize := by
        rw [StreamSource.toRead, Nat.cast_sub (by omega)]
      have bound := castInt_le (size - read)
      by_cases positive : 0 < castInt ((size - read : Nat) : Int)
      · obtain ⟨taken, isTaken⟩ : ∃ taken : Nat, (taken : Int) = min (castInt ((size - read : Nat) : Int)) chunkSize :=
          ⟨(min (castInt ((size - read : Nat) : Int)) chunkSize).toNat, by
            have : (0 : Int) < chunkSize := by decide
            omega⟩
        have wide : (0 : Int) < chunkSize := by decide
        have pieces : List.replicate count (0 : UInt8) ++ tail =
            List.replicate taken 0 ++ (List.replicate (count - taken) 0 ++ tail) := by
          rw [← List.append_assoc, List.replicate_append_replicate]
          congr 2
          omega
        have full : StreamSource.toRead (⟨⟨List.replicate taken 0 ++ (List.replicate (count - taken) 0 ++ tail), ending⟩,
            size, read, true, extensions⟩ : StreamSource Nio) = (List.replicate taken (0 : UInt8)).length := by
          rw [← pieces, amount, List.length_replicate, isTaken]
        have shape := socket_next (List.length_pos_iff.mp (by rw [List.length_replicate]; omega)) full
        rw [← pieces, List.length_replicate] at shape
        by_cases ends : size ≤ read + taken
        · obtain ⟨zeros, isZeros⟩ : ∃ zeros, count - taken = zeros + 1 := ⟨count - taken - 1, by omega⟩
          rw [if_pos ends, isZeros, List.replicate_succ, List.cons_append,
            expectCrlf_other (socket_feeds ending) _ (by decide) (by decide)] at shape
          exact Drains.not_of_next_fault again shape
        · rw [if_neg ends] at shape
          rw [Drains.step_iff again shape]
          rintro ⟨others, -, drains⟩
          exact inductionHypothesis (size - (read + taken)) (by omega) (by omega) (by omega) others rfl drains
      · have refused : (Body.socket ⟨⟨List.replicate count 0 ++ tail, ending⟩, size, read, true, extensions⟩).next =
            .error (SysError.none.fault (text "failed to read data from socket")) := by
          rw [Body.next, StreamSource.next, amount]
          simp only [socketInput]
          rw [Nio.read, if_pos (by omega)]
          rfl
        exact Drains.not_of_next_fault again refused

end Socket

end SimpleNFast.Http
