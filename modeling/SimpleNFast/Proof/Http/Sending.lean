import SimpleNFast.Construction.Http.Handler
import SimpleNFast.Proof.Http.ChunkedDecoding

namespace SimpleNFast.Http

open Rdb (Code)

/-- The result of a program on a connection that has written something already. -/
def shift {value : Type} (written : Text) (result : Except Fault value × Wire) : Except Fault value × Wire :=
  (result.1, ⟨written ++ result.2.written, []⟩)

/-- A program adds to what was written and looks at nothing of it. -/
def Appends {value : Type} (program : Send value) : Prop :=
  ∀ written, program ⟨written, []⟩ = (program ⟨[], []⟩).map (shift written)

namespace Appends

variable {first second : Type}

theorem pure (value : first) : Appends (Pure.pure value : Send first) := by
  intro written
  change some (Except.ok value, _) = some (_, _)
  simp

theorem ofExcept (outcome : Except Fault first) : Appends (Send.ofExcept outcome) := by
  intro written
  change some (outcome, _) = some (_, _)
  simp

theorem running : Appends (Send.running : Send first) := fun _ => rfl

theorem bind {program : Send first} {next : first → Send second} (appends : Appends program)
    (after : ∀ value, Appends (next value)) : Appends (program >>= next) := by
  intro written
  change (program ⟨written, []⟩).bind _ = ((program ⟨[], []⟩).bind _).map _
  rw [appends written]
  have empty := appends []
  match ran : program ⟨[], []⟩ with
  | none => rfl
  | some (.error fault, wire) => rfl
  | some (.ok value, wire) =>
      rw [ran] at empty
      have shape : wire = ⟨wire.written, []⟩ := by
        have same := (Prod.mk.inj (Option.some.inj empty)).2
        simpa using same
      change next value ⟨written ++ wire.written, []⟩ = (next value wire).map _
      rw [shape, after value (written ++ wire.written), after value wire.written, Option.map_map]
      congr 1
      funext result
      simp [shift]

end Appends

theorem castInt_toNat_le (length : Nat) : (castInt length).toNat ≤ length := by
  have bound := castInt_le length
  omega

/-- A write on a good connection takes all bytes that it is asked for. -/
theorem sendData_eq (data : Text) (what : String) (written : Text) :
    sendData data what ⟨written, []⟩ =
      if 0 < castInt data.length then
        some (.ok .E_ok, ⟨written ++ data.take (castInt data.length).toNat, []⟩)
      else some (.error (SysError.none.fault (text what)), ⟨written, []⟩) := by
  have bound := castInt_toNat_le data.length
  rw [sendData, Wire.write]
  by_cases positive : 0 < castInt data.length
  · rw [if_neg (by omega), if_pos positive]
    have count : castInt data.length = (data.take (castInt data.length).toNat).length := by
      rw [List.length_take]
      omega
    simp only [List.headD_nil, List.tail_nil]
    rw [if_neg (by rw [not_not]; exact count)]
  · rw [if_pos (by omega), if_neg positive]

theorem sendData_appends (data : Text) (what : String) : Appends (sendData data what) := by
  intro written
  rw [sendData_eq, sendData_eq]
  split
  · simp [shift]
  · simp [shift]

theorem sendPiece_appends (chunked : Bool) (extensions : Params) (data : Text) :
    Appends (sendPiece chunked extensions data) := by
  cases chunked with
  | true =>
      simp only [sendPiece, if_true]
      refine Appends.bind (sendData_appends _ _) fun code => ?_
      split
      · exact Appends.pure _
      · refine Appends.bind (sendData_appends _ _) fun code => ?_
        split
        · exact Appends.pure _
        · exact sendData_appends _ _
  | false =>
      simp only [sendPiece, Bool.false_eq_true, if_false]
      refine Appends.bind (sendData_appends _ _) fun code => ?_
      split
      · exact Appends.pure _
      · exact Appends.pure _

theorem sendPieces_appends (chunked : Bool) (fuel : Nat) (body : Body) (missing : Int) :
    Appends (sendPieces chunked fuel body missing) := by
  induction fuel generalizing body missing with
  | zero => exact Appends.running
  | succ fuel inductionHypothesis =>
      rw [sendPieces]
      refine Appends.bind (Appends.ofExcept _) fun ⟨more, body⟩ => ?_
      dsimp only
      split
      · refine Appends.bind (Appends.ofExcept _) fun ⟨data, body⟩ => ?_
        refine Appends.bind (sendPiece_appends _ _ _) fun code => ?_
        split
        · exact Appends.pure _
        · exact inductionHypothesis _ _
      · exact Appends.pure _

theorem sendBody_appends (fuel : Nat) (body : Body) : Appends (sendBody fuel body) := by
  rw [sendBody]
  refine Appends.bind (sendPieces_appends _ _ _ _) fun ⟨code, missing⟩ => ?_
  dsimp only
  split
  · exact Appends.pure _
  · split
    · exact sendData_appends _ _
    · split
      · exact Appends.pure _
      · exact Appends.pure _

theorem sendResponse_appends (fuel : Nat) (response : Response) : Appends (sendResponse fuel response) := by
  rw [sendResponse]
  refine Appends.bind (sendData_appends _ _) fun code => ?_
  split
  · exact Appends.pure _
  · split
    · exact sendBody_appends _ _
    · exact Appends.pure _

/-- A program ends in the same way as another one where that one ends. -/
def Extends {value : Type} (shorter longer : Send value) : Prop :=
  ∀ wire result, shorter wire = some result → longer wire = some result

namespace Extends

variable {first second : Type}

theorem refl (program : Send first) : Extends program program := fun _ _ ended => ended

theorem bind {shorter longer : Send first} {next later : first → Send second} (extension : Extends shorter longer)
    (after : ∀ value, Extends (next value) (later value)) : Extends (shorter >>= next) (longer >>= later) := by
  intro wire result ended
  change (shorter wire).bind _ = _ at ended
  change (longer wire).bind _ = _
  match ran : shorter wire with
  | none =>
      rw [ran] at ended
      cases ended
  | some (.error fault, wire) =>
      rw [extension _ _ ran]
      rw [ran] at ended
      exact ended
  | some (.ok value, wire) =>
      rw [extension _ _ ran]
      rw [ran] at ended
      exact after value wire result ended

end Extends

theorem sendPieces_extends (chunked : Bool) {fuel more : Nat} (enough : fuel ≤ more) (body : Body) (missing : Int) :
    Extends (sendPieces chunked fuel body missing) (sendPieces chunked more body missing) := by
  induction fuel generalizing more body missing with
  | zero =>
      intro wire result ended
      cases ended
  | succ fuel inductionHypothesis =>
      cases more with
      | zero => omega
      | succ more =>
          rw [sendPieces, sendPieces]
          refine Extends.bind (Extends.refl _) fun ⟨next, body⟩ => ?_
          dsimp only
          split
          · refine Extends.bind (Extends.refl _) fun ⟨data, body⟩ => ?_
            refine Extends.bind (Extends.refl _) fun code => ?_
            split
            · exact Extends.refl _
            · exact inductionHypothesis (by omega) _ _
          · exact Extends.refl _

theorem sendBody_extends {fuel more : Nat} (enough : fuel ≤ more) (body : Body) :
    Extends (sendBody fuel body) (sendBody more body) :=
  Extends.bind (sendPieces_extends _ enough _ _) fun _ => Extends.refl _

theorem sendResponse_extends {fuel more : Nat} (enough : fuel ≤ more) (response : Response) :
    Extends (sendResponse fuel response) (sendResponse more response) := by
  refine Extends.bind (Extends.refl _) fun code => ?_
  split
  · exact Extends.refl _
  · split
    · exact sendBody_extends enough _
    · exact Extends.refl _

/-- Two calls of `send_response` that end do so in the same way. -/
theorem sendResponse_unique {fuel other : Nat} {response : Response} {wire : Wire}
    {result end_ : Except Fault Code × Wire} (ended : sendResponse fuel response wire = some result)
    (again : sendResponse other response wire = some end_) : result = end_ := by
  have first := sendResponse_extends (le_max_left fuel other) response wire result ended
  have second := sendResponse_extends (le_max_right fuel other) response wire end_ again
  exact Option.some.inj (first.symm.trans second)

namespace Send

variable {first second : Type}

theorem bind_ok {program : Send first} {wire later : Wire} {value : first}
    (ran : program wire = some (.ok value, later)) (next : first → Send second) :
    (program >>= next) wire = next value later := by
  change (program wire).bind _ = _
  rw [ran]
  rfl

theorem bind_error {program : Send first} {wire later : Wire} {fault : Fault}
    (ran : program wire = some (.error fault, later)) (next : first → Send second) :
    (program >>= next) wire = some (.error fault, later) := by
  change (program wire).bind _ = _
  rw [ran]
  rfl

theorem bind_ofExcept (value : first) (next : first → Send second) (wire : Wire) :
    (ofExcept (.ok value) >>= next) wire = next value wire := rfl

/-- A program that ends without an exception has parts that do. -/
theorem bind_ok_cases {program : Send first} {next : first → Send second} {wire last : Wire} {result : second}
    (ran : (program >>= next) wire = some (.ok result, last)) :
    ∃ value later, program wire = some (.ok value, later) ∧ next value later = some (.ok result, last) := by
  change (program wire).bind _ = _ at ran
  match stopped : program wire with
  | none =>
      rw [stopped] at ran
      cases ran
  | some (.error fault, later) =>
      rw [stopped] at ran
      cases ran
  | some (.ok value, later) =>
      rw [stopped] at ran
      exact ⟨value, later, rfl, ran⟩

end Send

theorem sendData_positive {data : Text} (positive : 0 < castInt data.length) (what : String) (written : Text) :
    sendData data what ⟨written, []⟩ =
      some (.ok .E_ok, ⟨written ++ data.take (castInt data.length).toNat, []⟩) := by
  rw [sendData_eq, if_pos positive]

theorem sendData_refused {data : Text} (refused : ¬ 0 < castInt data.length) (what : String) (written : Text) :
    sendData data what ⟨written, []⟩ = some (.error (SysError.none.fault (text what)), ⟨written, []⟩) := by
  rw [sendData_eq, if_neg refused]

theorem sendData_ok {data : Text} {what : String} {written : Text} {code : Code} {wire : Wire}
    (ran : sendData data what ⟨written, []⟩ = some (.ok code, wire)) :
    0 < castInt data.length ∧ code = .E_ok ∧
      wire = ⟨written ++ data.take (castInt data.length).toNat, []⟩ := by
  by_cases positive : 0 < castInt data.length
  · rw [sendData_positive positive] at ran
    cases ran
    exact ⟨positive, rfl, rfl⟩
  · rw [sendData_refused positive] at ran
    cases ran

/-- A piece that fits is sent. -/
theorem sendPiece_fits {chunked : Bool} {extensions : Params} {data : Text}
    (fits : pieceFits chunked extensions data = true) (written : Text) :
    ∃ sent, sendPiece chunked extensions data ⟨written, []⟩ = some (.ok .E_ok, ⟨sent, []⟩) := by
  cases chunked with
  | true =>
      simp only [pieceFits, Bool.not_true, Bool.false_or, Bool.and_eq_true, decide_eq_true_eq] at fits
      simp only [sendPiece, if_true]
      rw [Send.bind_ok (sendData_positive fits.1 _ _), if_neg (by decide),
        Send.bind_ok (sendData_positive fits.2 _ _), if_neg (by decide)]
      exact ⟨_, sendData_positive (by decide) _ _⟩
  | false =>
      simp only [pieceFits, Bool.not_false, Bool.true_or, Bool.true_and, decide_eq_true_eq] at fits
      simp only [sendPiece, Bool.false_eq_true, if_false]
      rw [Send.bind_ok (sendData_positive fits _ _), if_neg (by decide)]
      exact ⟨_, rfl⟩

/-- Only a piece that fits is sent without an exception. -/
theorem sendPiece_ok {chunked : Bool} {extensions : Params} {data written : Text} {code : Code} {wire : Wire}
    (ran : sendPiece chunked extensions data ⟨written, []⟩ = some (.ok code, wire)) :
    pieceFits chunked extensions data = true ∧ code = .E_ok ∧ ∃ sent, wire = ⟨sent, []⟩ := by
  cases chunked with
  | true =>
      simp only [sendPiece, if_true] at ran
      obtain ⟨first, later, sized, ran⟩ := Send.bind_ok_cases ran
      obtain ⟨header, rfl, rfl⟩ := sendData_ok sized
      rw [if_neg (by decide)] at ran
      obtain ⟨second, later, filled, ran⟩ := Send.bind_ok_cases ran
      obtain ⟨positive, rfl, rfl⟩ := sendData_ok filled
      rw [if_neg (by decide)] at ran
      obtain ⟨_, rfl, rfl⟩ := sendData_ok ran
      refine ⟨?_, rfl, _, rfl⟩
      simp [pieceFits, header, positive]
  | false =>
      simp only [sendPiece, Bool.false_eq_true, if_false] at ran
      obtain ⟨first, later, filled, ran⟩ := Send.bind_ok_cases ran
      obtain ⟨positive, rfl, rfl⟩ := sendData_ok filled
      rw [if_neg (by decide)] at ran
      cases ran
      refine ⟨?_, rfl, _, rfl⟩
      simp [pieceFits, positive]

/-- A body that transmits is sent to its end. -/
theorem sendPieces_transmits {chunked : Bool} {body : Body} (transmits : Transmits chunked body) (missing : Int)
    (written : Text) :
    ∃ fuel left sent, sendPieces chunked fuel body missing ⟨written, []⟩ =
      some (.ok (.E_ok, left), ⟨sent, []⟩) := by
  induction transmits generalizing missing written with
  | done none =>
      refine ⟨1, missing, written, ?_⟩
      rw [sendPieces, none]
      rfl
  | @step body ready later data more taken fits rest inductionHypothesis =>
      obtain ⟨sent, piece⟩ := sendPiece_fits fits written
      obtain ⟨fuel, left, all, ended⟩ :=
        inductionHypothesis (if chunked then missing else missing - data.length) sent
      refine ⟨fuel + 1, left, all, ?_⟩
      rw [sendPieces, more, Send.bind_ofExcept]
      dsimp only
      rw [if_pos rfl, taken, Send.bind_ofExcept]
      dsimp only
      rw [Send.bind_ok piece, if_neg (by decide)]
      exact ended

/-- Only a body that transmits is sent without an exception. -/
theorem sendPieces_ok {chunked : Bool} {fuel : Nat} {body : Body} {missing left : Int} {written : Text}
    {code : Code} {wire : Wire}
    (ran : sendPieces chunked fuel body missing ⟨written, []⟩ = some (.ok (code, left), wire)) :
    Transmits chunked body ∧ code = .E_ok ∧ ∃ sent, wire = ⟨sent, []⟩ := by
  induction fuel generalizing body missing written with
  | zero => cases ran
  | succ fuel inductionHypothesis =>
      rw [sendPieces] at ran
      obtain ⟨⟨next, ready⟩, later, asked, ran⟩ := Send.bind_ok_cases ran
      obtain ⟨more, rfl⟩ := Prod.mk.inj (Option.some.inj asked)
      dsimp only at ran
      cases next with
      | false =>
          cases ran
          exact ⟨.done more, rfl, _, rfl⟩
      | true =>
          rw [if_pos rfl] at ran
          obtain ⟨⟨data, body'⟩, later, got, ran⟩ := Send.bind_ok_cases ran
          obtain ⟨taken, rfl⟩ := Prod.mk.inj (Option.some.inj got)
          dsimp only at ran
          obtain ⟨sentCode, later, piece, ran⟩ := Send.bind_ok_cases ran
          obtain ⟨fits, rfl, sent, rfl⟩ := sendPiece_ok piece
          rw [if_neg (by decide)] at ran
          obtain ⟨rest, rfl, ended⟩ := inductionHypothesis ran
          exact ⟨.step more taken fits rest, rfl, ended⟩

theorem sendBody_transmits {body : Body} (transmits : Transmits body.chunked body) (written : Text) :
    ∃ fuel code sent, sendBody fuel body ⟨written, []⟩ = some (.ok code, ⟨sent, []⟩) := by
  obtain ⟨fuel, left, sent, pieces⟩ := sendPieces_transmits transmits body.length written
  refine ⟨fuel, ?_⟩
  rw [sendBody, Send.bind_ok pieces]
  dsimp only
  rw [if_neg (by decide)]
  split
  · exact ⟨_, _, sendData_positive (by decide) _ _⟩
  · split
    · exact ⟨_, _, rfl⟩
    · exact ⟨_, _, rfl⟩

theorem sendBody_ok {fuel : Nat} {body : Body} {written : Text} {code : Code} {wire : Wire}
    (ran : sendBody fuel body ⟨written, []⟩ = some (.ok code, wire)) : Transmits body.chunked body := by
  rw [sendBody] at ran
  obtain ⟨⟨sentCode, left⟩, later, pieces, ran⟩ := Send.bind_ok_cases ran
  exact (sendPieces_ok pieces).1

/-- A response that is sendable is sent. -/
theorem Sendable.delivers {response : Response} (sendable : Sendable response) :
    ∃ fuel code sent, sendResponse fuel response ⟨[], []⟩ = some (.ok code, ⟨sent, []⟩) := by
  obtain ⟨positive, transmits⟩ := sendable
  match has : response.body with
  | none =>
      refine ⟨0, .E_ok, response.str.take (castInt response.str.length).toNat, ?_⟩
      rw [sendResponse, Send.bind_ok (sendData_positive positive _ _), if_neg (by decide), has]
      rfl
  | some body =>
      obtain ⟨fuel, code, sent, ended⟩ :=
        sendBody_transmits (transmits body has) ([] ++ response.str.take (castInt response.str.length).toNat)
      refine ⟨fuel, code, sent, ?_⟩
      rw [sendResponse, Send.bind_ok (sendData_positive positive _ _), if_neg (by decide), has]
      exact ended

/-- Only a response that is sendable is sent without an exception. -/
theorem sendResponse_ok {fuel : Nat} {response : Response} {written : Text} {code : Code} {wire : Wire}
    (ran : sendResponse fuel response ⟨written, []⟩ = some (.ok code, wire)) : Sendable response := by
  rw [sendResponse] at ran
  obtain ⟨headCode, later, head, ran⟩ := Send.bind_ok_cases ran
  obtain ⟨positive, rfl, rfl⟩ := sendData_ok head
  refine ⟨positive, ?_⟩
  intro body has
  rw [if_neg (by decide), has] at ran
  exact sendBody_ok ran

/-- A response whose first text is refused writes nothing. -/
theorem sendResponse_refused {response : Response} (refused : castInt response.str.length ≤ 0) (fuel : Nat)
    (written : Text) :
    sendResponse fuel response ⟨written, []⟩ =
      some (.error (SysError.none.fault (text "failed to send response and headers")), ⟨written, []⟩) := by
  rw [sendResponse]
  exact Send.bind_error (sendData_refused (by omega) _ _) _

/-- A result of a program that appends is a shifted result on a fresh connection. -/
theorem Appends.result {value : Type} {program : Send value} (appends : Appends program) {written : Text}
    {outcome : Except Fault value} {wire : Wire} (ran : program ⟨written, []⟩ = some (outcome, wire)) :
    ∃ sent, program ⟨[], []⟩ = some (outcome, ⟨sent, []⟩) ∧ wire = ⟨written ++ sent, []⟩ := by
  rw [appends written] at ran
  have empty := appends []
  match fresh : program ⟨[], []⟩ with
  | none =>
      rw [fresh] at ran
      cases ran
  | some (first, later) =>
      rw [fresh] at ran empty
      have shape : later = ⟨later.written, []⟩ := by
        have same := (Prod.mk.inj (Option.some.inj empty)).2
        simpa using same
      obtain ⟨rfl, rfl⟩ := Prod.mk.inj (Option.some.inj ran)
      exact ⟨later.written, by rw [← shape], rfl⟩

/-- The first text of a response is on the connection when it was not refused. -/
theorem sendResponse_written {fuel : Nat} {response : Response} {written : Text} {outcome : Except Fault Code}
    {wire : Wire} (positive : 0 < castInt response.str.length)
    (ran : sendResponse fuel response ⟨written, []⟩ = some (outcome, wire)) :
    ∃ sent, wire = ⟨sent, []⟩ ∧ written.length < sent.length := by
  rw [sendResponse, Send.bind_ok (sendData_positive positive _ _), if_neg (by decide)] at ran
  have bound := castInt_toNat_le response.str.length
  have count : (response.str.take (castInt response.str.length).toNat).length =
      (castInt response.str.length).toNat := by
    rw [List.length_take]
    omega
  match has : response.body with
  | none =>
      rw [has] at ran
      cases ran
      refine ⟨_, rfl, ?_⟩
      rw [List.length_append, count]
      omega
  | some body =>
      rw [has] at ran
      obtain ⟨sent, fresh, rfl⟩ := (sendBody_appends fuel body).result ran
      refine ⟨_, rfl, ?_⟩
      rw [List.length_append, List.length_append, count]
      omega

end SimpleNFast.Http
