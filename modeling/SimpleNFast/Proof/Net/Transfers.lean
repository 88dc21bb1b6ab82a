import SimpleNFast.Construction.Net.Transfers
import SimpleNFast.Proof.Text

namespace SimpleNFast.Net.Ports

open Transfer

section Loops

variable (operation : Operation)

/-- A pass of the loop of a socket as an attempt. -/
def SocketPass.attempt (polled : Bool) (pass : SocketPass) : Attempt IoEnd :=
  let (ready, error) := if polled then poll pass.polls else (1, .success)
  if ready ≤ 0 then .stops (.returned (mapSystemError error operation.failed))
  else
    match pass.call with
    | .failed error => if error = .EINTR then .again else .stops (.returned (mapSystemError error operation.failed))
    | .moves most => .takes most

/-- A pass of the loop of a TLS connection as an attempt. -/
def TlsPass.attempt (pass : TlsPass) : Attempt IoEnd :=
  match pass.call with
  | .failed error sslError queued osError =>
      let ending := handleSslError operation pass.polls error sslError queued osError
      if ending = .returned .E_try_again then .again else .stops ending
  | .moves most => .takes most

/-- A loop moves what the transfer by its attempts takes. -/
structure Moves {pass : Type} (attempt : pass → Attempt IoEnd) (moved : List UInt8) (result : Moved pass)
    (transfer : Transfer UInt8 IoEnd) : Prop where
  ending : result.ending = transfer.stopped.getD (.returned .E_ok)
  bytes : result.bytes = moved ++ transfer.taken
  left : result.left = transfer.left
  passes : result.passes.map attempt = transfer.attempts

/-- A call that moves bytes is an attempt that takes them, when the rest of the loop is the rest of the transfer. -/
theorem Moves.takes {pass : Type} {attempt : pass → Attempt IoEnd} {passes : List pass} {stream moved : List UInt8}
    {count most : Nat} {rest : Moved pass}
    (others : Moves attempt (moved ++ stream.take (min most count)) rest
      (run (.returned .E_ok) (passes.map attempt) (stream.drop (stream.take (min most count)).length)
        (count - (stream.take (min most count)).length))) :
    Moves attempt moved
      (if (stream.take (min most count)).length = 0 then ⟨.returned .E_ok, moved, stream, passes⟩
        else if count - (stream.take (min most count)).length = 0 then
          ⟨.returned .E_ok, moved ++ stream.take (min most count), stream.drop (stream.take (min most count)).length, passes⟩
        else rest)
      (run (.returned .E_ok) (.takes most :: passes.map attempt) stream count) := by
  dsimp only [run]
  split
  · exact ⟨rfl, (List.append_nil moved).symm, rfl, rfl⟩
  · split
    · exact ⟨rfl, rfl, rfl, rfl⟩
    · obtain ⟨ending, bytes, left, passes⟩ := others
      exact ⟨ending, by rw [bytes, List.append_assoc], left, passes⟩

theorem Plain.loop_moves (polled : Bool) (passes : List SocketPass) {stream : List UInt8} {count : Nat}
    {moved : List UInt8} :
    Moves (SocketPass.attempt operation polled) moved (Plain.loop operation polled passes stream count moved)
      (run (.returned .E_ok) (passes.map (SocketPass.attempt operation polled)) stream count) := by
  induction passes generalizing stream count moved with
  | nil =>
      refine ⟨?_, rfl, rfl, rfl⟩
      rw [List.map_nil, run, Plain.loop]
      split <;> rfl
  | cons pass passes inductionHypothesis =>
      rw [List.map_cons, Plain.loop, SocketPass.attempt]
      generalize (if polled = true then poll pass.polls else (1, .success)) = found
      obtain ⟨ready, error⟩ := found
      dsimp only
      by_cases blocked : ready ≤ 0
      · rw [if_pos blocked, if_pos blocked]
        exact ⟨rfl, (List.append_nil moved).symm, rfl, rfl⟩
      · rw [if_neg blocked, if_neg blocked]
        cases pass.call with
        | failed error =>
            dsimp only
            by_cases signal : error = .EINTR
            · rw [if_pos signal, if_pos signal]
              exact inductionHypothesis
            · rw [if_neg signal, if_neg signal]
              exact ⟨rfl, (List.append_nil moved).symm, rfl, rfl⟩
        | moves most => exact Moves.takes inductionHypothesis

theorem Secure.loop_moves (passes : List TlsPass) {stream : List UInt8} {count : Nat} {moved : List UInt8} :
    Moves (TlsPass.attempt operation) moved (Secure.loop operation passes stream count moved)
      (run (.returned .E_ok) (passes.map (TlsPass.attempt operation)) stream count) := by
  induction passes generalizing stream count moved with
  | nil =>
      refine ⟨?_, rfl, rfl, rfl⟩
      rw [List.map_nil, run, Secure.loop]
      split <;> rfl
  | cons pass passes inductionHypothesis =>
      rw [List.map_cons, Secure.loop, TlsPass.attempt]
      cases pass.call with
      | failed error sslError queued osError =>
          dsimp only
          by_cases again : handleSslError operation pass.polls error sslError queued osError = .returned .E_try_again
          · rw [if_pos again, if_pos again]
            exact inductionHypothesis
          · rw [if_neg again, if_neg again]
            exact ⟨rfl, (List.append_nil moved).symm, rfl, rfl⟩
      -- At the end of its stream the library reports a closed connection, which is no error.
      | moves most => exact Moves.takes inductionHypothesis

/-- The attempts of a connection. -/
def Port.attempts (timeout : Int) : Port → List (Attempt IoEnd)
  | .plain socket => socket.passes.map (SocketPass.attempt operation (socket.isPolled timeout))
  | .secure connection => connection.passes.map (TlsPass.attempt operation)

/-- The transfer behind a read or a write of this size. -/
def Port.transfer (timeout : Int) (port : Port) (stream : List UInt8) (count : Nat) : Transfer UInt8 IoEnd :=
  run (.returned .E_ok) (port.attempts operation timeout) stream count

/-- Both classes move what the transfer by their attempts takes. -/
theorem Port.move_eq (timeout : Int) (port : Port) (stream : List UInt8) (count : Nat) :
    ∃ later, later.attempts operation timeout = (port.transfer operation timeout stream count).attempts ∧
      port.move operation timeout stream count =
        ((port.transfer operation timeout stream count).stopped.getD (.returned .E_ok),
          (port.transfer operation timeout stream count).taken, (port.transfer operation timeout stream count).left,
          later) := by
  cases port with
  | plain socket =>
      obtain ⟨ending, bytes, left, passes⟩ := @Plain.loop_moves operation (socket.isPolled timeout) socket.passes stream
        count []
      refine ⟨.plain ⟨socket.blocking, (Plain.loop operation (socket.isPolled timeout) socket.passes stream count []).passes⟩,
        passes, ?_⟩
      exact congrArg₂ _ ending (congrArg₂ _ bytes (congrArg₂ _ left rfl))
  | secure connection =>
      obtain ⟨ending, bytes, left, passes⟩ := @Secure.loop_moves operation connection.passes stream count []
      refine ⟨.secure ⟨(Secure.loop operation connection.passes stream count []).passes⟩, passes, ?_⟩
      exact congrArg₂ _ ending (congrArg₂ _ bytes (congrArg₂ _ left rfl))

/-- Fair calls are fair attempts. -/
theorem Port.isFair_attempts {port : Port} (fair : port.isFair = true) (timeout : Int) :
    ∀ attempt ∈ port.attempts operation timeout, attempt.isFair = true := by
  intro attempt member
  cases port with
  | plain socket =>
      obtain ⟨pass, inside, rfl⟩ := List.mem_map.1 member
      have here := List.all_eq_true.1 fair pass inside
      rw [Bool.and_eq_true, decide_eq_true_eq] at here
      obtain ⟨ready, call⟩ := here
      rw [SocketPass.attempt]
      have positive : ¬ (if socket.isPolled timeout = true then poll pass.polls else (1, .success)).1 ≤ 0 := by
        split
        · omega
        · decide
      generalize (if socket.isPolled timeout = true then poll pass.polls else (1, .success)) = found at positive ⊢
      obtain ⟨count, failure⟩ := found
      dsimp only at positive ⊢
      rw [if_neg positive]
      cases made : pass.call with
      | moves most =>
          rw [made] at call
          exact call
      | failed error =>
          rw [made, beq_iff_eq] at call
          exact (congrArg Attempt.isFair (if_pos call)).trans rfl
  | secure connection =>
      obtain ⟨pass, inside, rfl⟩ := List.mem_map.1 member
      have here := List.all_eq_true.1 fair pass inside
      rw [TlsPass.attempt]
      cases made : pass.call with
      | moves most =>
          rw [made] at here
          exact here
      | failed error sslError queued osError =>
          rw [made] at here
          simp only [Bool.and_eq_true, Bool.or_eq_true, decide_eq_true_eq, beq_iff_eq] at here
          obtain ⟨⟨negative, ready⟩, wants⟩ := here
          have again : handleSslError operation pass.polls error sslError queued osError = .returned .E_try_again := by
            have some : (poll pass.polls).1 ≠ 0 ∧ (poll pass.polls).1 ≠ -1 := by omega
            obtain rfl | rfl := wants <;> simp [handleSslError, negative, some.1, some.2]
          exact (congrArg Attempt.isFair (if_pos again)).trans rfl

end Loops

section Bytes

@[simp] theorem lowBytes_length (size value : Nat) : (lowBytes size value).length = size := by
  induction size generalizing value with
  | zero => rfl
  | succ size inductionHypothesis => rw [lowBytes, List.length_cons, inductionHypothesis]

theorem ofLowBytes_lowBytes {size value : Nat} (small : value < 256 ^ size) : ofLowBytes (lowBytes size value) = value := by
  induction size generalizing value with
  | zero =>
      rw [Nat.pow_zero] at small
      exact (Nat.lt_one_iff.1 small).symm
  | succ size inductionHypothesis =>
      have rest : value / 256 < 256 ^ size := by
        rw [Nat.pow_succ] at small
        exact Nat.div_lt_of_lt_mul (by omega)
      have low : (UInt8.ofNat value).toNat = value % 256 := rfl
      rw [lowBytes, ofLowBytes, inductionHypothesis rest, low]
      omega

theorem lowBytes_ofLowBytes (bytes : List UInt8) : lowBytes bytes.length (ofLowBytes bytes) = bytes := by
  induction bytes with
  | nil => rfl
  | cons byte bytes inductionHypothesis =>
      have small := byte.toNat_lt
      have low : UInt8.ofNat (byte.toNat + 256 * ofLowBytes bytes) = byte := by
        rw [← UInt8.toNat_inj]
        show (byte.toNat + 256 * ofLowBytes bytes) % 256 = byte.toNat
        omega
      have rest : (byte.toNat + 256 * ofLowBytes bytes) / 256 = ofLowBytes bytes := by omega
      rw [ofLowBytes, List.length_cons, lowBytes, low, rest, inductionHypothesis]

/-- The bytes of an integer in the order of the network. -/
def networkBytes (size value : Nat) : List UInt8 := (lowBytes size value).reverse

@[simp] theorem networkBytes_length (size value : Nat) : (networkBytes size value).length = size := by
  rw [networkBytes, List.length_reverse, lowBytes_length]

/-- Both kinds of hosts send the same bytes. -/
theorem Host.memory_hton (host : Host) (size value : Nat) :
    host.memory size (host.hton size value) = networkBytes size value := by
  obtain ⟨bigEndian⟩ := host
  cases bigEndian with
  | true => rfl
  | false =>
      have turned := lowBytes_ofLowBytes (lowBytes size value).reverse
      rw [List.length_reverse, lowBytes_length] at turned
      exact turned

/-- Both kinds of hosts take the integer from these bytes. -/
theorem Host.ntoh_ofMemory (host : Host) {size value : Nat} (small : value < 256 ^ size) :
    host.ntoh size (host.ofMemory (networkBytes size value)) = value := by
  obtain ⟨bigEndian⟩ := host
  cases bigEndian with
  | true =>
      show ofLowBytes (lowBytes size value).reverse.reverse = value
      rw [List.reverse_reverse, ofLowBytes_lowBytes small]
  | false =>
      have turned := lowBytes_ofLowBytes (lowBytes size value).reverse
      rw [List.length_reverse, lowBytes_length] at turned
      show ofLowBytes (lowBytes size (ofLowBytes (lowBytes size value).reverse)).reverse = value
      rw [turned, List.reverse_reverse, ofLowBytes_lowBytes small]

end Bytes

namespace Port

variable {host : Host} {timeout : Int}

/-- No attempt of a connection stops a transfer. -/
def Patient (operation : Operation) (timeout : Int) (port : Port) : Prop :=
  ∀ attempt ∈ port.attempts operation timeout, attempt.isFair = true

theorem complete_ok {failed : IoCode} (other : failed ≠ .E_ok) {ending : IoEnd} {size : Int} {bytes : List UInt8} :
    complete failed ending size bytes = .returned .E_ok ↔ ending = .returned .E_ok ∧ size = bytes.length := by
  rw [complete]
  by_cases fine : ending = .returned .E_ok
  · by_cases same : size = bytes.length
    · simp [fine, same]
    · simp [fine, same, other]
  · simp [fine]

section Moves

variable {operation : Operation} {port : Port} {stream : List UInt8} {count : Nat}

theorem move_conserves :
    (port.move operation timeout stream count).2.1 ++ (port.move operation timeout stream count).2.2.1 = stream ∧
      (port.move operation timeout stream count).2.1.length ≤ count := by
  obtain ⟨later, -, same⟩ := port.move_eq operation timeout stream count
  rw [same]
  exact run_conserves

/-- A move that has everything ends well. -/
theorem move_ending (positive : 0 < count) (whole : (port.move operation timeout stream count).2.1.length = count) :
    (port.move operation timeout stream count).1 = .returned .E_ok := by
  obtain ⟨later, -, same⟩ := port.move_eq operation timeout stream count
  rw [same] at whole ⊢
  have none := (run_stopped positive).2 whole
  exact congrArg (fun stopped => stopped.getD (.returned .E_ok)) none

theorem move_patient (patient : port.Patient operation timeout) (positive : 0 < count)
    (enough : count ≤ stream.length) :
    (port.move operation timeout stream count).2.1.length = count ∧
      (port.move operation timeout stream count).2.2.2.Patient operation timeout := by
  obtain ⟨later, attempts, same⟩ := port.move_eq operation timeout stream count
  obtain ⟨none, fair⟩ := @run_fair _ _ (.returned .E_ok) _ stream count patient positive enough
  rw [same]
  refine ⟨(run_stopped positive).1 none, ?_⟩
  show ∀ attempt ∈ later.attempts operation timeout, attempt.isFair = true
  rw [attempts]
  exact fair

end Moves

section Sizes

variable {port : Port} {incoming buf : List UInt8} {size : Nat}

/-- A complete read from the front of some bytes and what follows has these bytes, when they are as many as wanted. -/
theorem readn_complete {rest : List UInt8} (front : incoming <+: buf ++ rest)
    (ok : complete .E_read_failed (port.readn timeout incoming buf.length).1 buf.length
      (port.readn timeout incoming buf.length).2.1 = .returned .E_ok) :
    buf ≠ [] ∧ (port.readn timeout incoming buf.length).2.1 = buf ∧
      incoming = buf ++ (port.readn timeout incoming buf.length).2.2.1 := by
  obtain ⟨fine, whole⟩ := (complete_ok (by decide)).1 ok
  have length : (port.readn timeout incoming buf.length).2.1.length = buf.length := by exact_mod_cast whole.symm
  by_cases positive : 0 < buf.length
  · have parts : (port.readn timeout incoming buf.length).2.1 ++ (port.readn timeout incoming buf.length).2.2.1 =
        incoming := by
      rw [readn, if_neg (by omega), Int.toNat_natCast]
      exact move_conserves.1
    have first : (port.readn timeout incoming buf.length).2.1 <+: buf ++ rest := List.IsPrefix.trans ⟨_, parts⟩ front
    have same := (List.prefix_of_prefix_length_le first (List.prefix_append _ _) length.le).eq_of_length length
    rw [same] at parts
    exact ⟨List.length_pos_iff.1 positive, same, parts.symm⟩
  · rw [readn, if_pos (by omega)] at fine
    cases fine

theorem readn_patient (patient : port.Patient .read timeout) (positive : 0 < size) (enough : size ≤ incoming.length) :
    complete .E_read_failed (port.readn timeout incoming size).1 size (port.readn timeout incoming size).2.1 =
        .returned .E_ok ∧ (port.readn timeout incoming size).2.2.2.Patient .read timeout := by
  rw [readn, if_neg (by omega), Int.toNat_natCast]
  obtain ⟨whole, later⟩ := move_patient patient positive enough
  exact ⟨(complete_ok (by decide)).2 ⟨move_ending positive whole, by rw [whole]⟩, later⟩

/-- A write puts a front of its bytes on the connection, and it ends well when these are all bytes. -/
theorem writen_spec (filled : buf ≠ []) :
    (port.writen timeout buf buf.length).2.1 <+: buf ∧
      (complete .E_write_failed (port.writen timeout buf buf.length).1 buf.length
        (port.writen timeout buf buf.length).2.1 = .returned .E_ok ↔
          (port.writen timeout buf buf.length).2.1 = buf) := by
  have positive : 0 < buf.length := List.length_pos_iff.2 filled
  rw [writen, if_neg (by omega), Int.toNat_natCast]
  have front : (port.move .write timeout buf buf.length).2.1 <+: buf := ⟨_, move_conserves.1⟩
  refine ⟨front, ?_⟩
  rw [complete_ok (by decide)]
  constructor
  · rintro ⟨-, whole⟩
    exact front.eq_of_length (by exact_mod_cast whole.symm)
  · intro whole
    have length := congrArg List.length whole
    exact ⟨move_ending positive length, by rw [length]⟩

theorem writen_patient (patient : port.Patient .write timeout) (filled : buf ≠ []) :
    (port.writen timeout buf buf.length).2.1 = buf ∧
      (port.writen timeout buf buf.length).2.2.Patient .write timeout := by
  have positive : 0 < buf.length := List.length_pos_iff.2 filled
  rw [writen, if_neg (by omega), Int.toNat_natCast]
  obtain ⟨whole, later⟩ := move_patient patient positive le_rfl
  have front : (port.move .write timeout buf buf.length).2.1 <+: buf := ⟨_, move_conserves.1⟩
  exact ⟨front.eq_of_length whole, later⟩

end Sizes

section Integers

variable {port : Port} {incoming rest : List UInt8} {size value : Nat}

theorem networkBytes_ne_nil (positive : 0 < size) (value : Nat) : networkBytes size value ≠ [] := by
  rw [Ne, ← List.length_eq_zero_iff, networkBytes_length]
  omega

theorem writeIntegral_spec (positive : 0 < size) :
    (port.writeIntegral host timeout size value).2.1 <+: networkBytes size value ∧
      ((port.writeIntegral host timeout size value).1 = .returned .E_ok ↔
        (port.writeIntegral host timeout size value).2.1 = networkBytes size value) := by
  have spec := @writen_spec timeout port _ (networkBytes_ne_nil positive value)
  rw [networkBytes_length] at spec
  rw [writeIntegral, host.memory_hton]
  exact spec

theorem writeIntegral_patient (patient : port.Patient .write timeout) (positive : 0 < size) :
    (port.writeIntegral host timeout size value).2.1 = networkBytes size value ∧
      (port.writeIntegral host timeout size value).2.2.Patient .write timeout := by
  have spec := writen_patient patient (networkBytes_ne_nil positive value)
  rw [networkBytes_length] at spec
  rw [writeIntegral, host.memory_hton]
  exact spec

/-- An integer that is read from the front of its bytes and what follows is the one that was written. -/
theorem readIntegral_ok (small : value < 256 ^ size) (front : incoming <+: networkBytes size value ++ rest)
    (ok : (port.readIntegral host timeout incoming size).1 = .returned .E_ok) :
    (port.readIntegral host timeout incoming size).2.1 = value ∧
      incoming = networkBytes size value ++ (port.readIntegral host timeout incoming size).2.2.1 := by
  rw [readIntegral] at ok ⊢
  have complete := @readn_complete timeout port incoming (networkBytes size value) rest front
  rw [networkBytes_length] at complete
  obtain ⟨-, same, parts⟩ := complete ok
  refine ⟨?_, parts⟩
  show host.ntoh size (host.ofMemory (port.readn timeout incoming size).2.1) = value
  rw [same, host.ntoh_ofMemory small]

theorem readIntegral_patient (patient : port.Patient .read timeout) (positive : 0 < size) :
    (port.readIntegral host timeout (networkBytes size value ++ rest) size).1 = .returned .E_ok ∧
      (port.readIntegral host timeout (networkBytes size value ++ rest) size).2.2.2.Patient .read timeout := by
  rw [readIntegral]
  exact readn_patient patient positive (by rw [List.length_append, networkBytes_length]; omega)

end Integers

section Strings

variable {port : Port} {incoming rest : List UInt8} {content : Text}

theorem length_bits (short : content.length < 2 ^ 31) :
    castInt content.length = content.length ∧ (BitVec.ofInt 32 (content.length : Int)).toNat = content.length ∧
      (BitVec.ofNat 32 content.length).toInt = content.length := by
  refine ⟨castInt_eq (by omega) (by exact_mod_cast short), ?_, ?_⟩
  · rw [BitVec.toNat_ofInt]
    omega
  · have small : (BitVec.ofNat 32 content.length).toNat = content.length := by
      rw [BitVec.toNat_ofNat]
      omega
    rw [BitVec.toInt_eq_toNat_of_lt (by omega), small]

theorem writeString_spec (short : content.length < 2 ^ 31) :
    (port.writeString host timeout content).2.1 <+: networkBytes 4 content.length ++ content ∧
      ((port.writeString host timeout content).1 = .returned .E_ok ↔
        content ≠ [] ∧ (port.writeString host timeout content).2.1 = networkBytes 4 content.length ++ content) := by
  obtain ⟨cast, bits, -⟩ := length_bits short
  have length := @writeIntegral_spec host timeout port 4 content.length (by decide)
  rw [writeString, cast, bits]
  generalize port.writeIntegral host timeout 4 content.length = first at length ⊢
  obtain ⟨ending, bytes, port⟩ := first
  dsimp only at length ⊢
  by_cases ok : ending = .returned .E_ok
  · rw [if_pos ok, length.2.1 ok]
    dsimp only
    rw [List.prefix_append_right_inj, List.append_cancel_left_eq]
    by_cases filled : content = []
    · subst filled
      have refused : (port.writen timeout [] (([] : Text).length : Int)) = (.returned .E_invalid_arg, [], port) := rfl
      rw [refused]
      exact ⟨List.prefix_rfl, iff_of_false (fun ok => by cases ((complete_ok (by decide)).1 ok).1) fun both => both.1 rfl⟩
    · obtain ⟨front, fine⟩ := @writen_spec timeout port content filled
      exact ⟨front, by rw [fine]; exact (and_iff_right filled).symm⟩
  · rw [if_neg ok]
    refine ⟨length.1.trans (List.prefix_append _ _), iff_of_false ok ?_⟩
    rintro ⟨filled, whole⟩
    have short := length.1.length_le
    have positive := List.length_pos_iff.2 filled
    rw [show bytes = _ from whole, List.length_append] at short
    omega

theorem readString_ok (short : content.length < 2 ^ 31)
    (front : incoming <+: networkBytes 4 content.length ++ content ++ rest)
    (ok : (port.readString host timeout incoming).1 = .returned .E_ok) :
    content ≠ [] ∧ (port.readString host timeout incoming).2.1 = content ∧
      incoming = networkBytes 4 content.length ++ content ++ (port.readString host timeout incoming).2.2.1 := by
  obtain ⟨-, -, bits⟩ := length_bits short
  rw [List.append_assoc] at front
  have small : content.length < 256 ^ 4 := by omega
  have length := @readIntegral_ok host timeout port incoming (content ++ rest) 4 content.length small front
  rw [readString] at ok ⊢
  generalize port.readIntegral host timeout incoming 4 = first at length ok ⊢
  obtain ⟨ending, value, left, port⟩ := first
  dsimp only at length ok ⊢
  by_cases fine : ending = .returned .E_ok
  · obtain ⟨rfl, rfl⟩ := length fine
    rw [if_pos fine, bits, if_neg (by omega)] at ok ⊢
    dsimp only at ok ⊢
    rw [List.prefix_append_right_inj] at front
    obtain ⟨filled, same, parts⟩ := readn_complete front ok
    refine ⟨filled, same, ?_⟩
    rw [List.append_assoc]
    exact congrArg (networkBytes 4 content.length ++ ·) parts
  · rw [if_neg fine] at ok
    exact absurd ok fine

theorem writeString_patient (patient : port.Patient .write timeout) (short : content.length < 2 ^ 31)
    (filled : content ≠ []) :
    (port.writeString host timeout content).1 = .returned .E_ok ∧
      (port.writeString host timeout content).2.2.Patient .write timeout := by
  obtain ⟨cast, bits, -⟩ := length_bits short
  have spec := @writeIntegral_spec host timeout port 4 content.length (by decide)
  obtain ⟨whole, later⟩ := @writeIntegral_patient host timeout port 4 content.length patient (by decide)
  have ok := spec.2.2 whole
  rw [writeString, cast, bits]
  generalize port.writeIntegral host timeout 4 content.length = first at ok later ⊢
  obtain ⟨ending, bytes, port⟩ := first
  dsimp only at ok later ⊢
  rw [if_pos ok]
  obtain ⟨all, last⟩ := writen_patient later filled
  exact ⟨(writen_spec filled).2.2 all, last⟩

theorem readString_patient (patient : port.Patient .read timeout) (short : content.length < 2 ^ 31)
    (filled : content ≠ []) :
    (port.readString host timeout (networkBytes 4 content.length ++ content ++ rest)).1 = .returned .E_ok ∧
      (port.readString host timeout (networkBytes 4 content.length ++ content ++ rest)).2.2.2.Patient .read timeout := by
  obtain ⟨-, -, bits⟩ := length_bits short
  have positive := List.length_pos_iff.2 filled
  rw [List.append_assoc]
  have small : content.length < 256 ^ 4 := by omega
  obtain ⟨ok, later⟩ := @readIntegral_patient host timeout port (content ++ rest) 4 content.length patient (by decide)
  obtain ⟨same, left⟩ := readIntegral_ok small List.prefix_rfl ok
  rw [readString]
  generalize port.readIntegral host timeout (networkBytes 4 content.length ++ (content ++ rest)) 4 = first
    at ok later same left ⊢
  obtain ⟨ending, value, behind, port⟩ := first
  dsimp only at ok later same left ⊢
  subst same
  rw [List.append_cancel_left_eq] at left
  subst left
  rw [if_pos ok, bits, if_neg (by omega)]
  exact readn_patient later positive (by rw [List.length_append]; omega)

end Strings

end Port

namespace Item

/-- The bytes of an item on a connection. -/
def bytes : Item → List UInt8
  | integral width value => networkBytes width.size value
  | string content => networkBytes 4 content.length ++ content

/-- A string has a length that is an `int`. -/
def Fits : Item → Prop
  | integral _ _ => True
  | string content => content.length < 2 ^ 31

/-- An empty string is refused by the write and by the read of its content. -/
def isSent : Item → Bool
  | integral _ _ => true
  | string content => !content.isEmpty

end Item

theorem Width.size_positive (width : Width) : 0 < width.size := by cases width <;> decide

namespace Port

variable {host : Host} {timeout : Int} {port : Port} {item : Item} {incoming rest : List UInt8}

/-- A write puts a front of the bytes of its item on the connection, and it ends well when these are all bytes of an item
that is sent. -/
theorem write_spec (fits : item.Fits) :
    (port.write host timeout item).2.1 <+: item.bytes ∧
      ((port.write host timeout item).1 = .returned .E_ok ↔
        item.isSent = true ∧ (port.write host timeout item).2.1 = item.bytes) := by
  cases item with
  | integral width value =>
      obtain ⟨front, fine⟩ := @writeIntegral_spec host timeout port width.size value width.size_positive
      exact ⟨front, fine.trans (and_iff_right rfl).symm⟩
  | string content =>
      obtain ⟨front, fine⟩ := @writeString_spec host timeout port content fits
      exact ⟨front, by rw [Item.isSent, Bool.not_eq_true', List.isEmpty_eq_false_iff]; exact fine⟩

/-- What is read from the front of the bytes of an item and what follows is this item. -/
theorem read_spec (fits : item.Fits) (front : incoming <+: item.bytes ++ rest) {found : Item}
    (read : (port.read host timeout incoming item.kind).1 = some found) :
    found = item ∧ item.isSent = true ∧
      incoming = item.bytes ++ (port.read host timeout incoming item.kind).2.1 := by
  cases item with
  | integral width value =>
      have integer := @readIntegral_ok host timeout port incoming rest width.size value value.isLt front
      rw [Item.kind, Port.read] at read ⊢
      generalize port.readIntegral host timeout incoming width.size = first at integer read ⊢
      obtain ⟨ending, result, left, port⟩ := first
      dsimp only at integer read ⊢
      by_cases ok : ending = .returned .E_ok
      · obtain ⟨rfl, parts⟩ := integer ok
        rw [if_pos ok] at read
        cases read
        have same : Fin.ofNat (256 ^ width.size) value.val = value := Fin.ext (Nat.mod_eq_of_lt value.isLt)
        exact ⟨by rw [same], rfl, parts⟩
      · rw [if_neg ok] at read
        cases read
  | string content =>
      have string := @readString_ok host timeout port incoming rest content fits front
      rw [Item.kind, Port.read] at read ⊢
      generalize port.readString host timeout incoming = first at string read ⊢
      obtain ⟨ending, result, left, port⟩ := first
      dsimp only at string read ⊢
      by_cases ok : ending = .returned .E_ok
      · obtain ⟨filled, rfl, parts⟩ := string ok
        rw [if_pos ok] at read
        cases read
        exact ⟨rfl, by rw [Item.isSent, Bool.not_eq_true', List.isEmpty_eq_false_iff]; exact filled, parts⟩
      · rw [if_neg ok] at read
        cases read

theorem write_patient (patient : port.Patient .write timeout) (fits : item.Fits) (sent : item.isSent = true) :
    (port.write host timeout item).1 = .returned .E_ok ∧ (port.write host timeout item).2.2.Patient .write timeout := by
  cases item with
  | integral width value =>
      obtain ⟨whole, later⟩ := @writeIntegral_patient host timeout port width.size value patient width.size_positive
      exact ⟨(writeIntegral_spec width.size_positive).2.2 whole, later⟩
  | string content =>
      rw [Item.isSent, Bool.not_eq_true', List.isEmpty_eq_false_iff] at sent
      exact writeString_patient patient fits sent

theorem read_patient (patient : port.Patient .read timeout) (fits : item.Fits) (sent : item.isSent = true) :
    (port.read host timeout (item.bytes ++ rest) item.kind).1.isSome = true ∧
      (port.read host timeout (item.bytes ++ rest) item.kind).2.2.Patient .read timeout := by
  cases item with
  | integral width value =>
      obtain ⟨ok, later⟩ := @readIntegral_patient host timeout port rest width.size value patient width.size_positive
      rw [Item.kind, Item.bytes, Port.read]
      generalize port.readIntegral host timeout (networkBytes width.size value ++ rest) width.size = first at ok later ⊢
      obtain ⟨ending, result, left, port⟩ := first
      dsimp only at ok later ⊢
      exact ⟨by rw [if_pos ok]; rfl, later⟩
  | string content =>
      rw [Item.isSent, Bool.not_eq_true', List.isEmpty_eq_false_iff] at sent
      obtain ⟨ok, later⟩ := @readString_patient host timeout port rest content patient fits sent
      rw [Item.kind, Item.bytes, Port.read]
      generalize port.readString host timeout (networkBytes 4 content.length ++ content ++ rest) = first at ok later ⊢
      obtain ⟨ending, result, left, port⟩ := first
      dsimp only at ok later ⊢
      exact ⟨by rw [if_pos ok]; rfl, later⟩

end Port

section Sessions

variable {items : List Item}

/-- Whatever the calls of both sides do, and wherever the connection is cut, the items that the reader gets are the first
ones of those that the writer wrote without an error: no item is changed, left out or repeated. -/
theorem items_prefix (fits : ∀ item ∈ items, item.Fits) (here there : Host) (timeout wait : Int)
    (sender receiver : Port) {seen : List UInt8} (front : seen <+: (sender.writes here timeout items).2) :
    (receiver.reads there wait seen (items.map Item.kind)).1 <+: (sender.writes here timeout items).1 := by
  induction items generalizing sender receiver seen with
  | nil => exact List.prefix_rfl
  | cons item items inductionHypothesis =>
      have others := fun other member => fits other (List.mem_cons_of_mem item member)
      obtain ⟨begins, ends⟩ := @Port.write_spec here timeout sender item (fits item List.mem_cons_self)
      have reading (rest : List UInt8) (from' : seen <+: item.bytes ++ rest) := fun found =>
        @Port.read_spec there wait receiver item seen rest (fits item List.mem_cons_self) from' found
      rw [Port.writes] at front ⊢
      rw [List.map_cons, Port.reads]
      generalize sender.write here timeout item = written at begins ends front ⊢
      obtain ⟨ending, bytes, sender⟩ := written
      generalize receiver.read there wait seen item.kind = read at reading ⊢
      obtain ⟨found, left, receiver⟩ := read
      dsimp only at begins ends front reading ⊢
      cases found with
      | none => exact List.nil_prefix
      | some found =>
          dsimp only
          by_cases ok : ending = .returned .E_ok
          · rw [if_pos ok] at front ⊢
            obtain ⟨-, rfl⟩ := ends.1 ok
            dsimp only at front ⊢
            obtain ⟨rfl, -, rfl⟩ := reading _ front found rfl
            rw [List.prefix_append_right_inj] at front
            exact List.cons_prefix_cons.2 ⟨rfl, inductionHypothesis others sender receiver front⟩
          · rw [if_neg ok] at front ⊢
            dsimp only at front
            -- A whole item would be there although its write failed.
            have inside := front.trans begins
            obtain ⟨-, sent, same⟩ := reading [] (by rwa [List.append_nil]) found rfl
            have all : bytes = item.bytes := by
              refine begins.eq_of_length (Nat.le_antisymm begins.length_le ?_)
              have long := front.length_le
              rw [same, List.length_append] at long
              omega
            exact absurd (ends.2 ⟨sent, all⟩) ok

theorem reads_patient (fits : ∀ item ∈ items, item.Fits) (sent : ∀ item ∈ items, item.isSent = true) (here there : Host)
    (timeout wait : Int) {sender receiver : Port} (writes : sender.Patient .write timeout)
    (reads : receiver.Patient .read wait) :
    sender.writes here timeout items = (items, items.flatMap Item.bytes) ∧
      receiver.reads there wait (items.flatMap Item.bytes) (items.map Item.kind) = (items, []) := by
  induction items generalizing sender receiver with
  | nil => exact ⟨rfl, rfl⟩
  | cons item items inductionHypothesis =>
      have here' := fits item List.mem_cons_self
      have first := sent item List.mem_cons_self
      obtain ⟨ok, later⟩ := @Port.write_patient here timeout sender item writes here' first
      obtain ⟨some, behind⟩ := @Port.read_patient there wait receiver item (items.flatMap Item.bytes) reads here' first
      obtain ⟨-, whole⟩ := (Port.write_spec here').2.1 ok
      obtain ⟨found, read⟩ := Option.isSome_iff_exists.1 some
      obtain ⟨rfl, -, left⟩ := Port.read_spec here' List.prefix_rfl read
      rw [List.append_cancel_left_eq] at left
      have rest := fun (sender receiver : Port) writes reads => @inductionHypothesis
        (fun other member => fits other (List.mem_cons_of_mem _ member))
        (fun other member => sent other (List.mem_cons_of_mem _ member)) sender receiver writes reads
      rw [Port.writes, List.flatMap_cons, List.map_cons, Port.reads]
      generalize sender.write here timeout found = written at ok later whole ⊢
      obtain ⟨ending, bytes, sender⟩ := written
      generalize receiver.read there wait (found.bytes ++ items.flatMap Item.bytes) found.kind = taken
        at read behind left ⊢
      obtain ⟨item, after, receiver⟩ := taken
      dsimp only at ok later whole read behind left ⊢
      subst read left
      obtain ⟨wrote, got⟩ := rest sender receiver later behind
      rw [if_pos ok, wrote, whole]
      dsimp only
      rw [got]
      exact ⟨rfl, rfl⟩

/-- When signals, unready sockets and small portions are all that happens to the calls of both sides, every item is
written and read, and nothing is left on the connection. -/
theorem items_arrive (fits : ∀ item ∈ items, item.Fits) (sent : ∀ item ∈ items, item.isSent = true) (here there : Host)
    (timeout wait : Int) {sender receiver : Port} (writes : sender.isFair = true) (reads : receiver.isFair = true) :
    (sender.writes here timeout items).1 = items ∧
      receiver.reads there wait (sender.writes here timeout items).2 (items.map Item.kind) = (items, []) := by
  obtain ⟨wrote, got⟩ := reads_patient fits sent here there timeout wait (Port.isFair_attempts .write writes timeout)
    (Port.isFair_attempts .read reads wait)
  rw [wrote]
  exact ⟨rfl, got⟩

/-- A number and a name. -/
def entry : List Item := [.integral .four 7, .string (text "abc")]

theorem entry_fits : ∀ item ∈ entry, item.Fits := by
  intro item member
  simp only [entry, List.mem_cons, List.not_mem_nil, or_false] at member
  obtain rfl | rfl := member
  · trivial
  · show 3 < 2 ^ 31
    decide

/-- A socket that is interrupted, sends three bytes at most, and loses its peer. -/
def brokenSocket : Port :=
  .plain ⟨true, [⟨[.failed .EINTR, .ready], .moves 3⟩, ⟨[], .failed .EINTR⟩, ⟨[], .moves 3⟩, ⟨[], .failed .ECONNRESET⟩]⟩

/-- A TLS connection that waits for a record and then delivers two bytes. -/
def slowConnection : Port := .secure ⟨[⟨.failed (-1) .SSL_ERROR_WANT_READ false .success, [.ready]⟩, ⟨.moves 2, []⟩]⟩

theorem items_prefix_entry :
    (slowConnection.reads ⟨true⟩ (-1) (brokenSocket.writes ⟨false⟩ 1000 entry).2 (entry.map Item.kind)).1 <+:
      (brokenSocket.writes ⟨false⟩ 1000 entry).1 :=
  items_prefix entry_fits ⟨false⟩ ⟨true⟩ 1000 (-1) brokenSocket slowConnection List.prefix_rfl

theorem items_arrive_entry :
    (slowConnection.writes ⟨false⟩ 1000 entry).1 = entry ∧
      slowConnection.reads ⟨true⟩ (-1) (slowConnection.writes ⟨false⟩ 1000 entry).2 (entry.map Item.kind) = (entry, []) :=
  items_arrive entry_fits (by decide) ⟨false⟩ ⟨true⟩ 1000 (-1) rfl rfl

end Sessions

end SimpleNFast.Net.Ports
