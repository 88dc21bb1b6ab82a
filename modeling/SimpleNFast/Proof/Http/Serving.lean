import SimpleNFast.Proof.Http.ResponseHead
import SimpleNFast.Proof.Json.RoundTrip

set_option maxRecDepth 100000

namespace SimpleNFast.Http

open Rdb (Code)

/-- A request and the response of its handler, each with its payload. -/
structure Exchange where
  request : Request
  sent : Payload
  response : Response
  reply : Payload

namespace Exchange

/-- The handler answers whatever arrives of the request, and no side asks to close the connection. -/
structure Served (router : Router) (exchange : Exchange) : Prop where
  request : exchange.request.Ready exchange.sent
  response : exchange.response.Ready exchange.reply
  handled : ∀ read, exchange.request.Arrives exchange.sent read → router.handle read = .ok exchange.response
  succeeds : exchange.response.status.isError = false
  asked : exchange.request.headers.closeConnection = .ok false
  answered : exchange.response.headers.closeConnection = .ok false

/-- The bytes of a response on the connection. -/
def answers (exchange : Exchange) : Text := exchange.response.str ++ exchange.reply.data

end Exchange

theorem Payload.seen_closeConnection (payload : Payload) (headers : Headers) :
    (payload.seen headers).closeConnection = headers.closeConnection := by
  rw [seen]
  split
  · rfl
  · rw [Headers.closeConnection, Headers.connection, Headers.find_update, if_neg (by decide)]
    rfl

section Rounds

variable {router : Router} {exchanges : List Exchange} (now : DateTime)

/-- A response that is no error is the only one of its round. -/
theorem Exchange.Served.round {exchange : Exchange} (served : exchange.Served router) {io : Nio} {read : Request}
    (received : Request.recvRequest io = .ok read) (arrives : exchange.request.Arrives exchange.sent read)
    (written : Text) :
    ∃ fuel, Round now router fuel io ⟨written, []⟩ read ⟨[exchange.response], none⟩
      ⟨written ++ exchange.answers, []⟩ := by
  obtain ⟨enough, run⟩ := served.response.sendResponse_ok
  have handled := served.handled read arrives
  have sent := run enough le_rfl written
  have close : Report.closeConnection read exchange.response = .ok false := by
    rw [Report.closeConnection, arrives.headers, Payload.seen_closeConnection, served.asked, served.answered]
    rfl
  refine ⟨enough, ?_, exchange.response, handled, served.succeeds, sent, close⟩
  rw [processRequest_handled now received handled, sent]
  simp only [close]
  rw [Report.conclude, served.succeeds, if_neg Bool.false_ne_true]
  rfl

end Rounds

section Errors

variable {now : DateTime} {status : StatusCode} {phrase message body : Text}

theorem DateTime.InRange.str_length_le (inRange : now.InRange) : now.str.length ≤ 80 := by
  have day := inRange.day
  have year := inRange.year
  have hour := inRange.hour
  have minute := inRange.minute
  have second := inRange.second
  refine Clock.str_length_le ⟨now, ?_⟩
  intro value member
  simp only [List.mem_cons, List.not_mem_nil, or_false] at member
  obtain rfl | rfl | rfl | rfl | rfl := member <;> omega

/-- The request cannot be read, or its handler throws. -/
def Raises (router : Router) (io : Nio) (fault : Fault) : Prop :=
  Request.recvRequest io = .error fault ∨
    ∃ request, Request.recvRequest io = .ok request ∧ router.handle request = .error fault

theorem Raises.processRequest {router : Router} {io : Nio} {fault : Fault} (raises : Raises router io fault)
    (now : DateTime) (fuel : Nat) (wire : Wire) :
    Report.processRequest now router fuel io wire = Report.recover now fuel [] fault wire := by
  obtain failed | ⟨request, received, failed⟩ := raises
  · simp only [Report.processRequest, failed]
  · simp only [Report.processRequest, received, failed]

end Errors

end SimpleNFast.Http
