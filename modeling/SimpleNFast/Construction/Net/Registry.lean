/-
This file models the handlers of `reactor.cpp` with their times: registrations, removals and whole rounds of the poll loop.
-/

import SimpleNFast.Construction.Net.Reactor

namespace SimpleNFast.Net

/-- This is `ev_info`: a timeout of zero is none, and then the expiration is the last point of time. -/
structure Registration where
  e : Event
  h : Nat
  timeout : Int
  exp : Option Int
  deriving DecidableEq, Repr

/-- The map of the handlers in the order of the sockets. -/
abbrev Registry := List (Int × List Registration)

/-- A handler that was called for a registration, with what it was told and whether it stays. -/
structure HandlerCall where
  fd : Int
  e : Event
  h : Nat
  told : Event
  again : Bool
  deriving DecidableEq, Repr

/-- What a round of the loop meets: the time, the results of the poll and the replies of the handlers. -/
structure Round where
  now : Int
  revents : Int → Revents
  again : Int → Event → Bool

namespace Registration

/-- This is the constructor at the time `now`. -/
def create (now : Int) (e : Event) (timeout : Int) (h : Nat) : Registration :=
  if timeout ≤ 0 then ⟨e, h, 0, none⟩ else ⟨e, h, timeout, some (now + timeout)⟩

/-- The event that a registered handler is told. -/
def told (round : Round) (fd : Int) (info : Registration) : Option Event :=
  let revents := round.revents fd
  if revents.nonzero then
    if revents.err then some .error
    else if revents.hup then some .hup
    else if revents.nval then some .invalid
    else if revents.rd ∧ info.e = .read ∨ revents.wr ∧ info.e = .write then some info.e
    else none
  else if info.exp.any (· < round.now) then some .timeout
  else none

/-- The expiration moves only after the registered event itself. -/
def rearm (now : Int) (event : Event) (info : Registration) : Registration :=
  if event = info.e ∧ info.timeout ≠ 0 then { info with exp := some (now + info.timeout) } else info

end Registration

namespace Registry

def assign (registry : Registry) (s : Int) (infos : List Registration) : Registry :=
  registry.filter (·.1 < s) ++ (s, infos) :: registry.filter (s < ·.1)

def erase (registry : Registry) (s : Int) : Registry := registry.filter (·.1 != s)

/-- The first registration of an event gets the new handler and keeps its times. -/
def replace (e : Event) (h : Nat) : List Registration → Option (List Registration)
  | [] => none
  | info :: rest =>
      if info.e = e then some ({ info with h := h } :: rest) else (replace e h rest).map (info :: ·)

/-- The change of `add_handler` under the lock. -/
def add (registry : Registry) (now s : Int) (e : Event) (h : Nat) (timeout : Int) : Registry :=
  match registry.lookup s with
  | some infos => registry.assign s ((replace e h infos).getD (infos ++ [.create now e timeout h]))
  | none => registry.assign s [.create now e timeout h]

/-- This is `add_handler`; wrong arguments throw before anything changes. -/
def addHandler (registry : Registry) (now s : Int) (e : Event) (h : Option Nat) (timeout : Int) : Option Registry :=
  match h with
  | some h => if s ≠ -1 ∧ (e = .read ∨ e = .write) then some (registry.add now s e h timeout) else none
  | none => none

/-- This is `remove_handler` of a socket and an event. -/
def removeHandler (registry : Registry) (s : Int) (e : Event) : Registry :=
  match registry.lookup s with
  | some infos =>
      let rest := infos.eraseP (·.e = e)
      if rest.isEmpty then registry.erase s else registry.assign s rest
  | none => registry

/-- This is `set_poll_vector`. -/
def pollVector (registry : Registry) : List Int :=
  (registry.filter fun entry => entry.2.any fun info => info.e = .read ∨ info.e = .write).map Prod.fst

/-- The loop over the registrations of one socket; a handler that does not stay is erased. -/
def visit (round : Round) (fd : Int) : List Registration → List Registration × List HandlerCall
  | [] => ([], [])
  | info :: rest =>
      let (infos, calls) := visit round fd rest
      match info.told round fd with
      | none => (info :: infos, calls)
      | some event =>
          let call : HandlerCall := ⟨fd, info.e, info.h, event, round.again fd info.e⟩
          if round.again fd info.e then (info.rearm round.now event :: infos, call :: calls) else (infos, call :: calls)

/-- The part of `process_poll_vector` for one socket. -/
def process (round : Round) (done : Registry × List HandlerCall) (fd : Int) : Registry × List HandlerCall :=
  match done.1.lookup fd with
  | none => done
  | some infos =>
      let (rest, calls) := visit round fd infos
      (if rest.isEmpty then done.1.erase fd else done.1.assign fd rest, done.2 ++ calls)

/-- A round of `start`; the vector is processed only when `poll` counts a socket with an event. -/
def round (registry : Registry) (round : Round) : Registry × List HandlerCall :=
  if registry.pollVector.any fun fd => (round.revents fd).nonzero then
    registry.pollVector.foldl (process round) (registry, [])
  else (registry, [])

end Registry

/-- The calls of the application and the rounds of the loop. -/
inductive Operation where
  | addHandler (now s : Int) (e : Event) (h : Option Nat) (timeout : Int)
  | removeHandlers (s : Int)
  | removeHandler (s : Int) (e : Event)
  | round (round : Round)

/-- What has happened to the registrations. -/
inductive Happening where
  | registered (now s : Int) (e : Event) (h : Nat) (timeout : Int)
  | removedAll (s : Int)
  | removed (s : Int) (e : Event)
  | called (now : Int) (call : HandlerCall)
  deriving DecidableEq, Repr

/-- The map with what has happened, the last happening first. -/
structure Reactor where
  registry : Registry
  history : List Happening

namespace Reactor

def start : Reactor := ⟨[], []⟩

def step (reactor : Reactor) : Operation → Reactor
  | .addHandler now s e h timeout =>
      match reactor.registry.addHandler now s e h timeout, h with
      | some registry, some h => ⟨registry, .registered now s e h timeout :: reactor.history⟩
      | _, _ => reactor
  | .removeHandlers s => ⟨reactor.registry.erase s, .removedAll s :: reactor.history⟩
  | .removeHandler s e => ⟨reactor.registry.removeHandler s e, .removed s e :: reactor.history⟩
  | .round round =>
      let (registry, calls) := reactor.registry.round round
      ⟨registry, (calls.map (.called round.now)).reverse ++ reactor.history⟩

end Reactor

/-- What the application may expect of a registration. -/
structure Expected where
  handler : Nat
  timeout : Int
  deadline : Option Int
  deriving DecidableEq, Repr

namespace Expected

/-- The deadline of a timeout that begins at `now`. -/
def deadlineAt (now timeout : Int) : Option Int := if timeout ≤ 0 then none else some (now + timeout)

/-- What one happening leaves of a registration. -/
def after (s : Int) (e : Event) : Happening → Option Expected → Option Expected
  | .registered now s' e' h timeout, before =>
      if s' = s ∧ e' = e then some ⟨h, max timeout 0, deadlineAt now timeout⟩ else before
  | .removedAll s', before => if s' = s then none else before
  | .removed s' e', before => if s' = s ∧ e' = e then none else before
  | .called now call, before =>
      if call.fd = s ∧ call.e = e then
        if !call.again then none
        else if call.told = e then before.map fun old => { old with deadline := deadlineAt now old.timeout }
        else before
      else before

/-- The last registration of a pair that was neither removed nor retired, with its deadline. -/
def current (s : Int) (e : Event) : List Happening → Option Expected
  | [] => none
  | last :: history => after s e last (current s e history)

end Expected

namespace Reactor

/-- The registration of a pair in the map. -/
def at' (registry : Registry) (s : Int) (e : Event) : Option Registration :=
  (registry.lookup s).bind fun infos => infos.find? (·.e = e)

/-- A handler is replaced only with its own timeout, while its expiration is not later than the new deadline; and when
no socket has an event, no expiration has passed. -/
def Meant (reactor : Reactor) : Operation → Prop
  | .addHandler now s e (some _) timeout => ∀ info, at' reactor.registry s e = some info →
      info.timeout = max timeout 0 ∧ ∀ exp, info.exp = some exp → exp ≤ now + timeout
  | .round round => (∃ fd ∈ reactor.registry.pollVector, (round.revents fd).nonzero = true) ∨
      ∀ s e expected deadline, Expected.current s e reactor.history = some expected →
        expected.deadline = some deadline → round.now ≤ deadline
  | _ => True

/-- The runs in which each step meets a condition. -/
inductive Run (meant : Reactor → Operation → Prop) : Reactor → Prop where
  | start : Run meant start
  | step {reactor : Reactor} (before : Run meant reactor) {operation : Operation} (fine : meant reactor operation) :
      Run meant (reactor.step operation)

end Reactor

end SimpleNFast.Net
