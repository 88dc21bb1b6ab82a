/-
This file models `reactor.h` and `reactor.cpp`: the poll loop, the handlers and the lock between them, as steps of threads.
-/

import Mathlib.Data.Set.Basic
import Mathlib.Logic.Function.Basic
import Mathlib.Tactic

namespace SimpleNFast.Net

inductive Event where
  | read
  | write
  | error
  | hup
  | invalid
  | timeout
  deriving DecidableEq, Repr

/-- The bits of a poll result that the reactor looks at. -/
structure Revents where
  rd : Bool
  wr : Bool
  err : Bool
  hup : Bool
  nval : Bool
  deriving DecidableEq, Repr

/-- A registered event with the number of its handler; times are left out apart from their sign. -/
structure EvInfo where
  e : Event
  h : Nat
  timeout : Int
  deriving DecidableEq, Repr

/-- The map of the handlers in the order of the sockets. -/
abbrev Handlers := List (Int × List EvInfo)

/-- The public functions that take the lock. -/
inductive ReactorCall where
  | addHandler (s : Int) (e : Event) (h : Option Nat) (timeout : Int)
  | removeHandlers (s : Int)
  | removeHandler (s : Int) (e : Event)
  deriving DecidableEq, Repr

/-- What a handler or a task of the thread pool does. -/
inductive Action where
  | call (call : ReactorCall)
  | submit (task : List ReactorCall)
  deriving DecidableEq, Repr

/-- A handler acts, and it returns whether it stays registered. -/
structure Reply where
  actions : List Action
  again : Bool
  deriving DecidableEq, Repr

/-- Each handler has possible replies to each event of each socket. -/
structure Behaviour where
  replies : Nat → Int → Event → Set Reply
  returns : ∀ h s e, (replies h s e).Nonempty

namespace Handlers

/-- A new socket goes to its place in the map. -/
def assign (handlers : Handlers) (s : Int) (infos : List EvInfo) : Handlers :=
  handlers.filter (·.1 < s) ++ (s, infos) :: handlers.filter (s < ·.1)

def erase (handlers : Handlers) (s : Int) : Handlers := handlers.filter (·.1 != s)

/-- The first registration of an event gets the new handler. -/
def replace (e : Event) (h : Nat) : List EvInfo → Option (List EvInfo)
  | [] => none
  | info :: rest =>
      if info.e = e then some ({ info with h := h } :: rest) else (replace e h rest).map (info :: ·)

def add (handlers : Handlers) (s : Int) (e : Event) (h : Nat) (timeout : Int) : Handlers :=
  match handlers.lookup s with
  | some infos => handlers.assign s ((replace e h infos).getD (infos ++ [⟨e, h, timeout⟩]))
  | none => handlers.assign s [⟨e, h, timeout⟩]

def remove (handlers : Handlers) (s : Int) (e : Event) : Handlers :=
  match handlers.lookup s with
  | some infos =>
      let rest := infos.eraseP (·.e = e)
      if rest.isEmpty then handlers.erase s else handlers.assign s rest
  | none => handlers

end Handlers

namespace ReactorCall

/-- The call gets to the lock: its arguments are valid, and the reactor has not stopped. -/
def locks (stopped : Bool) : ReactorCall → Bool
  | .addHandler s e h _ => s != -1 && (e == .read || e == .write) && h.isSome && !stopped
  | .removeHandlers _ => true
  | .removeHandler _ _ => true

/-- The change of the map under the lock. -/
def change (handlers : Handlers) : ReactorCall → Handlers
  | .addHandler s e (some h) timeout => handlers.add s e h timeout
  | .addHandler _ _ none _ => handlers
  | .removeHandlers s => handlers.erase s
  | .removeHandler s e => handlers.remove s e

end ReactorCall

/-- The place of a dispatch: the socket, its result, the handler that is next, and the sockets behind it. -/
structure Visit where
  fd : Int
  revents : Revents
  next : Nat
  rest : List (Int × Revents)

/-- The places of the reactor thread. -/
inductive Place where
  | looping
  | collecting
  | polling
  | processing (results : List (Int × Revents))
  | visiting (visit : Visit)
  | handling (visit : Visit) (actions : List Action) (again : Bool)
  | calling (visit : Visit) (call : ReactorCall) (actions : List Action) (again : Bool)
  | ended

/-- The places of another thread. -/
inductive WorkerPlace where
  | idle
  | running (task : List ReactorCall)
  | waiting (call : ReactorCall) (task : List ReactorCall)
  | holding (call : ReactorCall) (task : List ReactorCall)

inductive ThreadId where
  | reactor
  | worker (number : Nat)
  deriving DecidableEq, Repr

/-- The members of the reactor, the queue of the thread pool and the places of the threads. -/
structure ReactorState where
  lock : Option ThreadId
  stopped : Bool
  handlers : Handlers
  polled : List Int
  queue : List (List ReactorCall)
  reactor : Place
  workers : Nat → WorkerPlace

namespace Revents

def nonzero (revents : Revents) : Bool := revents.rd || revents.wr || revents.err || revents.hup || revents.nval

/-- The event of a result for a registered one; `late` is whether its time has passed. -/
def dispatch (revents : Revents) (late : Bool) (info : EvInfo) : Option Event :=
  if revents.nonzero then
    if revents.err then some .error
    else if revents.hup then some .hup
    else if revents.nval then some .invalid
    else if revents.rd ∧ info.e = .read ∨ revents.wr ∧ info.e = .write then some info.e
    else none
  else if late ∧ 0 < info.timeout then some .timeout
  else none

end Revents

namespace ReactorState

def goto (state : ReactorState) (place : Place) : ReactorState := { state with reactor := place }

def move (state : ReactorState) (number : Nat) (place : WorkerPlace) : ReactorState :=
  { state with workers := Function.update state.workers number place }

/-- The registration that is next in a dispatch. -/
def nextInfo (state : ReactorState) (visit : Visit) : Option EvInfo :=
  (state.handlers.lookup visit.fd).bind fun infos => infos[visit.next]?

/-- The sockets with a registered event. -/
def pollVector (handlers : Handlers) : List Int :=
  (handlers.filter fun entry => entry.2.any fun info => info.e = .read ∨ info.e = .write).map Prod.fst

/-- A handler that does not stay is erased, and the next one takes its place. -/
def settle (state : ReactorState) (visit : Visit) (again : Bool) : ReactorState :=
  if again then state.goto (.visiting { visit with next := visit.next + 1 })
  else
    { state with
      handlers := state.handlers.assign visit.fd (((state.handlers.lookup visit.fd).getD []).eraseIdx visit.next)
      reactor := .visiting visit }

/-- The end of a dispatch: a socket without handlers leaves the map. -/
def finish (state : ReactorState) (visit : Visit) : ReactorState :=
  { state with
    handlers := if state.handlers.lookup visit.fd = some [] then state.handlers.erase visit.fd else state.handlers
    lock := none
    reactor := .processing visit.rest }

end ReactorState

/-- The steps of the threads; a step that takes the lock needs it free. -/
inductive ReactorStep (behaviour : Behaviour) : ThreadId → ReactorState → ReactorState → Prop where
  | stop {state : ReactorState} (at' : state.reactor = .looping) (stopped : state.stopped = true) :
      ReactorStep behaviour .reactor state (state.goto .ended)
  | lockMap {state : ReactorState} (at' : state.reactor = .looping) (running : state.stopped = false)
      (free : state.lock = none) :
      ReactorStep behaviour .reactor state { state with lock := some .reactor, reactor := .collecting }
  | collect {state : ReactorState} (at' : state.reactor = .collecting) :
      ReactorStep behaviour .reactor state { state with
        polled := ReactorState.pollVector state.handlers
        lock := none
        reactor := .polling }
  | pollFailed {state : ReactorState} (at' : state.reactor = .polling) :
      ReactorStep behaviour .reactor state (state.goto .ended)
  | pollNone {state : ReactorState} (at' : state.reactor = .polling) :
      ReactorStep behaviour .reactor state (state.goto .looping)
  | pollSome {state : ReactorState} (at' : state.reactor = .polling) (result : Int → Revents) :
      ReactorStep behaviour .reactor state
        (state.goto (.processing (state.polled.map fun fd => (fd, result fd))))
  | processed {state : ReactorState} (at' : state.reactor = .processing []) :
      ReactorStep behaviour .reactor state (state.goto .looping)
  | lockSocket {state : ReactorState} {fd : Int} {revents : Revents} {rest : List (Int × Revents)}
      (at' : state.reactor = .processing ((fd, revents) :: rest)) (free : state.lock = none) :
      ReactorStep behaviour .reactor state
        { state with lock := some .reactor, reactor := .visiting ⟨fd, revents, 0, rest⟩ }
  | finish {state : ReactorState} {visit : Visit} (at' : state.reactor = .visiting visit)
      (none : state.nextInfo visit = none) :
      ReactorStep behaviour .reactor state (state.finish visit)
  | pass {state : ReactorState} {visit : Visit} {info : EvInfo} (at' : state.reactor = .visiting visit)
      (next : state.nextInfo visit = some info) (late : Bool) (none : visit.revents.dispatch late info = none) :
      ReactorStep behaviour .reactor state (state.settle visit true)
  | handle {state : ReactorState} {visit : Visit} {info : EvInfo} {event : Event} {reply : Reply}
      (at' : state.reactor = .visiting visit) (next : state.nextInfo visit = some info) (late : Bool)
      (dispatched : visit.revents.dispatch late info = some event)
      (replied : reply ∈ behaviour.replies info.h visit.fd event) :
      ReactorStep behaviour .reactor state (state.goto (.handling visit reply.actions reply.again))
  | submit {state : ReactorState} {visit : Visit} {task : List ReactorCall} {actions : List Action} {again : Bool}
      (at' : state.reactor = .handling visit (.submit task :: actions) again) :
      ReactorStep behaviour .reactor state
        { state with queue := state.queue ++ [task], reactor := .handling visit actions again }
  | refused {state : ReactorState} {visit : Visit} {call : ReactorCall} {actions : List Action} {again : Bool}
      (at' : state.reactor = .handling visit (.call call :: actions) again) (refuses : call.locks state.stopped = false) :
      ReactorStep behaviour .reactor state (state.goto (.handling visit actions again))
  | thrown {state : ReactorState} {visit : Visit} {call : ReactorCall} {actions : List Action} {again : Bool}
      (at' : state.reactor = .handling visit (.call call :: actions) again) (refuses : call.locks state.stopped = false) :
      ReactorStep behaviour .reactor state { state with lock := none, reactor := .ended }
  | call {state : ReactorState} {visit : Visit} {call : ReactorCall} {actions : List Action} {again : Bool}
      (at' : state.reactor = .handling visit (.call call :: actions) again) (locks : call.locks state.stopped = true) :
      ReactorStep behaviour .reactor state (state.goto (.calling visit call actions again))
  | called {state : ReactorState} {visit : Visit} {call : ReactorCall} {actions : List Action} {again : Bool}
      (at' : state.reactor = .calling visit call actions again) (free : state.lock = none) :
      ReactorStep behaviour .reactor state
        { state with handlers := call.change state.handlers, reactor := .handling visit actions again }
  | handled {state : ReactorState} {visit : Visit} {again : Bool} (at' : state.reactor = .handling visit [] again) :
      ReactorStep behaviour .reactor state (state.settle visit again)
  | take {state : ReactorState} {number : Nat} {task : List ReactorCall} {queue : List (List ReactorCall)}
      (at' : state.workers number = .idle) (queued : state.queue = task :: queue) :
      ReactorStep behaviour (.worker number) state ({ state with queue := queue }.move number (.running task))
  | begin {state : ReactorState} {number : Nat} {call : ReactorCall} {task : List ReactorCall}
      (at' : state.workers number = .running (call :: task)) (locks : call.locks state.stopped = true) :
      ReactorStep behaviour (.worker number) state (state.move number (.waiting call task))
  | skip {state : ReactorState} {number : Nat} {call : ReactorCall} {task : List ReactorCall}
      (at' : state.workers number = .running (call :: task)) (refuses : call.locks state.stopped = false) :
      ReactorStep behaviour (.worker number) state (state.move number (.running task))
  | acquire {state : ReactorState} {number : Nat} {call : ReactorCall} {task : List ReactorCall}
      (at' : state.workers number = .waiting call task) (free : state.lock = none) :
      ReactorStep behaviour (.worker number) state
        ({ state with lock := some (.worker number) }.move number (.holding call task))
  | release {state : ReactorState} {number : Nat} {call : ReactorCall} {task : List ReactorCall}
      (at' : state.workers number = .holding call task) :
      ReactorStep behaviour (.worker number) state
        ({ state with handlers := call.change state.handlers, lock := none }.move number (.running task))
  | done {state : ReactorState} {number : Nat} (at' : state.workers number = .running []) :
      ReactorStep behaviour (.worker number) state (state.move number .idle)
  | stopCall {state : ReactorState} {number : Nat} (at' : state.workers number = .idle) :
      ReactorStep behaviour (.worker number) state { state with stopped := true }

/-- The loop begins with any handlers, any tasks and any running threads; nobody holds the lock. -/
structure ReactorState.Initial (state : ReactorState) : Prop where
  lock : state.lock = none
  reactor : state.reactor = .looping
  workers : ∀ number, state.workers number = .idle ∨ ∃ task, state.workers number = .running task

/-- The states of the runs in which every state before a step is allowed. -/
inductive ReactorRun (behaviour : Behaviour) (allowed : ReactorState → Prop) : ReactorState → Prop where
  | initial {state : ReactorState} (initial : state.Initial) : ReactorRun behaviour allowed state
  | step {state later : ReactorState} (before : ReactorRun behaviour allowed state) (meant : allowed state)
      {tid : ThreadId} (step : ReactorStep behaviour tid state later) : ReactorRun behaviour allowed later

/-- The reactor thread is at a place where it takes the lock. -/
def Place.waits (stopped : Bool) : Place → Bool
  | .looping => !stopped
  | .processing (_ :: _) => true
  | .calling _ _ _ _ => true
  | _ => false

/-- The reactor thread waits for the lock that it holds. -/
def SelfDeadlock (state : ReactorState) : Prop :=
  state.reactor.waits state.stopped = true ∧ state.lock = some .reactor

/-- The reactor thread has ended or has a next step, or it waits for a thread whose next step releases the lock. -/
def MakesNextStep (behaviour : Behaviour) (state : ReactorState) : Prop :=
  state.reactor = .ended ∨ (∃ later, ReactorStep behaviour .reactor state later) ∨
    ∃ number later, state.lock = some (.worker number) ∧ ReactorStep behaviour (.worker number) state later ∧
      later.lock = none

/-- No handler that the reactor has called is about to call a function of the reactor that takes the lock. -/
def CallsNothing (state : ReactorState) : Prop :=
  ∀ visit call actions again, state.reactor = .handling visit (.call call :: actions) again →
    call.locks state.stopped = false

/-- The handlers of the server: the listening sockets, and the connections that wait for a request. -/
inductive ServerHandler where
  | accept (sock : Int) (secured : Bool)
  | read (sock : Int) (shuttingDown : Bool)
  deriving DecidableEq, Repr

namespace ServerHandler

/-- The tasks `process_ssl_handshake` and `process_request` may register the read handler of a connection. -/
def registers (sock : Int) (reader : Nat) (fine : Bool) : List ReactorCall :=
  if fine then [.addHandler sock .read (some reader) 0] else []

/-- The calls of `operator()`; the accepted socket and the outcome of the task come from outside. -/
def reply (s : Int) (e : Event) (accepted : Option Int) (reader : Nat) (fine : Bool) : ServerHandler → Reply
  | .accept sock secured =>
      if sock ≠ s ∨ e ≠ .read then ⟨[], false⟩
      else
        match accepted with
        | none => ⟨[], false⟩
        | some nsock =>
            if secured then ⟨[.submit (registers nsock reader fine)], true⟩
            else ⟨[.call (.addHandler nsock .read (some reader) 0)], true⟩
  | .read sock shuttingDown =>
      if shuttingDown ∨ sock ≠ s ∨ e ≠ .read then ⟨[], false⟩
      else ⟨[.submit (registers sock reader fine)], false⟩

/-- The handlers of a server under their numbers. -/
def behaviour (handlers : Nat → ServerHandler) : Behaviour where
  replies h s e := { reply | ∃ accepted reader fine, reply = (handlers h).reply s e accepted reader fine }
  returns _ _ _ := ⟨_, none, 0, false, rfl⟩

end ServerHandler

end SimpleNFast.Net
