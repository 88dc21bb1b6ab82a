/-
This file models `thrdpool.h`: the synchronized queue and the workers of a thread pool, as steps of threads.
-/

import SimpleNFast.Library.Crew

namespace SimpleNFast.Com

/-- The members of `sync_queue` that its lock protects. -/
structure SyncQueue (Elem : Type) where
  queue : List Elem
  valid : Bool
  waiting : Nat
  deriving DecidableEq, Repr

namespace SyncQueue

variable {Elem : Type}

def create : SyncQueue Elem := ⟨[], true, 0⟩

/-- An invalid queue drops the element. -/
def put (queue : SyncQueue Elem) (elem : Elem) : SyncQueue Elem :=
  if queue.valid then { queue with queue := queue.queue ++ [elem] } else queue

/-- `get` counts its thread before the wait. -/
def enter (queue : SyncQueue Elem) : SyncQueue Elem := { queue with waiting := queue.waiting + 1 }

/-- The predicate that ends the wait. -/
def ready (queue : SyncQueue Elem) : Bool := !(queue.valid && queue.queue.isEmpty)

/-- The part of `get` behind the wait. -/
def leave (queue : SyncQueue Elem) : Option Elem × SyncQueue Elem :=
  let queue := { queue with waiting := queue.waiting - 1 }
  match queue.valid, queue.queue with
  | true, elem :: rest => (some elem, { queue with queue := rest })
  | _, _ => (none, queue)

def invalidate (queue : SyncQueue Elem) : SyncQueue Elem := { queue with queue := [], valid := false }

end SyncQueue

/-- The places of a worker: the loop of the thread pool and the wait of `get`. -/
inductive WorkerPlace (Elem : Type) where
  | looping
  | getting
  | asleep
  | woken
  | running (fcn : Elem)
  | ended
  deriving DecidableEq, Repr

namespace WorkerPlace

variable {Elem : Type}

/-- The worker is inside the wait. -/
def waits : WorkerPlace Elem → Bool
  | .asleep => true
  | .woken => true
  | _ => false

/-- The worker sleeps, and no wake-up is on its way to it. -/
def sleeps : WorkerPlace Elem → Bool
  | .asleep => true
  | _ => false

/-- A notification or a spurious wake-up is on its way to the worker. -/
def wakes : WorkerPlace Elem → Bool
  | .woken => true
  | _ => false

/-- The effect of `notify_all` on a worker. -/
def notified (place : WorkerPlace Elem) : WorkerPlace Elem := if place.sleeps then .woken else place

/-- A worker runs what `get` returned, and without an element it goes on with its loop. -/
def afterGet : Option Elem → WorkerPlace Elem
  | some fcn => .running fcn
  | none => .looping

end WorkerPlace

/-- The queue, the flag of the pool and the places of its workers. -/
structure PoolState (Worker Elem : Type) where
  queue : SyncQueue Elem
  done : Bool
  workers : Worker → WorkerPlace Elem

/-- What a step shows of the queue. -/
inductive PoolEvent (Worker Elem : Type) where
  | put (elem : Elem)
  | got (worker : Worker) (result : Option Elem)
  | invalidated (discarded : List Elem)
  | internal

section Steps

variable {Worker Elem : Type} [DecidableEq Worker]

def PoolState.move (state : PoolState Worker Elem) (worker : Worker) (place : WorkerPlace Elem) :
    PoolState Worker Elem :=
  { state with workers := Function.update state.workers worker place }

/-- A worker goes through the end of `get`. -/
def PoolState.finishGet (state : PoolState Worker Elem) (worker : Worker) (queue : SyncQueue Elem) :
    PoolState Worker Elem :=
  { state with queue := queue.leave.2 }.move worker (.afterGet queue.leave.1)

/-- The steps of the threads; each section under the lock of the queue is one step. -/
inductive PoolStep : PoolState Worker Elem → PoolEvent Worker Elem → PoolState Worker Elem → Prop where
  | putNotify {state : PoolState Worker Elem} (elem : Elem) {worker : Worker} (valid : state.queue.valid = true)
      (at' : state.workers worker = .asleep) :
      PoolStep state (.put elem) ({ state with queue := state.queue.put elem }.move worker .woken)
  | putUnheard {state : PoolState Worker Elem} (elem : Elem) (valid : state.queue.valid = true)
      (nobody : ∀ worker, state.workers worker ≠ .asleep) :
      PoolStep state (.put elem) { state with queue := state.queue.put elem }
  | putDropped {state : PoolState Worker Elem} (elem : Elem) (invalid : state.queue.valid = false) :
      PoolStep state (.put elem) { state with queue := state.queue.put elem }
  | pass {state : PoolState Worker Elem} {worker : Worker} (at' : state.workers worker = .getting)
      (ready : state.queue.enter.ready = true) :
      PoolStep state (.got worker state.queue.enter.leave.1) (state.finishGet worker state.queue.enter)
  | sleep {state : PoolState Worker Elem} {worker : Worker} (at' : state.workers worker = .getting)
      (blocked : state.queue.enter.ready = false) :
      PoolStep state .internal ({ state with queue := state.queue.enter }.move worker .asleep)
  | wake {state : PoolState Worker Elem} {worker : Worker} (at' : state.workers worker = .asleep) :
      PoolStep state .internal (state.move worker .woken)
  | resume {state : PoolState Worker Elem} {worker : Worker} (at' : state.workers worker = .woken)
      (ready : state.queue.ready = true) :
      PoolStep state (.got worker state.queue.leave.1) (state.finishGet worker state.queue)
  | sleepAgain {state : PoolState Worker Elem} {worker : Worker} (at' : state.workers worker = .woken)
      (blocked : state.queue.ready = false) :
      PoolStep state .internal (state.move worker .asleep)
  | invalidate {state : PoolState Worker Elem} :
      PoolStep state (.invalidated state.queue.queue)
        { state with
          queue := state.queue.invalidate
          workers := fun worker => (state.workers worker).notified }
  | loop {state : PoolState Worker Elem} {worker : Worker} (at' : state.workers worker = .looping)
      (goesOn : state.done = false) :
      PoolStep state .internal (state.move worker .getting)
  | leaveLoop {state : PoolState Worker Elem} {worker : Worker} (at' : state.workers worker = .looping)
      (stops : state.done = true) :
      PoolStep state .internal (state.move worker .ended)
  | ran {state : PoolState Worker Elem} {worker : Worker} {fcn : Elem} (at' : state.workers worker = .running fcn) :
      PoolStep state .internal (state.move worker .looping)
  | stop {state : PoolState Worker Elem} :
      PoolStep state .internal { state with done := true }

/-- The runs of a new pool with the events so far. -/
inductive PoolRun : List (PoolEvent Worker Elem) → PoolState Worker Elem → Prop where
  | start : PoolRun [] ⟨.create, false, fun _ => .looping⟩
  | step {events : List (PoolEvent Worker Elem)} {event : PoolEvent Worker Elem} {state later : PoolState Worker Elem}
      (before : PoolRun events state) (step : PoolStep state event later) : PoolRun (events ++ [event]) later

end Steps

namespace PoolEvent

variable {Worker Elem : Type}

/-- The elements that were put while the queue was valid. -/
def accepted : List (PoolEvent Worker Elem) → List Elem
  | [] => []
  | .put elem :: events => elem :: accepted events
  | .invalidated _ :: _ => []
  | _ :: events => accepted events

/-- The elements that `get` returned with true, in order. -/
def returned (events : List (PoolEvent Worker Elem)) : List Elem :=
  events.filterMap fun event => match event with
    | .got _ result => result
    | _ => none

/-- The elements that `invalidate` discarded. -/
def discarded (events : List (PoolEvent Worker Elem)) : List Elem :=
  events.flatMap fun event => match event with
    | .invalidated elems => elems
    | _ => []

end PoolEvent

/-- What the work queue promises after the events of a run. -/
structure PoolState.Sound {Worker Elem : Type} [Fintype Worker] (events : List (PoolEvent Worker Elem))
    (state : PoolState Worker Elem) : Prop where
  /-- Each element was returned, was discarded or is in the queue, in the order of the puts. -/
  once : PoolEvent.accepted events =
    PoolEvent.returned events ++ (PoolEvent.discarded events ++ state.queue.queue)
  /-- An invalid queue holds nothing back. -/
  drained : state.queue.valid = false → state.queue.queue = []
  /-- No `get` returns true after `invalidate`. -/
  ended : ∀ before elems after, events = before ++ .invalidated elems :: after → PoolEvent.returned after = []
  /-- `m_waiting` counts the threads inside the wait. -/
  counted : state.queue.waiting = Crew.count WorkerPlace.waits state.workers
  /-- Elements never lie in a valid queue while all workers sleep. -/
  served : state.queue.valid = true → state.queue.queue ≠ [] → ∀ worker, state.workers worker = .asleep →
    ∃ other, state.workers other ≠ .asleep
  /-- Nobody sleeps at an invalid queue. -/
  released : state.queue.valid = false → ∀ worker, state.workers worker ≠ .asleep

end SimpleNFast.Com
