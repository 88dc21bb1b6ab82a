import SimpleNFast.Construction.Com.WorkQueue

namespace SimpleNFast.Com

namespace SyncQueue

variable {Elem : Type} (queue : SyncQueue Elem)

@[simp] theorem enter_queue : queue.enter.queue = queue.queue := rfl

@[simp] theorem enter_valid : queue.enter.valid = queue.valid := rfl

@[simp] theorem enter_waiting : queue.enter.waiting = queue.waiting + 1 := rfl

@[simp] theorem invalidate_queue : queue.invalidate.queue = [] := rfl

@[simp] theorem invalidate_valid : queue.invalidate.valid = false := rfl

@[simp] theorem invalidate_waiting : queue.invalidate.waiting = queue.waiting := rfl

@[simp] theorem put_valid (elem : Elem) : (queue.put elem).valid = queue.valid := by
  unfold put
  split <;> rfl

@[simp] theorem put_waiting (elem : Elem) : (queue.put elem).waiting = queue.waiting := by
  unfold put
  split <;> rfl

theorem put_queue (elem : Elem) :
    (queue.put elem).queue = queue.queue ++ if queue.valid then [elem] else [] := by
  unfold put
  split <;> simp

/-- `get` decrements the counter and takes the first element of a valid queue. -/
theorem leave_eq : queue.leave =
    if queue.valid then (queue.queue.head?, ⟨queue.queue.tail, queue.valid, queue.waiting - 1⟩)
    else (none, ⟨queue.queue, queue.valid, queue.waiting - 1⟩) := by
  obtain ⟨elems, valid, waiting⟩ := queue
  cases valid with
  | false => rfl
  | true => cases elems <;> rfl

@[simp] theorem leave_valid : queue.leave.2.valid = queue.valid := by
  rw [leave_eq]
  split <;> rfl

@[simp] theorem leave_waiting : queue.leave.2.waiting = queue.waiting - 1 := by
  rw [leave_eq]
  split <;> rfl

/-- The element that `get` returns is the first one, and the others stay. -/
theorem leave_queue : queue.leave.1.toList ++ queue.leave.2.queue = queue.queue := by
  rw [leave_eq]
  split
  · cases queue.queue <;> rfl
  · rfl

/-- An invalid queue returns nothing. -/
theorem leave_invalid (invalid : queue.valid = false) : queue.leave.1 = none := by
  rw [leave_eq, invalid]
  rfl

theorem ready_eq_false : queue.ready = false ↔ queue.valid = true ∧ queue.queue = [] := by
  simp [ready]

/-- A `get` that need not wait takes an element of a valid queue. -/
theorem leave_length (valid : queue.valid = true) (ready : queue.ready = true) :
    queue.leave.2.queue.length + 1 = queue.queue.length := by
  cases elems : queue.queue with
  | nil => simp [SyncQueue.ready, valid, elems] at ready
  | cons elem rest => simp [leave_eq, valid, elems]

end SyncQueue

namespace PoolEvent

variable {Worker Elem : Type}

def invalidates : PoolEvent Worker Elem → Bool
  | .invalidated _ => true
  | _ => false

theorem accepted_append (events later : List (PoolEvent Worker Elem)) :
    accepted (events ++ later) =
      accepted events ++ if events.any invalidates then [] else accepted later := by
  induction events with
  | nil => rfl
  | cons event events inductionHypothesis =>
      cases event with
      | put elem => simp [accepted, invalidates, inductionHypothesis]
      | got worker result => simp [accepted, invalidates, inductionHypothesis]
      | invalidated elems => simp [accepted, invalidates]
      | internal => simp [accepted, invalidates, inductionHypothesis]

theorem returned_append (events later : List (PoolEvent Worker Elem)) :
    returned (events ++ later) = returned events ++ returned later :=
  List.filterMap_append

theorem discarded_append (events later : List (PoolEvent Worker Elem)) :
    discarded (events ++ later) = discarded events ++ discarded later :=
  List.flatMap_append

end PoolEvent

section Runs

variable {Worker Elem : Type} {events : List (PoolEvent Worker Elem)} {event : PoolEvent Worker Elem}
  {state later : PoolState Worker Elem}

open PoolEvent

/-- The events of a run account for the elements of the queue. -/
structure Accounted (events : List (PoolEvent Worker Elem)) (queue : SyncQueue Elem) : Prop where
  closes : queue.valid = !events.any invalidates
  once : accepted events = returned events ++ (discarded events ++ queue.queue)
  kept : queue.valid = true → discarded events = []
  drained : queue.valid = false → queue.queue = []
  ended : ∀ before elems after, events = before ++ .invalidated elems :: after → returned after = []

namespace Accounted

variable {queue : SyncQueue Elem}

theorem create : Accounted ([] : List (PoolEvent Worker Elem)) .create where
  closes := rfl
  once := rfl
  kept _ := rfl
  drained invalid := by cases invalid
  ended before elems after events := by simp at events

/-- After an `invalidate`, the events go on without a successful `get`. -/
theorem ended_append (accounted : Accounted events queue) (silent : queue.valid = false → returned [event] = [])
    (before : List (PoolEvent Worker Elem)) (elems : List Elem) (after : List (PoolEvent Worker Elem))
    (split : events ++ [event] = before ++ .invalidated elems :: after) : returned after = [] := by
  cases after using List.reverseRecOn with
  | nil => rfl
  | append_singleton after last _ =>
      have parts : events = before ++ .invalidated elems :: after ∧ event = last := by
        rw [← List.cons_append, ← List.append_assoc] at split
        exact List.append_inj' split rfl |>.imp_right fun same => by simpa using same
      have invalid : queue.valid = false := by
        rw [accounted.closes, parts.1]
        simp [invalidates]
      rw [returned_append, accounted.ended before elems after parts.1, ← parts.2, silent invalid]
      rfl

/-- The elements stay as they are. -/
theorem internal {next : SyncQueue Elem} (accounted : Accounted events queue) (valid : next.valid = queue.valid)
    (elems : next.queue = queue.queue) : Accounted (events ++ [.internal]) next where
  closes := by simp [valid, accounted.closes, invalidates]
  once := by
    rw [accepted_append, returned_append, discarded_append, elems, accounted.once]
    simp [accepted, returned, discarded]
  kept stays := by
    rw [discarded_append, accounted.kept (valid ▸ stays)]
    rfl
  drained invalid := by rw [elems, accounted.drained (valid ▸ invalid)]
  ended := accounted.ended_append fun _ => rfl

theorem put (accounted : Accounted events queue) (elem : Elem) :
    Accounted (events ++ [.put elem]) (queue.put elem) where
  closes := by simp [accounted.closes, invalidates]
  once := by
    rw [accepted_append, returned_append, discarded_append, accounted.once, SyncQueue.put_queue, accounted.closes]
    cases events.any invalidates <;> simp [accepted, returned, discarded]
  kept valid := by
    rw [discarded_append, accounted.kept (by simpa using valid)]
    rfl
  drained invalid := by
    rw [SyncQueue.put_valid] at invalid
    rw [SyncQueue.put_queue, accounted.drained invalid, invalid]
    rfl
  ended := accounted.ended_append fun _ => rfl

theorem invalidate (accounted : Accounted events queue) :
    Accounted (events ++ [.invalidated queue.queue]) queue.invalidate where
  closes := by simp [invalidates]
  once := by
    rw [accepted_append, returned_append, discarded_append, accounted.once]
    simp [accepted, returned, discarded]
  kept valid := by cases valid
  drained _ := rfl
  ended := accounted.ended_append fun _ => rfl

/-- The first element of the queue goes to the thread that leaves `get`. -/
theorem leave (accounted : Accounted events queue) (worker : Worker) :
    Accounted (events ++ [.got worker queue.leave.1]) queue.leave.2 where
  closes := by simp [accounted.closes, invalidates]
  once := by
    have returned_one : returned [PoolEvent.got worker queue.leave.1] = queue.leave.1.toList := by
      cases result : queue.leave.1 <;> simp [returned]
    rw [accepted_append, returned_append, discarded_append, accounted.once, returned_one]
    cases valid : queue.valid with
    | true =>
        rw [accounted.kept valid, ← queue.leave_queue]
        simp [accepted, discarded]
    | false =>
        have empty := queue.leave_queue
        rw [accounted.drained valid] at empty
        rw [queue.leave_invalid valid] at empty ⊢
        rw [accounted.drained valid, show queue.leave.2.queue = [] from empty]
        simp [accepted, discarded]
  kept valid := by
    rw [discarded_append, accounted.kept (by simpa using valid)]
    rfl
  drained invalid := by
    rw [SyncQueue.leave_valid] at invalid
    have empty := queue.leave_queue
    rw [accounted.drained invalid] at empty
    exact (List.append_eq_nil_iff.1 empty).2
  ended := accounted.ended_append fun invalid => by
    rw [queue.leave_invalid invalid]
    rfl

theorem enter (accounted : Accounted events queue) : Accounted events queue.enter :=
  ⟨accounted.closes, accounted.once, accounted.kept, accounted.drained, accounted.ended⟩

variable [DecidableEq Worker]

theorem step (accounted : Accounted events state.queue) (step : PoolStep state event later) :
    Accounted (events ++ [event]) later.queue := by
  cases step with
  | putNotify elem _ _ => exact accounted.put elem
  | putUnheard elem _ _ => exact accounted.put elem
  | putDropped elem _ => exact accounted.put elem
  | pass _ _ => exact accounted.enter.leave _
  | sleep _ _ => exact accounted.internal rfl rfl
  | resume _ _ => exact accounted.leave _
  | invalidate => exact accounted.invalidate
  | wake _ | sleepAgain _ _ | loop _ _ | leaveLoop _ _ | ran _ | stop => exact accounted.internal rfl rfl

theorem of_run (run : PoolRun events state) : Accounted events state.queue := by
  induction run with
  | start => exact create
  | step _ step accounted => exact accounted.step step

end Accounted

namespace WorkerPlace

@[simp] theorem waits_woken : (woken : WorkerPlace Elem).waits = true := rfl

@[simp] theorem sleeps_woken : (woken : WorkerPlace Elem).sleeps = false := rfl

@[simp] theorem wakes_woken : (woken : WorkerPlace Elem).wakes = true := rfl

@[simp] theorem waits_afterGet (result : Option Elem) : (afterGet result).waits = false := by
  cases result <;> rfl

@[simp] theorem sleeps_afterGet (result : Option Elem) : (afterGet result).sleeps = false := by
  cases result <;> rfl

@[simp] theorem wakes_afterGet (result : Option Elem) : (afterGet result).wakes = false := by
  cases result <;> rfl

@[simp] theorem waits_notified (place : WorkerPlace Elem) : place.notified.waits = place.waits := by
  cases place <;> rfl

@[simp] theorem sleeps_notified (place : WorkerPlace Elem) : place.notified.sleeps = false := by
  cases place <;> rfl

theorem sleeps_eq_true {place : WorkerPlace Elem} : place.sleeps = true ↔ place = .asleep := by
  cases place <;> simp [sleeps]

end WorkerPlace

variable [Fintype Worker]

/-- The counter is right, and while a worker sleeps each element has a wake-up of its own on the way. -/
structure Manned (state : PoolState Worker Elem) : Prop where
  counted : state.queue.waiting = Crew.count WorkerPlace.waits state.workers
  matched : state.queue.valid = true → 0 < Crew.count WorkerPlace.sleeps state.workers →
    state.queue.queue.length ≤ Crew.count WorkerPlace.wakes state.workers
  released : state.queue.valid = false → Crew.count WorkerPlace.sleeps state.workers = 0

namespace Manned

variable {worker : Worker}

theorem create : Manned (⟨.create, false, fun _ => .looping⟩ : PoolState Worker Elem) where
  counted := (Crew.count_eq_zero fun _ => rfl).symm
  matched _ _ := Nat.zero_le _
  released _ := Crew.count_eq_zero fun _ => rfl

variable [DecidableEq Worker]

/-- A worker that moves changes the counts of its old and its new place. -/
theorem count_move {old : WorkerPlace Elem} (at' : state.workers worker = old) (place : WorkerPlace Elem)
    (kind : WorkerPlace Elem → Bool) :
    Crew.count kind (Function.update state.workers worker place) + (if kind old then 1 else 0) =
      Crew.count kind state.workers + (if kind place then 1 else 0) := by
  rw [← at']
  exact Crew.count_update kind state.workers worker place

/-- A worker outside the wait stays outside, and the queue does not grow. -/
theorem outside (manned : Manned state) {old place : WorkerPlace Elem} {queue : SyncQueue Elem}
    (at' : state.workers worker = old) (left : old.waits = false) (stays : place.waits = false)
    (valid : queue.valid = state.queue.valid) (waiting : queue.waiting = state.queue.waiting)
    (shorter : queue.queue.length ≤ state.queue.queue.length) :
    Manned ({ state with queue := queue }.move worker place) := by
  have others : ∀ place : WorkerPlace Elem, place.waits = false → place.sleeps = false ∧ place.wakes = false := by
    intro place outside
    cases place <;> first | exact ⟨rfl, rfl⟩ | cases outside
  have waits := count_move at' place WorkerPlace.waits
  have sleeps := count_move at' place WorkerPlace.sleeps
  have wakes := count_move at' place WorkerPlace.wakes
  simp only [left, (others old left).1, (others old left).2, stays, (others place stays).1, (others place stays).2,
    Nat.add_right_cancel_iff] at waits sleeps wakes
  constructor
  · show queue.waiting = Crew.count _ (Function.update state.workers worker place)
    rw [waiting, waits, manned.counted]
  · show queue.valid = true → 0 < Crew.count _ (Function.update state.workers worker place) →
      queue.queue.length ≤ Crew.count _ (Function.update state.workers worker place)
    rw [valid, sleeps, wakes]
    intro open' sleeping
    exact shorter.trans (manned.matched open' sleeping)
  · show queue.valid = false → Crew.count _ (Function.update state.workers worker place) = 0
    rw [valid, sleeps]
    exact manned.released

/-- A worker goes to sleep at an empty queue. -/
theorem sleep (manned : Manned state) {old : WorkerPlace Elem} {queue : SyncQueue Elem}
    (at' : state.workers worker = old) (valid : queue.valid = true) (empty : queue.queue = [])
    (waiting : queue.waiting + (if old.waits then 1 else 0) = state.queue.waiting + 1) :
    Manned ({ state with queue := queue }.move worker .asleep) := by
  have waits : Crew.count WorkerPlace.waits (Function.update state.workers worker .asleep) +
      (if old.waits then 1 else 0) = Crew.count WorkerPlace.waits state.workers + 1 :=
    count_move at' .asleep WorkerPlace.waits
  have counted := manned.counted
  constructor
  · show queue.waiting = Crew.count WorkerPlace.waits (Function.update state.workers worker .asleep)
    omega
  · intro _ _
    show queue.queue.length ≤ _
    rw [empty]
    exact Nat.zero_le _
  · intro invalid
    rw [show queue.valid = false from invalid] at valid
    cases valid

/-- A worker that sleeps is woken, by a put or spuriously. -/
theorem wake (manned : Manned state) {queue : SyncQueue Elem} (at' : state.workers worker = .asleep)
    (valid : queue.valid = state.queue.valid) (waiting : queue.waiting = state.queue.waiting)
    (longer : queue.queue.length ≤ state.queue.queue.length + 1) :
    Manned ({ state with queue := queue }.move worker .woken) := by
  have waits : Crew.count WorkerPlace.waits (Function.update state.workers worker .woken) + 1 =
      Crew.count WorkerPlace.waits state.workers + 1 := count_move at' .woken WorkerPlace.waits
  have sleeps : Crew.count WorkerPlace.sleeps (Function.update state.workers worker .woken) + 1 =
      Crew.count WorkerPlace.sleeps state.workers + 0 := count_move at' .woken WorkerPlace.sleeps
  have wakes : Crew.count WorkerPlace.wakes (Function.update state.workers worker .woken) + 0 =
      Crew.count WorkerPlace.wakes state.workers + 1 := count_move at' .woken WorkerPlace.wakes
  have counted := manned.counted
  constructor
  · show queue.waiting = Crew.count WorkerPlace.waits (Function.update state.workers worker .woken)
    omega
  · show queue.valid = true → _ → queue.queue.length ≤
      Crew.count WorkerPlace.wakes (Function.update state.workers worker .woken)
    rw [valid]
    intro open' _
    have matched := manned.matched open' (by omega)
    omega
  · show queue.valid = false → Crew.count WorkerPlace.sleeps (Function.update state.workers worker .woken) = 0
    rw [valid]
    intro invalid
    have released := manned.released invalid
    omega

/-- A woken worker leaves the wait, and of a valid queue it takes an element. -/
theorem resume (manned : Manned state) (at' : state.workers worker = .woken) (ready : state.queue.ready = true) :
    Manned (state.finishGet worker state.queue) := by
  have waits : Crew.count WorkerPlace.waits
      (Function.update state.workers worker (.afterGet state.queue.leave.1)) + 1 =
        Crew.count WorkerPlace.waits state.workers := by
    simpa only [WorkerPlace.waits_woken, WorkerPlace.waits_afterGet, Bool.false_eq_true, if_true, if_false, Nat.add_zero]
      using count_move at' (.afterGet state.queue.leave.1) WorkerPlace.waits
  have sleeps : Crew.count WorkerPlace.sleeps
      (Function.update state.workers worker (.afterGet state.queue.leave.1)) =
        Crew.count WorkerPlace.sleeps state.workers := by
    simpa only [WorkerPlace.sleeps_woken, WorkerPlace.sleeps_afterGet, Bool.false_eq_true, if_true, if_false, Nat.add_zero]
      using count_move at' (.afterGet state.queue.leave.1) WorkerPlace.sleeps
  have wakes : Crew.count WorkerPlace.wakes
      (Function.update state.workers worker (.afterGet state.queue.leave.1)) + 1 =
        Crew.count WorkerPlace.wakes state.workers := by
    simpa only [WorkerPlace.wakes_woken, WorkerPlace.wakes_afterGet, Bool.false_eq_true, if_true, if_false, Nat.add_zero]
      using count_move at' (.afterGet state.queue.leave.1) WorkerPlace.wakes
  have counted := manned.counted
  constructor
  · show state.queue.leave.2.waiting = Crew.count _ (Function.update state.workers worker _)
    rw [SyncQueue.leave_waiting]
    omega
  · show state.queue.leave.2.valid = true → 0 < Crew.count _ (Function.update state.workers worker _) →
      state.queue.leave.2.queue.length ≤ Crew.count _ (Function.update state.workers worker _)
    rw [SyncQueue.leave_valid, sleeps]
    intro valid sleeping
    have matched := manned.matched valid sleeping
    have shorter := state.queue.leave_length valid ready
    omega
  · show state.queue.leave.2.valid = false → Crew.count _ (Function.update state.workers worker _) = 0
    rw [SyncQueue.leave_valid, sleeps]
    exact manned.released

theorem leave_shorter (queue : SyncQueue Elem) : queue.leave.2.queue.length ≤ queue.queue.length := by
  have parts := congrArg List.length queue.leave_queue
  rw [List.length_append] at parts
  omega

theorem step (manned : Manned state) (step : PoolStep state event later) : Manned later := by
  cases step with
  | putNotify elem _ at' =>
      refine manned.wake at' (by simp) (by simp) ?_
      rw [SyncQueue.put_queue, List.length_append]
      split <;> simp
  | putUnheard elem valid nobody =>
      have sleeping : Crew.count WorkerPlace.sleeps state.workers = 0 :=
        Crew.count_eq_zero fun worker => by
          rw [← Bool.not_eq_true, WorkerPlace.sleeps_eq_true]
          exact nobody worker
      refine ⟨by simpa using manned.counted, ?_, fun _ => sleeping⟩
      intro _ positive
      exact absurd sleeping positive.ne'
  | putDropped elem invalid =>
      refine ⟨by simpa using manned.counted, ?_, fun _ => manned.released invalid⟩
      intro _ positive
      exact absurd (manned.released invalid) positive.ne'
  | pass at' ready =>
      refine manned.outside at' rfl (WorkerPlace.waits_afterGet _) (by simp) (by simp) ?_
      exact leave_shorter state.queue.enter
  | sleep at' blocked =>
      obtain ⟨valid, empty⟩ := (SyncQueue.ready_eq_false _).1 blocked
      exact manned.sleep at' valid empty rfl
  | wake at' => exact manned.wake at' rfl rfl (Nat.le_succ _)
  | resume at' ready => exact manned.resume at' ready
  | sleepAgain at' blocked =>
      obtain ⟨valid, empty⟩ := (SyncQueue.ready_eq_false _).1 blocked
      exact manned.sleep at' valid empty rfl
  | invalidate =>
      have sleeping : Crew.count WorkerPlace.sleeps (fun worker => (state.workers worker).notified) = 0 :=
        Crew.count_eq_zero fun worker => WorkerPlace.sleeps_notified _
      refine ⟨?_, ?_, fun _ => sleeping⟩
      · show state.queue.waiting = _
        rw [manned.counted]
        exact (Crew.count_map _ _ _ WorkerPlace.waits_notified).symm
      · intro _ positive
        exact absurd sleeping positive.ne'
  | loop at' _ => exact manned.outside at' rfl rfl rfl rfl le_rfl
  | leaveLoop at' _ => exact manned.outside at' rfl rfl rfl rfl le_rfl
  | ran at' => exact manned.outside at' rfl rfl rfl rfl le_rfl
  | stop => exact ⟨manned.counted, manned.matched, manned.released⟩

theorem of_run (run : PoolRun events state) : Manned state := by
  induction run with
  | start => exact create
  | step _ step manned => exact manned.step step

end Manned

/-- In every run the work queue keeps its promises. -/
theorem work_queue_sound [DecidableEq Worker] (events : List (PoolEvent Worker Elem)) (state : PoolState Worker Elem)
    (run : PoolRun events state) : state.Sound events := by
  have accounted := Accounted.of_run run
  have manned := Manned.of_run run
  constructor
  · exact accounted.once
  · exact accounted.drained
  · exact accounted.ended
  · exact manned.counted
  · intro valid elements worker asleep
    have sleeping := Crew.count_pos (WorkerPlace.sleeps_eq_true.2 asleep)
    have waking := (List.length_pos_iff.2 elements).trans_le (manned.matched valid sleeping)
    obtain ⟨other, wakes⟩ := Crew.exists_of_count_pos waking
    refine ⟨other, fun same => ?_⟩
    rw [same] at wakes
    cases wakes
  · intro invalid worker asleep
    have sleeping := Crew.count_pos (WorkerPlace.sleeps_eq_true.2 asleep)
    exact absurd (manned.released invalid) sleeping.ne'

end Runs

/-- One of two workers sleeps, a put wakes it, and it takes the element. -/
theorem work_queue_sound_woken :
    ∃ state : PoolState (Fin 2) Nat,
      state.Sound [.internal, .internal, .put 7, .got 0 (some 7)] ∧ state.workers 0 = .running 7 := by
  have looping : @PoolRun (Fin 2) Nat _ [] _ := .start
  have getting := looping.step (@PoolStep.loop _ _ _ _ 0 rfl rfl)
  have asleep := getting.step (@PoolStep.sleep _ _ _ _ 0 rfl rfl)
  have woken := asleep.step (@PoolStep.putNotify _ _ _ _ 7 0 rfl rfl)
  have running := woken.step (@PoolStep.resume _ _ _ _ 0 rfl rfl)
  exact ⟨_, work_queue_sound _ _ running, rfl⟩

end SimpleNFast.Com
