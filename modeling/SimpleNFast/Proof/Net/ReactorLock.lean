import SimpleNFast.Construction.Net.Reactor

namespace SimpleNFast.Net

/-- The places at which the reactor thread holds the lock. -/
def Place.holds : Place → Bool
  | .collecting => true
  | .visiting _ => true
  | .handling _ _ _ => true
  | .calling _ _ _ _ => true
  | _ => false

/-- The places at which no handler waits for the lock. -/
def Place.quiet : Place → Bool
  | .calling _ _ _ _ => false
  | _ => true

/-- The lock belongs to the thread whose place holds it, and no handler waits for it. -/
structure Owned (state : ReactorState) : Prop where
  reactor : state.lock = some .reactor ↔ state.reactor.holds = true
  worker : ∀ number, state.lock = some (.worker number) ↔ ∃ call task, state.workers number = .holding call task
  quiet : state.reactor.quiet = true

namespace Owned

variable {behaviour : Behaviour} {state later : ReactorState} {tid : ThreadId}

theorem of_initial (initial : state.Initial) : Owned state where
  reactor := by
    rw [initial.lock, initial.reactor]
    simp [Place.holds]
  worker number := by
    rw [initial.lock]
    obtain idle | ⟨task, running⟩ := initial.workers number
    · simp [idle]
    · simp [running]
  quiet := by
    rw [initial.reactor]
    rfl

/-- A step of the reactor thread that leaves the lock alone. -/
theorem goto (owned : Owned state) {place : Place} (holds : place.holds = state.reactor.holds)
    (quiet : place.quiet = true)
    (lock : later.lock = state.lock) (workers : later.workers = state.workers) (reactor : later.reactor = place) :
    Owned later where
  reactor := by
    rw [lock, reactor, holds]
    exact owned.reactor
  worker number := by
    rw [lock, workers]
    exact owned.worker number
  quiet := by
    rw [reactor]
    exact quiet

/-- The reactor thread takes the free lock. -/
theorem locks (owned : Owned state) {place : Place} (free : state.lock = none) (holds : place.holds = true)
    (quiet : place.quiet = true)
    (lock : later.lock = some .reactor) (workers : later.workers = state.workers) (reactor : later.reactor = place) :
    Owned later where
  reactor := by
    rw [lock, reactor, holds]
    simp
  worker number := by
    have outside := owned.worker number
    rw [free] at outside
    rw [lock, workers, ← outside]
    simp
  quiet := by
    rw [reactor]
    exact quiet

/-- The reactor thread gives the lock back. -/
theorem unlocks (owned : Owned state) {place : Place} (held : state.reactor.holds = true) (free : place.holds = false)
    (quiet : place.quiet = true)
    (lock : later.lock = none) (workers : later.workers = state.workers) (reactor : later.reactor = place) :
    Owned later where
  reactor := by
    rw [lock, reactor, free]
    simp
  worker number := by
    have outside := owned.worker number
    rw [owned.reactor.2 held] at outside
    rw [lock, workers, ← outside]
    simp
  quiet := by
    rw [reactor]
    exact quiet

/-- A step of another thread that leaves the lock alone. -/
theorem move (owned : Owned state) {number : Nat} {place : WorkerPlace}
    (outside : ∀ call task, state.workers number ≠ .holding call task) (free : ∀ call task, place ≠ .holding call task)
    (lock : later.lock = state.lock) (workers : later.workers = Function.update state.workers number place)
    (reactor : later.reactor = state.reactor) : Owned later where
  reactor := by
    rw [lock, reactor]
    exact owned.reactor
  worker other := by
    rw [lock, workers]
    by_cases same : other = number
    · rw [same, owned.worker, Function.update_self]
      constructor
      · rintro ⟨call, task, held⟩
        exact absurd held (outside call task)
      · rintro ⟨call, task, held⟩
        exact absurd held (free call task)
    · rw [Function.update_of_ne same]
      exact owned.worker other
  quiet := by
    rw [reactor]
    exact owned.quiet

theorem settle (owned : Owned state) {visit : Visit} (held : state.reactor.holds = true) (again : Bool) :
    Owned (state.settle visit again) := by
  cases again with
  | true => exact owned.goto (by rw [held]; rfl) rfl rfl rfl rfl
  | false => exact owned.goto (by rw [held]; rfl) rfl rfl rfl rfl

/-- Each step keeps the lock with the thread whose place holds it. -/
theorem step (owned : Owned state) (calls : CallsNothing state) (step : ReactorStep behaviour tid state later) :
    Owned later := by
  cases step with
  | stop at' => exact owned.goto (by rw [at']; rfl) rfl rfl rfl rfl
  | lockMap _ _ free => exact owned.locks free rfl rfl rfl rfl rfl
  | collect at' => exact owned.unlocks (by rw [at']; rfl) rfl rfl rfl rfl rfl
  | pollFailed at' => exact owned.goto (by rw [at']; rfl) rfl rfl rfl rfl
  | pollNone at' => exact owned.goto (by rw [at']; rfl) rfl rfl rfl rfl
  | pollSome at' result => exact owned.goto (by rw [at']; rfl) rfl rfl rfl rfl
  | processed at' => exact owned.goto (by rw [at']; rfl) rfl rfl rfl rfl
  | lockSocket _ free => exact owned.locks free rfl rfl rfl rfl rfl
  | finish at' _ => exact owned.unlocks (by rw [at']; rfl) rfl rfl rfl rfl rfl
  | pass at' _ _ _ => exact owned.settle (by rw [at']; rfl) true
  | handle at' _ _ _ _ => exact owned.goto (by rw [at']; rfl) rfl rfl rfl rfl
  | submit at' => exact owned.goto (by rw [at']; rfl) rfl rfl rfl rfl
  | refused at' _ => exact owned.goto (by rw [at']; rfl) rfl rfl rfl rfl
  | thrown at' _ => exact owned.unlocks (by rw [at']; rfl) rfl rfl rfl rfl rfl
  | call at' locks =>
      rw [calls _ _ _ _ at'] at locks
      cases locks
  | called at' _ =>
      have quiet := owned.quiet
      rw [at'] at quiet
      cases quiet
  | handled at' => exact owned.settle (by rw [at']; rfl) _
  | take at' _ => exact owned.move (by simp [at']) (by simp) rfl rfl rfl
  | begin at' _ => exact owned.move (by simp [at']) (by simp) rfl rfl rfl
  | skip at' _ => exact owned.move (by simp [at']) (by simp) rfl rfl rfl
  | @acquire _ number call task at' free =>
      have reactor : state.reactor.holds = false := by
        have outside := owned.reactor
        rw [free] at outside
        simpa using outside
      refine ⟨?_, ?_, owned.quiet⟩
      · simp [ReactorState.move, reactor]
      · intro other
        have outside := owned.worker other
        rw [free] at outside
        by_cases same : other = number
        · simp [ReactorState.move, same]
        · simpa [ReactorState.move, same, Ne.symm same] using outside
  | @release _ number call task at' =>
      have held := (owned.worker number).2 ⟨call, task, at'⟩
      have reactor : state.reactor.holds = false := by
        have outside := owned.reactor
        rw [held] at outside
        simpa using outside
      refine ⟨?_, ?_, owned.quiet⟩
      · simp [ReactorState.move, reactor]
      · intro other
        have outside := owned.worker other
        rw [held] at outside
        by_cases same : other = number
        · simp [ReactorState.move, same]
        · simpa [ReactorState.move, same, Ne.symm same] using outside
  | done at' => exact owned.move (by simp [at']) (by simp) rfl rfl rfl
  | stopCall _ => exact owned.goto rfl owned.quiet rfl rfl rfl

theorem of_run (run : ReactorRun behaviour CallsNothing state) : Owned state := by
  induction run with
  | initial initial => exact of_initial initial
  | step _ meant step owned => exact owned.step meant step

/-- The lock is free, or another thread holds it and releases it with its next step. -/
theorem free_or_released (owned : Owned state) (outside : state.reactor.holds = false) :
    state.lock = none ∨ ∃ number later, state.lock = some (.worker number) ∧
      ReactorStep behaviour (.worker number) state later ∧ later.lock = none := by
  cases lock : state.lock with
  | none => exact Or.inl rfl
  | some tid =>
      right
      cases tid with
      | reactor =>
          rw [owned.reactor.1 lock] at outside
          cases outside
      | worker number =>
          obtain ⟨call, task, held⟩ := (owned.worker number).1 lock
          exact ⟨number, _, rfl, .release held, rfl⟩

/-- The reactor thread does not wait for itself. -/
theorem not_selfDeadlock (owned : Owned state) : ¬ SelfDeadlock state := by
  rintro ⟨waits, lock⟩
  have holds := owned.reactor.1 lock
  have quiet := owned.quiet
  cases at' : state.reactor with
  | calling visit call actions again =>
      rw [at'] at quiet
      cases quiet
  | processing results =>
      rw [at'] at holds
      cases holds
  | looping | polling | ended =>
      rw [at'] at holds
      cases holds
  | collecting | visiting _ | handling _ _ _ =>
      rw [at'] at waits
      cases waits

theorem makesNextStep (owned : Owned state) : MakesNextStep behaviour state := by
  unfold MakesNextStep
  cases at' : state.reactor with
  | looping =>
      right
      cases stopped : state.stopped with
      | true => exact Or.inl ⟨_, .stop at' stopped⟩
      | false =>
          refine (owned.free_or_released (by rw [at']; rfl)).imp_left ?_
          intro free
          exact ⟨_, .lockMap at' stopped free⟩
  | collecting => exact Or.inr (Or.inl ⟨_, .collect at'⟩)
  | polling => exact Or.inr (Or.inl ⟨_, .pollNone at'⟩)
  | processing results =>
      right
      cases results with
      | nil => exact Or.inl ⟨_, .processed at'⟩
      | cons first rest =>
          refine (owned.free_or_released (by rw [at']; rfl)).imp_left ?_
          intro free
          exact ⟨_, .lockSocket at' free⟩
  | visiting visit =>
      right
      left
      cases next : state.nextInfo visit with
      | none => exact ⟨_, .finish at' next⟩
      | some info =>
          cases dispatched : visit.revents.dispatch false info with
          | none => exact ⟨_, .pass at' next false dispatched⟩
          | some event =>
              obtain ⟨reply, replied⟩ := behaviour.returns info.h visit.fd event
              exact ⟨_, .handle at' next false dispatched replied⟩
  | handling visit actions again =>
      right
      left
      cases actions with
      | nil => exact ⟨_, .handled at'⟩
      | cons action actions =>
          cases action with
          | submit task => exact ⟨_, .submit at'⟩
          | call call =>
              cases locks : call.locks state.stopped with
              | true => exact ⟨_, .call at' locks⟩
              | false => exact ⟨_, .refused at' locks⟩
  | calling visit call actions again =>
      have quiet := owned.quiet
      rw [at'] at quiet
      cases quiet
  | ended => exact Or.inl rfl

end Owned

def Action.submits : Action → Bool
  | .submit _ => true
  | .call _ => false

/-- Nothing that a handler still has to do at a place is a call of the reactor. -/
def Place.submitting : Place → Bool
  | .handling _ actions _ => actions.all Action.submits
  | .calling _ _ _ _ => false
  | _ => true

/-- A handler that is not the plain accept handler leaves the calls to tasks. -/
theorem ServerHandler.reply_submits {handler : ServerHandler} (encrypted : ∀ sock, handler ≠ .accept sock false)
    (s : Int) (e : Event) (accepted : Option Int) (reader : Nat) (fine : Bool) :
    (handler.reply s e accepted reader fine).actions.all Action.submits = true := by
  cases handler with
  | accept sock secured =>
      cases secured with
      | false => exact absurd rfl (encrypted sock)
      | true =>
          unfold reply
          by_cases other : sock ≠ s ∨ e ≠ .read
          · simp [other]
          · cases accepted <;> simp [other, Action.submits]
  | read sock shuttingDown =>
      unfold reply
      by_cases other : shuttingDown = true ∨ sock ≠ s ∨ e ≠ .read
      · simp [other]
      · simp [other, Action.submits]

section Encrypted

variable {handlers : Nat → ServerHandler} {state later : ReactorState} {tid : ThreadId}

theorem submitting_step (encrypted : ∀ h sock, handlers h ≠ .accept sock false)
    (submitting : state.reactor.submitting = true)
    (step : ReactorStep (ServerHandler.behaviour handlers) tid state later) : later.reactor.submitting = true := by
  cases step with
  | stop _ | lockMap _ _ _ | collect _ | pollFailed _ | pollNone _ | pollSome _ _ | processed _ | lockSocket _ _ => rfl
  | finish _ _ | pass _ _ _ _ | thrown _ _ => rfl
  | handle _ _ _ _ replied =>
      obtain ⟨accepted, reader, fine, rfl⟩ := replied
      exact ServerHandler.reply_submits (encrypted _) _ _ accepted reader fine
  | submit at' =>
      rw [at'] at submitting
      simpa [Place.submitting, Action.submits] using submitting
  | refused at' _ | call at' _ | called at' _ =>
      rw [at'] at submitting
      simp [Place.submitting, Action.submits] at submitting
  | handled _ =>
      unfold ReactorState.settle
      split <;> rfl
  | take _ _ | begin _ _ | skip _ _ | acquire _ _ | release _ | done _ | stopCall _ => exact submitting

/-- On a server that encrypts every connection, no handler calls the reactor itself, and the poll loop goes on. -/
theorem encrypted_goes_on (encrypted : ∀ h sock, handlers h ≠ .accept sock false)
    (run : ReactorRun (ServerHandler.behaviour handlers) (fun _ => True) state) :
    ¬ SelfDeadlock state ∧ MakesNextStep (ServerHandler.behaviour handlers) state := by
  have both : Owned state ∧ state.reactor.submitting = true := by
    induction run with
    | initial initial => exact ⟨.of_initial initial, by rw [initial.reactor]; rfl⟩
    | step _ _ step before =>
        refine ⟨before.1.step ?_ step, submitting_step encrypted before.2 step⟩
        intro visit call actions again at'
        have submitting := before.2
        rw [at'] at submitting
        simp [Place.submitting, Action.submits] at submitting
  exact ⟨both.1.not_selfDeadlock, both.1.makesNextStep⟩

end Encrypted

end SimpleNFast.Net
