import SimpleNFast.Proof.Rdb.BucketLocks

namespace SimpleNFast.Rdb.Locks

variable {Tid : Type} [DecidableEq Tid] {htsize : Nat}

/-- Two threads use one bucket and at least one of them writes. -/
def Conflict (workload : Tid → List (Op htsize)) : Prop :=
  ∃ writer other, writer ≠ other ∧ ∃ op ∈ workload writer, op.exclusive = true ∧
    ∃ otherOp ∈ workload other, otherOp.index = op.index

/-- A thread waits for a bucket lock only while an incompatible thread holds it. -/
theorem Kept.blocked {table : HashTable Tid htsize} {threads : Tid → Thread htsize}
    (kept : Kept table threads) (tid : Tid) {op : Op htsize}
    (engaged : (threads tid).engaged = some op) (blocked : table.acquire op tid = none) :
    ∃ holder heldOp, (threads holder).held = some heldOp ∧ heldOp.index = op.index ∧
      (op.exclusive = true ∨ heldOp.exclusive = true) := by
  cases read : table.rwlock op.index with
  | none => exact absurd read (kept.mapped tid op engaged)
  | some lock =>
      have guards := kept.guards op.index lock read
      simp only [HashTable.acquire, read, Option.map_eq_none_iff] at blocked
      cases owner : lock.writer with
      | some holder => exact ⟨holder, _, (guards.writer holder).1 owner, rfl, Or.inr rfl⟩
      | none =>
          cases mode : op.exclusive with
          | false => simp [mode, RWLock.rdlock, owner] at blocked
          | true =>
              simp only [mode, if_true, RWLock.wrlock, owner, true_and] at blocked
              have someone : lock.readers ≠ ∅ := by
                intro empty
                simp [empty] at blocked
              obtain ⟨holder, member⟩ := Finset.nonempty_iff_ne_empty.2 someone
              exact ⟨holder, _, (guards.readers holder).1 member, rfl, Or.inl rfl⟩

omit [DecidableEq Tid] in
theorem Thread.held_head {thread : Thread htsize} {op : Op htsize} (held : thread.held = some op) :
    op ∈ thread.ops := by
  simp only [Thread.held] at held
  split at held
  · exact List.mem_of_mem_head? held
  · cases held

/-- Without a conflict the owner of the mutex, or else every unfinished thread, can step. -/
theorem not_deadlock {workload : Tid → List (Op htsize)} (harmless : ¬ Conflict workload)
    {state : State Tid htsize} (reachable : Reachable workload state) : ¬ Deadlock state := by
  rintro ⟨⟨tid, unfinished⟩, stuck⟩
  obtain ⟨places, kept⟩ := reachable.inv
  have listed : ∀ other op, op ∈ (state.threads other).ops → op ∈ workload other := fun other op =>
    fun member => (reachable.suffix other).subset member
  cases owned : state.mutex with
  | none =>
      have stays := stuck tid unfinished
      have outside := places.inside tid
      rw [owned] at outside
      simp only [reduceCtorEq, iff_false, Bool.not_eq_true] at outside
      simp only [Unfinished] at unfinished
      cases thread : state.threads tid with
      | mk ops pc =>
          rw [thread] at unfinished outside
          cases ops with
          | nil => exact unfinished rfl
          | cons op rest => cases pc <;> simp_all [step, Pc.inside]
  | some owner =>
      have inside := (places.inside owner).2 owned
      have busy : Unfinished state owner := by
        intro empty
        have idle := places.rest owner empty
        rw [idle] at inside
        cases inside
      have stays := stuck owner busy
      simp only [Unfinished] at busy
      cases thread : state.threads owner with
      | mk ops pc =>
          rw [thread] at inside busy
          cases ops with
          | nil => exact busy rfl
          | cons op rest =>
              cases pc <;> simp only [step, thread, reduceCtorEq, Option.map_eq_none_iff] at stays
              · cases inside
              · obtain ⟨holder, heldOp, held, same, exclusive⟩ := kept.blocked owner
                  (by simp [thread, Thread.engaged]) stays
                have apart : holder ≠ owner := by
                  rintro rfl
                  simp [thread, Thread.held, Pc.holds] at held
                have mine : op ∈ workload owner := listed owner op (by simp [thread])
                have theirs := listed holder heldOp (Thread.held_head held)
                rcases exclusive with writes | writes
                · exact harmless ⟨owner, holder, apart.symm, op, mine, writes, heldOp, theirs, same⟩
                · exact harmless ⟨holder, owner, apart, heldOp, theirs, writes, op, mine, same.symm⟩
              · cases inside

/-- Between operations the mutex is free and the pool has no held lock. -/
structure Paused (state : State Tid htsize) (rwlock : Fin htsize → Option (RWLock Tid))
    (threads : Tid → Thread htsize) : Prop where
  mutex : state.mutex = none
  rwlock : state.table.rwlock = rwlock
  threads : state.threads = threads
  pool : ∀ lock ∈ state.table.pool, lock = RWLock.new

/-- The lock of a bucket with one holder. -/
def RWLock.sole (op : Op htsize) (tid : Tid) : RWLock Tid :=
  if op.exclusive then ⟨1, ∅, some tid⟩ else ⟨1, {tid}, none⟩

theorem Moved.moves {state next : State Tid htsize} {tid : Tid} (moved : Moved state tid next) :
    Moves state next := ⟨tid, (step_eq_some_iff state next tid).2 moved⟩

/-- A thread alone takes the lock of an unused bucket. -/
theorem Paused.hold {state : State Tid htsize} {rwlock : Fin htsize → Option (RWLock Tid)}
    {threads : Tid → Thread htsize} (paused : Paused state rwlock threads) {tid : Tid}
    {op : Op htsize} {rest : List (Op htsize)} (thread : threads tid = ⟨op :: rest, .outside⟩)
    (unused : rwlock op.index = none) :
    ∃ next, Relation.ReflTransGen Moves state next ∧
      Paused next (Function.update rwlock op.index (some (RWLock.sole op tid)))
        (Function.update threads tid ⟨op :: rest, .working⟩) := by
  obtain ⟨mutex, table, stateThreads⟩ := state
  obtain ⟨rfl, rfl, rfl, fresh⟩ := paused
  simp only at thread unused fresh
  have pooled := HashTable.poolGet_new fresh
  have ensured : table.ensureLock op.index =
      ⟨Function.update table.rwlock op.index (some RWLock.new), table.poolGet.2⟩ := by
    simp only [HashTable.ensureLock, unused, pooled.1]
  have taken : (table.ensureLock op.index).acquire op tid =
      some ⟨Function.update table.rwlock op.index (some (RWLock.sole op tid)),
        table.poolGet.2⟩ := by
    rw [ensured]
    cases mode : op.exclusive <;>
      simp [HashTable.acquire, RWLock.wrlock, RWLock.rdlock, RWLock.new, RWLock.sole, mode]
  let entering : State Tid htsize :=
    ⟨some tid, table, Function.update stateThreads tid ⟨op :: rest, .entered⟩⟩
  let waiting : State Tid htsize :=
    ⟨some tid, table.ensureLock op.index, Function.update entering.threads tid ⟨op :: rest, .waiting⟩⟩
  let locked : State Tid htsize :=
    ⟨some tid, ⟨Function.update table.rwlock op.index (some (RWLock.sole op tid)), table.poolGet.2⟩,
      Function.update waiting.threads tid ⟨op :: rest, .locked⟩⟩
  have first : Moved ⟨none, table, stateThreads⟩ tid entering := .enter thread rfl
  have second : Moved entering tid waiting := .ensure (Function.update_self ..)
  have third : Moved waiting tid locked := .acquire (Function.update_self ..) taken
  have fourth : Moved locked tid _ := .work (Function.update_self ..)
  refine ⟨_, (((Relation.ReflTransGen.single first.moves).tail second.moves).tail
    third.moves).tail fourth.moves, ⟨rfl, rfl, ?_, pooled.2⟩⟩
  simp [locked, waiting, entering]

/-- The only holder returns its lock as new. -/
theorem RWLock.release_sole (op : Op htsize) (tid : Tid) :
    (RWLock.sole op tid).release tid = RWLock.new := by
  cases mode : op.exclusive <;> simp [RWLock.sole, RWLock.release, RWLock.unlock, RWLock.new, mode]

/-- A thread alone completes an operation on an unused bucket. -/
theorem Paused.complete {state : State Tid htsize} {rwlock : Fin htsize → Option (RWLock Tid)}
    {threads : Tid → Thread htsize} (paused : Paused state rwlock threads) {tid : Tid}
    {op : Op htsize} {rest : List (Op htsize)} (thread : threads tid = ⟨op :: rest, .outside⟩)
    (unused : rwlock op.index = none) :
    ∃ next, Relation.ReflTransGen Moves state next ∧
      Paused next rwlock (Function.update threads tid ⟨rest, .outside⟩) := by
  obtain ⟨held, before, ⟨mutex, locks, places, fresh⟩⟩ := paused.hold thread unused
  obtain ⟨heldMutex, table, heldThreads⟩ := held
  simp only at mutex locks places fresh
  subst mutex places
  have released : table.release op tid = ⟨rwlock, table.pool ++ [RWLock.new]⟩ := by
    simp only [HashTable.release, locks, Function.update_self, RWLock.release_sole, Function.update_idem]
    have counted : (RWLock.new : RWLock Tid).cnt = 0 := rfl
    rw [if_pos (Or.inr counted), ← unused, Function.update_eq_self]
  let leaving : State Tid htsize := ⟨none, table, Function.update
    (Function.update threads tid ⟨op :: rest, .working⟩) tid ⟨op :: rest, .leaving⟩⟩
  let unlocking : State Tid htsize :=
    ⟨some tid, table, Function.update leaving.threads tid ⟨op :: rest, .unlocking⟩⟩
  let unlocked : State Tid htsize :=
    ⟨some tid, table.release op tid, Function.update unlocking.threads tid ⟨op :: rest, .unlocked⟩⟩
  have first : Moved ⟨none, table, Function.update threads tid ⟨op :: rest, .working⟩⟩ tid leaving :=
    .finish (Function.update_self ..)
  have second : Moved leaving tid unlocking := .reenter (Function.update_self ..) rfl
  have third : Moved unlocking tid unlocked := .release (Function.update_self ..)
  have fourth : Moved unlocked tid _ := .leave (Function.update_self ..)
  refine ⟨_, (((before.tail first.moves).tail second.moves).tail third.moves).tail fourth.moves, ?_⟩
  refine ⟨rfl, ?_, ?_, ?_⟩
  · simp [unlocked, released]
  · simp [unlocked, unlocking, leaving]
  · intro lock member
    simp only [unlocked, released, List.mem_append, List.mem_singleton] at member
    exact member.elim (fresh lock) id

/-- A thread alone completes a sequence of operations on unused buckets. -/
theorem Paused.completeAll {state : State Tid htsize} {rwlock : Fin htsize → Option (RWLock Tid)}
    {threads : Tid → Thread htsize} (paused : Paused state rwlock threads) (tid : Tid)
    (done rest : List (Op htsize)) (thread : threads tid = ⟨done ++ rest, .outside⟩)
    (unused : ∀ op ∈ done, rwlock op.index = none) :
    ∃ next, Relation.ReflTransGen Moves state next ∧
      Paused next rwlock (Function.update threads tid ⟨rest, .outside⟩) := by
  induction done generalizing state threads with
  | nil =>
      refine ⟨state, .refl, ?_⟩
      rw [List.nil_append] at thread
      rw [← thread, Function.update_eq_self]
      exact paused
  | cons op done doneRest =>
      obtain ⟨middle, before, pausedMiddle⟩ := paused.complete thread (unused op (by simp))
      obtain ⟨next, after, pausedNext⟩ := doneRest pausedMiddle (by rw [Function.update_self]; rfl)
        (fun other member => unused other (by simp [member]))
      rw [Function.update_idem] at pausedNext
      exact ⟨next, before.trans after, pausedNext⟩

omit [DecidableEq Tid] in
theorem start_paused (workload : Tid → List (Op htsize)) :
    Paused (start workload) (fun _ => none) (fun tid => ⟨workload tid, .outside⟩) :=
  ⟨rfl, rfl, rfl, by simp [start]⟩

/-- A list that uses a bucket has a first operation on it. -/
theorem exists_first_use {ops : List (Op htsize)} {op : Op htsize} (member : op ∈ ops) :
    ∃ before use after, ops = before ++ use :: after ∧ use.index = op.index ∧
      ∀ other ∈ before, other.index ≠ op.index := by
  induction ops with
  | nil => simp at member
  | cons head rest restUse =>
      by_cases same : head.index = op.index
      · exact ⟨[], head, rest, rfl, same, by simp⟩
      · have later : op ∈ rest := by
          rcases List.mem_cons.1 member with equal | inside
          · exact absurd (congrArg Op.index equal.symm) same
          · exact inside
        obtain ⟨before, use, after, shape, index, apart⟩ := restUse later
        refine ⟨head :: before, use, after, by rw [shape]; rfl, index, ?_⟩
        intro other inside
        rcases List.mem_cons.1 inside with rfl | inside
        · exact same
        · exact apart other inside

/-- A lock with a writer lets nobody in. -/
theorem acquire_held {table : HashTable Tid htsize} {op use : Op htsize} {writer : Tid} (tid : Tid)
    (exclusive : op.exclusive = true) (same : use.index = op.index)
    (read : table.rwlock op.index = some (RWLock.sole op writer)) : table.acquire use tid = none := by
  cases mode : use.exclusive <;>
    simp [HashTable.acquire, same, read, mode, RWLock.sole, exclusive, RWLock.wrlock, RWLock.rdlock]

/-- A writer that works and a thread that waits for its bucket block each other. -/
theorem exists_deadlock {workload : Tid → List (Op htsize)} (conflict : Conflict workload) :
    ∃ state, Reachable workload state ∧ Deadlock state := by
  obtain ⟨writer, other, apart, op, opIn, exclusive, otherOp, otherIn, sameIndex⟩ := conflict
  obtain ⟨done, rest, split⟩ := List.append_of_mem opIn
  obtain ⟨before, use, after, otherSplit, useIndex, elsewhere⟩ := exists_first_use otherIn
  rw [sameIndex] at useIndex elsewhere
  obtain ⟨first, firstMoves, firstPaused⟩ := (start_paused workload).completeAll writer done
    (op :: rest) (by rw [split]) (by simp)
  obtain ⟨second, secondMoves, secondPaused⟩ := firstPaused.hold (Function.update_self ..) rfl
  rw [Function.update_idem] at secondPaused
  obtain ⟨third, thirdMoves, thirdPaused⟩ := secondPaused.completeAll other before (use :: after)
    (by rw [Function.update_of_ne apart.symm, otherSplit]) (by
      intro early member
      rw [Function.update_of_ne (elsewhere early member)])
  obtain ⟨mutex, table, threads⟩ := third
  obtain ⟨noMutex, locks, places, -⟩ := thirdPaused
  simp only at noMutex locks places
  subst noMutex
  have locked : table.rwlock op.index = some (RWLock.sole op writer) := by
    rw [locks, Function.update_self]
  have ensured : table.ensureLock use.index = table := by
    simp only [HashTable.ensureLock, useIndex, locked]
  have otherThread : threads other = ⟨use :: after, .outside⟩ := by
    rw [places, Function.update_self]
  have writerThread : threads writer = ⟨op :: rest, .working⟩ := by
    rw [places, Function.update_of_ne apart, Function.update_self]
  -- The other thread takes the mutex and waits; the writer then needs the mutex to leave.
  let entering : State Tid htsize :=
    ⟨some other, table, Function.update threads other ⟨use :: after, .entered⟩⟩
  let waiting : State Tid htsize := ⟨some other, table.ensureLock use.index,
    Function.update entering.threads other ⟨use :: after, .waiting⟩⟩
  let stuck : State Tid htsize := ⟨some other, table.ensureLock use.index,
    Function.update waiting.threads writer ⟨op :: rest, .leaving⟩⟩
  have enter : Moved ⟨none, table, threads⟩ other entering := .enter otherThread rfl
  have ensure : Moved entering other waiting := .ensure (Function.update_self ..)
  have finish : Moved waiting writer stuck := .finish (by
    simp [waiting, entering, Function.update_of_ne apart, writerThread])
  refine ⟨stuck, ((((firstMoves.trans secondMoves).trans thirdMoves).tail enter.moves).tail
    ensure.moves).tail finish.moves, ⟨writer, by simp [Unfinished, stuck]⟩, ?_⟩
  intro tid unfinished
  by_cases isWriter : tid = writer
  · subst isWriter
    simp [step, stuck]
  · by_cases isOther : tid = other
    · subst isOther
      have blocked := acquire_held tid exclusive useIndex locked
      simp [step, stuck, waiting, Function.update_of_ne isWriter, ensured, blocked]
    · have place : stuck.threads tid = ⟨workload tid, .outside⟩ := by
        simp [stuck, waiting, entering, places, Function.update_of_ne isWriter,
          Function.update_of_ne isOther]
      rw [Unfinished, place] at unfinished
      cases ops : workload tid with
      | nil => exact absurd ops unfinished
      | cons head tail =>
          have owned : stuck.mutex ≠ none := by simp [stuck]
          simp only [step, place, ops, if_neg owned]

/-- The bucket locks are free of deadlock exactly when no two threads conflict on a bucket. -/
theorem deadlock_free_iff_no_conflict (workload : Tid → List (Op htsize)) :
    (∀ state, Reachable workload state → ¬ Deadlock state) ↔ ¬ Conflict workload := by
  constructor
  · intro free conflict
    obtain ⟨state, reachable, deadlock⟩ := exists_deadlock conflict
    exact free state reachable deadlock
  · intro harmless state reachable
    exact not_deadlock harmless reachable

/-- Two threads write to the only bucket. -/
def twoWriters : Bool → List (Op 1) := fun _ => [⟨0, true⟩]

/-- Two writers of one bucket can block each other. -/
theorem two_writers_deadlock :
    ¬ ∀ state : State Bool 1, Reachable twoWriters state → ¬ Deadlock state := by
  intro free
  obtain ⟨state, reachable, deadlock⟩ := @exists_deadlock _ _ _ twoWriters
    ⟨false, true, by decide, ⟨0, true⟩, by decide, rfl, ⟨0, true⟩, by decide, rfl⟩
  exact free state reachable deadlock

omit [DecidableEq Tid] in
/-- Nobody holds a bucket beside a thread that holds it to write. -/
theorem Kept.writer_alone {table : HashTable Tid htsize} {threads : Tid → Thread htsize}
    (kept : Kept table threads) {writer other : Tid} {index : Fin htsize} {mode : Bool}
    (writes : (threads writer).held = some ⟨index, true⟩) (inside : (threads other).held = some ⟨index, mode⟩) :
    other = writer := by
  cases read : table.rwlock index with
  | none => exact absurd read (kept.mapped writer _ (Thread.held_engaged writes))
  | some lock =>
      have guards := kept.guards index lock read
      have owner := (guards.writer writer).2 writes
      cases mode with
      | true =>
          have second := (guards.writer other).2 inside
          exact Option.some.inj (second.symm.trans owner)
      | false =>
          have member := (guards.readers other).2 inside
          rcases guards.alone with free | empty
          · rw [owner] at free
            cases free
          · rw [empty] at member
            exact absurd member (Finset.notMem_empty other)

/-- In every order of their steps, two threads hold one bucket at a time only when both of them read. -/
theorem guards_exclude {workload : Tid → List (Op htsize)} {state : State Tid htsize}
    (reachable : Reachable workload state) {tid other : Tid} (apart : tid ≠ other) {op otherOp : Op htsize}
    (held : (state.threads tid).held = some op) (otherHeld : (state.threads other).held = some otherOp)
    (same : otherOp.index = op.index) : op.exclusive = false ∧ otherOp.exclusive = false := by
  obtain ⟨-, kept⟩ := reachable.inv
  obtain ⟨index, mode⟩ := op
  obtain ⟨otherIndex, otherMode⟩ := otherOp
  cases same
  constructor
  · cases mode with
    | false => rfl
    | true => exact absurd (kept.writer_alone held otherHeld).symm apart
  · cases otherMode with
    | false => rfl
    | true => exact absurd (kept.writer_alone otherHeld held) apart

/-- Two threads read one bucket. -/
def twoReaders : Bool → List (Op 1) := fun _ => [⟨0, false⟩]

/-- The steps of the threads of a list, one after the other. -/
theorem Reachable.steps {workload : Tid → List (Op htsize)} {state last : State Tid htsize}
    (reachable : Reachable workload state) (tids : List Tid) (ran : tids.foldlM step state = some last) :
    Reachable workload last := by
  induction tids generalizing state with
  | nil =>
      cases ran
      exact reachable
  | cons tid rest later =>
      rw [List.foldlM_cons] at ran
      obtain ⟨next, stepped, ran⟩ := Option.bind_eq_some_iff.1 ran
      exact later (reachable.tail ⟨tid, stepped⟩) ran

/-- Both readers have their bucket. -/
theorem guards_exclude_readers : ∃ state : State Bool 1, Reachable twoReaders state ∧
    (state.threads true).pc = .locked ∧ (⟨0, false⟩ : Op 1).exclusive = false ∧
    (⟨0, false⟩ : Op 1).exclusive = false := by
  obtain ⟨last, ran, seen⟩ := Option.map_eq_some_iff.1
    (by decide : ([false, false, false, false, true, true, true].foldlM step (start twoReaders)).map
      (fun last => ((last.threads false).held, (last.threads true).held, (last.threads true).pc)) =
        some (some ⟨0, false⟩, some ⟨0, false⟩, .locked))
  obtain ⟨first, second, place⟩ : (last.threads false).held = some ⟨0, false⟩ ∧
      (last.threads true).held = some ⟨0, false⟩ ∧ (last.threads true).pc = .locked := by
    simpa only [Prod.mk.injEq] using seen
  have reachable := Reachable.steps Relation.ReflTransGen.refl _ ran
  exact ⟨last, reachable, place, guards_exclude reachable (by decide : false ≠ true) first second rfl⟩

end SimpleNFast.Rdb.Locks
