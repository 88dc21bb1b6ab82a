import SimpleNFast.Construction.Rdb.HashTable

namespace SimpleNFast.Rdb.Locks

variable {Tid : Type} [DecidableEq Tid] {htsize : Nat}

/-- The thread holds the table mutex at these places. -/
def Pc.inside : Pc → Bool
  | .entered | .waiting | .locked | .unlocking | .unlocked => true
  | _ => false

/-- The thread holds its bucket lock at these places. -/
def Pc.holds : Pc → Bool
  | .locked | .working | .leaving | .unlocking => true
  | _ => false

/-- The operation whose bucket lock the thread holds. -/
def Thread.held (thread : Thread htsize) : Option (Op htsize) :=
  if thread.pc.holds then thread.ops.head? else none

/-- The operation whose bucket has a lock for the thread. -/
def Thread.engaged (thread : Thread htsize) : Option (Op htsize) :=
  if thread.pc.holds = true ∨ thread.pc = .waiting then thread.ops.head? else none

/-- The holders of a bucket lock are the threads that hold the bucket. -/
structure Guards (threads : Tid → Thread htsize) (index : Fin htsize) (lock : RWLock Tid) : Prop where
  readers : ∀ tid, tid ∈ lock.readers ↔ (threads tid).held = some ⟨index, false⟩
  writer : ∀ tid, lock.writer = some tid ↔ (threads tid).held = some ⟨index, true⟩
  alone : lock.writer = none ∨ lock.readers = ∅
  counted : lock.cnt = lock.readers.card + lock.writer.toList.length

omit [DecidableEq Tid] in
theorem Guards.congr {threads next : Tid → Thread htsize} {index : Fin htsize} {lock : RWLock Tid}
    (guards : Guards threads index lock)
    (same : ∀ tid exclusive, (next tid).held = some ⟨index, exclusive⟩ ↔
      (threads tid).held = some ⟨index, exclusive⟩) :
    Guards next index lock where
  readers tid := by rw [same, guards.readers]
  writer tid := by rw [same, guards.writer]
  alone := guards.alone
  counted := guards.counted

/-- The owner of the table mutex is the thread inside it. -/
structure Places (mutex : Option Tid) (threads : Tid → Thread htsize) : Prop where
  rest : ∀ tid, (threads tid).ops = [] → (threads tid).pc = .outside
  inside : ∀ tid, (threads tid).pc.inside = true ↔ mutex = some tid

/-- The locks of the table are in step with the threads. -/
structure Kept (table : HashTable Tid htsize) (threads : Tid → Thread htsize) : Prop where
  mapped : ∀ tid op, (threads tid).engaged = some op → table.rwlock op.index ≠ none
  guards : ∀ index lock, table.rwlock index = some lock → Guards threads index lock
  pool : ∀ lock ∈ table.pool, lock = RWLock.new

/-- The steps of a thread with what each of them needs. -/
inductive Moved (state : State Tid htsize) (tid : Tid) : State Tid htsize → Prop
  | enter {op rest} (thread : state.threads tid = ⟨op :: rest, .outside⟩) (free : state.mutex = none) :
      Moved state tid ⟨some tid, state.table,
        Function.update state.threads tid ⟨op :: rest, .entered⟩⟩
  | ensure {op rest} (thread : state.threads tid = ⟨op :: rest, .entered⟩) :
      Moved state tid ⟨state.mutex, state.table.ensureLock op.index,
        Function.update state.threads tid ⟨op :: rest, .waiting⟩⟩
  | acquire {op rest table} (thread : state.threads tid = ⟨op :: rest, .waiting⟩)
      (taken : state.table.acquire op tid = some table) :
      Moved state tid ⟨state.mutex, table,
        Function.update state.threads tid ⟨op :: rest, .locked⟩⟩
  | work {op rest} (thread : state.threads tid = ⟨op :: rest, .locked⟩) :
      Moved state tid ⟨none, state.table,
        Function.update state.threads tid ⟨op :: rest, .working⟩⟩
  | finish {op rest} (thread : state.threads tid = ⟨op :: rest, .working⟩) :
      Moved state tid ⟨state.mutex, state.table,
        Function.update state.threads tid ⟨op :: rest, .leaving⟩⟩
  | reenter {op rest} (thread : state.threads tid = ⟨op :: rest, .leaving⟩)
      (free : state.mutex = none) :
      Moved state tid ⟨some tid, state.table,
        Function.update state.threads tid ⟨op :: rest, .unlocking⟩⟩
  | release {op rest} (thread : state.threads tid = ⟨op :: rest, .unlocking⟩) :
      Moved state tid ⟨state.mutex, state.table.release op tid,
        Function.update state.threads tid ⟨op :: rest, .unlocked⟩⟩
  | leave {op rest} (thread : state.threads tid = ⟨op :: rest, .unlocked⟩) :
      Moved state tid ⟨none, state.table, Function.update state.threads tid ⟨rest, .outside⟩⟩

/-- The step function takes exactly these steps. -/
theorem step_eq_some_iff (state next : State Tid htsize) (tid : Tid) :
    step state tid = some next ↔ Moved state tid next := by
  constructor
  · intro stepped
    obtain ⟨mutex, table, threads⟩ := state
    simp only [step, State.goto] at stepped
    cases thread : threads tid with
    | mk ops pc =>
        cases ops with
        | nil => simp [thread] at stepped
        | cons op rest =>
            cases pc <;> simp only [thread] at stepped
            · split at stepped
              · cases stepped
                exact .enter thread (by assumption)
              · cases stepped
            · cases stepped
              exact .ensure thread
            · obtain ⟨taken, acquired, rfl⟩ := Option.map_eq_some_iff.1 stepped
              exact .acquire thread acquired
            · cases stepped
              exact .work thread
            · cases stepped
              exact .finish thread
            · split at stepped
              · cases stepped
                exact .reenter thread (by assumption)
              · cases stepped
            · cases stepped
              exact .release thread
            · cases stepped
              exact .leave thread
  · intro moved
    cases moved <;> simp_all [step, State.goto]

omit [DecidableEq Tid] in
theorem start_places (workload : Tid → List (Op htsize)) :
    Places (start workload).mutex (start workload).threads where
  rest tid _ := rfl
  inside tid := by simp [start, Pc.inside]

omit [DecidableEq Tid] in
theorem start_kept (workload : Tid → List (Op htsize)) :
    Kept (start workload).table (start workload).threads where
  mapped tid op engaged := by simp [start, Thread.engaged, Pc.holds] at engaged
  guards index lock read := by simp [start] at read
  pool lock member := by simp [start] at member

/-- One thread moves and the mutex follows it. -/
theorem Places.update {mutex next : Option Tid} {threads : Tid → Thread htsize}
    (places : Places mutex threads) {tid : Tid} {thread : Thread htsize}
    (rest : thread.ops = [] → thread.pc = .outside)
    (inside : thread.pc.inside = true ↔ next = some tid)
    (others : ∀ other, other ≠ tid → (mutex = some other ↔ next = some other)) :
    Places next (Function.update threads tid thread) where
  rest other := by
    by_cases same : other = tid
    · subst same
      simpa using rest
    · simpa [Function.update_of_ne same] using places.rest other
  inside other := by
    by_cases same : other = tid
    · subst same
      simpa using inside
    · simpa [Function.update_of_ne same, places.inside other] using others other same

/-- A step that keeps what its thread holds keeps the locks in step. -/
theorem Kept.still {table : HashTable Tid htsize} {threads : Tid → Thread htsize}
    (kept : Kept table threads) {tid : Tid} {thread : Thread htsize}
    (held : thread.held = (threads tid).held)
    (engaged : ∀ op, thread.engaged = some op → table.rwlock op.index ≠ none) :
    Kept table (Function.update threads tid thread) where
  mapped other op := by
    by_cases same : other = tid
    · subst same
      rw [Function.update_self]
      exact engaged op
    · simpa [Function.update_of_ne same] using kept.mapped other op
  guards index lock read := by
    apply (kept.guards index lock read).congr
    intro other exclusive
    by_cases same : other = tid
    · subst same
      rw [Function.update_self, held]
    · rw [Function.update_of_ne same]
  pool := kept.pool

omit [DecidableEq Tid] in
/-- A lock from the pool has no holder. -/
theorem HashTable.poolGet_new {table : HashTable Tid htsize}
    (fresh : ∀ lock ∈ table.pool, lock = RWLock.new) :
    table.poolGet.1 = RWLock.new ∧ ∀ lock ∈ table.poolGet.2, lock = RWLock.new := by
  unfold HashTable.poolGet
  cases pool : table.pool with
  | nil => simp
  | cons lock rest =>
      rw [pool] at fresh
      exact ⟨fresh lock (by simp), fun other member => fresh other (by simp [member])⟩

theorem Thread.held_engaged {thread : Thread htsize} {op : Op htsize} (held : thread.held = some op) :
    thread.engaged = some op := by
  simp only [Thread.held] at held
  split at held
  · simp_all [Thread.engaged]
  · simp at held

omit [DecidableEq Tid] in
/-- The first user of a bucket brings a lock without holders. -/
theorem Kept.ensured {table : HashTable Tid htsize} {threads : Tid → Thread htsize}
    (kept : Kept table threads) (index : Fin htsize) : Kept (table.ensureLock index) threads := by
  cases read : table.rwlock index with
  | some lock => simpa only [HashTable.ensureLock, read] using kept
  | none =>
      simp only [HashTable.ensureLock, read]
      refine ⟨?_, ?_, (HashTable.poolGet_new kept.pool).2⟩
      · intro tid op engaged
        by_cases same : op.index = index
        · simp [same]
        · simpa [Function.update_of_ne same] using kept.mapped tid op engaged
      · intro other lock found
        by_cases same : other = index
        · subst same
          simp only [Function.update_self, Option.some.injEq] at found
          rw [← found, (HashTable.poolGet_new kept.pool).1]
          have nobody : ∀ tid exclusive, (threads tid).held ≠ some ⟨other, exclusive⟩ := by
            intro tid exclusive held
            exact kept.mapped tid ⟨other, exclusive⟩ (Thread.held_engaged held) read
          constructor
          · simp [RWLock.new, nobody]
          · simp [RWLock.new, nobody]
          · exact Or.inl rfl
          · rfl
        · simp only [Function.update_of_ne same] at found
          exact kept.guards other lock found

/-- The lock lets a thread in only beside compatible holders. -/
theorem Guards.acquired {threads : Tid → Thread htsize} {op : Op htsize} {lock taken : RWLock Tid}
    (guards : Guards threads op.index lock) {tid : Tid} {thread : Thread htsize}
    (before : (threads tid).held = none) (after : thread.held = some op)
    (entered : (if op.exclusive then lock.wrlock tid else lock.rdlock tid) = some taken) :
    Guards (Function.update threads tid thread) op.index taken := by
  have heldUpdate : ∀ other exclusive,
      (Function.update threads tid thread other).held = some ⟨op.index, exclusive⟩ ↔
        if other = tid then op.exclusive = exclusive
        else (threads other).held = some ⟨op.index, exclusive⟩ := by
    intro other exclusive
    by_cases same : other = tid
    · subst same
      rw [Function.update_self, after, if_pos rfl, Option.some.injEq]
      constructor
      · intro equal
        rw [equal]
      · intro equal
        rw [← equal]
    · rw [Function.update_of_ne same, if_neg same]
  have absent : tid ∉ lock.readers := by
    rw [guards.readers, before]
    simp
  cases mode : op.exclusive with
  | true =>
      simp only [mode, if_true, RWLock.wrlock, Option.ite_none_right_eq_some,
        Option.some.injEq] at entered
      obtain ⟨⟨noWriter, noReader⟩, rfl⟩ := entered
      refine ⟨fun other => ?_, fun other => ?_, Or.inr noReader, ?_⟩
      · rw [heldUpdate, mode, ← guards.readers, noReader]
        simp
      · rw [heldUpdate, mode, ← guards.writer, noWriter]
        by_cases same : other = tid
        · simp [same]
        · simp [same, Ne.symm same]
      · have counted := guards.counted
        simp only [noWriter, Option.toList_none, List.length_nil] at counted
        simp [counted]
  | false =>
      simp only [mode, Bool.false_eq_true, if_false, RWLock.rdlock, Option.ite_none_right_eq_some,
        Option.some.injEq] at entered
      obtain ⟨noWriter, rfl⟩ := entered
      refine ⟨fun other => ?_, fun other => ?_, Or.inl noWriter, ?_⟩
      · rw [heldUpdate, mode, Finset.mem_insert, guards.readers]
        by_cases same : other = tid <;> simp [same]
      · rw [heldUpdate, mode, ← guards.writer, noWriter]
        by_cases same : other = tid <;> simp [same]
      · have counted := guards.counted
        simp only [noWriter, Option.toList_none, List.length_nil, Nat.add_zero] at counted
        simp [counted, noWriter, Finset.card_insert_of_notMem absent]

/-- A thread that gets its bucket lock keeps the locks in step. -/
theorem Kept.acquired {table next : HashTable Tid htsize} {threads : Tid → Thread htsize}
    (kept : Kept table threads) {tid : Tid} {thread : Thread htsize} {op : Op htsize}
    (before : (threads tid).held = none) (after : thread.held = some op)
    (engaged : thread.engaged = some op) (taken : table.acquire op tid = some next) :
    Kept next (Function.update threads tid thread) := by
  cases read : table.rwlock op.index with
  | none => simp [HashTable.acquire, read] at taken
  | some lock =>
      simp only [HashTable.acquire, read] at taken
      obtain ⟨got, entered, rfl⟩ := Option.map_eq_some_iff.1 taken
      refine ⟨?_, ?_, kept.pool⟩
      · intro other otherOp now
        by_cases same : otherOp.index = op.index
        · simp [same]
        · simp only [Function.update_of_ne same]
          by_cases self : other = tid
          · subst self
            rw [Function.update_self, engaged, Option.some.injEq] at now
            exact absurd (congrArg Op.index now.symm) same
          · rw [Function.update_of_ne self] at now
            exact kept.mapped other otherOp now
      · intro index found foundRead
        by_cases same : index = op.index
        · subst same
          simp only [Function.update_self, Option.some.injEq] at foundRead
          subst foundRead
          exact (kept.guards op.index lock read).acquired before after entered
        · simp only [Function.update_of_ne same] at foundRead
          apply (kept.guards index found foundRead).congr
          intro other exclusive
          by_cases self : other = tid
          · subst self
            rw [Function.update_self, before, after]
            simp only [Option.some.injEq, reduceCtorEq, iff_false]
            intro equal
            exact same (congrArg Op.index equal).symm
          · rw [Function.update_of_ne self]

/-- A reader leaves the other readers, and a writer leaves nobody. -/
theorem Guards.released {threads : Tid → Thread htsize} {op : Op htsize} {lock : RWLock Tid}
    (guards : Guards threads op.index lock) {tid : Tid} {thread : Thread htsize}
    (before : (threads tid).held = some op) (after : thread.held = none) :
    Guards (Function.update threads tid thread) op.index (lock.release tid) ∧
      (op.exclusive = true ∨ (lock.release tid).cnt = 0 → lock.release tid = RWLock.new) := by
  have heldUpdate : ∀ other exclusive,
      (Function.update threads tid thread other).held = some ⟨op.index, exclusive⟩ ↔
        other ≠ tid ∧ (threads other).held = some ⟨op.index, exclusive⟩ := by
    intro other exclusive
    by_cases same : other = tid
    · subst same
      simp [after]
    · simp [same]
  have counted := guards.counted
  cases mode : op.exclusive with
  | true =>
      have owner : lock.writer = some tid := by
        rw [guards.writer, before, ← mode]
      have noReader : lock.readers = ∅ := guards.alone.resolve_left (by simp [owner])
      have shape : lock.release tid = RWLock.new := by
        simp only [noReader, owner, Finset.card_empty, Option.toList_some, List.length_singleton] at counted
        simp [RWLock.release, RWLock.unlock, counted, owner, noReader, RWLock.new]
      rw [shape]
      refine ⟨⟨fun other => ?_, fun other => ?_, Or.inl rfl, rfl⟩, fun _ => rfl⟩
      · rw [heldUpdate, ← guards.readers, noReader]
        simp [RWLock.new]
      · rw [heldUpdate, ← guards.writer, owner]
        simp only [RWLock.new, reduceCtorEq, Option.some.injEq, false_iff, not_and]
        intro apart same
        exact apart same.symm
  | false =>
      have member : tid ∈ lock.readers := by
        rw [guards.readers, before, ← mode]
      have noWriter : lock.writer = none :=
        guards.alone.resolve_right (Finset.ne_empty_of_mem member)
      have positive : 0 < lock.readers.card := Finset.card_pos.2 ⟨tid, member⟩
      have shape : lock.release tid = ⟨lock.cnt - 1, lock.readers.erase tid, none⟩ := by
        have counts : 0 < lock.cnt := by omega
        simp [RWLock.release, RWLock.unlock, counts, noWriter]
      have erased : lock.cnt - 1 = (lock.readers.erase tid).card := by
        rw [Finset.card_erase_of_mem member, counted, noWriter]
        simp
      rw [shape]
      refine ⟨⟨fun other => ?_, fun other => ?_, Or.inl rfl, ?_⟩, ?_⟩
      · rw [heldUpdate, Finset.mem_erase, guards.readers]
      · rw [heldUpdate, ← guards.writer, noWriter]
        simp
      · simpa using erased
      · rintro (no | last)
        · cases no
        · have empty : lock.readers.erase tid = ∅ := by
            rw [← Finset.card_eq_zero, ← erased]
            exact last
          simp only at last
          rw [RWLock.new, empty, last]

/-- A thread that returns its bucket lock keeps the locks in step when nobody waits for one. -/
theorem Kept.released {table : HashTable Tid htsize} {threads : Tid → Thread htsize}
    (kept : Kept table threads) {tid : Tid} {thread : Thread htsize} {op : Op htsize}
    (before : (threads tid).held = some op) (after : thread.held = none)
    (engaged : thread.engaged = none)
    (nobody : ∀ other, other ≠ tid → (threads other).engaged = (threads other).held) :
    Kept (table.release op tid) (Function.update threads tid thread) := by
  cases read : table.rwlock op.index with
  | none => exact absurd read (kept.mapped tid op (Thread.held_engaged before))
  | some lock =>
      obtain ⟨guards, last⟩ := (kept.guards op.index lock read).released before after
      have elsewhere : ∀ index, index ≠ op.index → ∀ found, table.rwlock index = some found →
          Guards (Function.update threads tid thread) index found := by
        intro index apart found foundRead
        apply (kept.guards index found foundRead).congr
        intro other exclusive
        by_cases self : other = tid
        · subst self
          rw [Function.update_self, before, after]
          simp only [reduceCtorEq, Option.some.injEq, false_iff]
          intro equal
          exact apart (congrArg Op.index equal).symm
        · rw [Function.update_of_ne self]
      have others : ∀ other otherOp,
          (Function.update threads tid thread other).engaged = some otherOp →
          other ≠ tid ∧ (threads other).engaged = some otherOp ∧
            (Function.update threads tid thread other).held = some otherOp := by
        intro other otherOp now
        by_cases self : other = tid
        · subst self
          rw [Function.update_self, engaged] at now
          cases now
        · rw [Function.update_of_ne self] at now ⊢
          exact ⟨self, now, (nobody other self).symm.trans now⟩
      simp only [HashTable.release, read]
      split
      · rename_i returned
        have empty := last returned
        rw [empty] at guards
        refine ⟨?_, ?_, ?_⟩
        · intro other otherOp now
          obtain ⟨apart, wasEngaged, holds⟩ := others other otherOp now
          by_cases same : otherOp.index = op.index
          · exfalso
            cases mode : otherOp.exclusive with
            | true =>
                have owner := (guards.writer other).2 (by rw [holds, ← same, ← mode])
                simp [RWLock.new] at owner
            | false =>
                have member := (guards.readers other).2 (by rw [holds, ← same, ← mode])
                simp [RWLock.new] at member
          · simpa [Function.update_of_ne same] using kept.mapped other otherOp wasEngaged
        · intro index found foundRead
          by_cases same : index = op.index
          · simp [same] at foundRead
          · simp only [Function.update_of_ne same] at foundRead
            exact elsewhere index same found foundRead
        · intro pooled member
          rcases List.mem_append.1 member with old | new
          · exact kept.pool pooled old
          · rw [List.mem_singleton.1 new, empty]
      · refine ⟨?_, ?_, kept.pool⟩
        · intro other otherOp now
          obtain ⟨apart, wasEngaged, -⟩ := others other otherOp now
          by_cases same : otherOp.index = op.index
          · simp [same]
          · simpa [Function.update_of_ne same] using kept.mapped other otherOp wasEngaged
        · intro index found foundRead
          by_cases same : index = op.index
          · subst same
            simp only [Function.update_self, Option.some.injEq] at foundRead
            subst foundRead
            exact guards
          · simp only [Function.update_of_ne same] at foundRead
            exact elsewhere index same found foundRead

omit [DecidableEq Tid] in
theorem ensureLock_ne_none (table : HashTable Tid htsize) (index : Fin htsize) :
    (table.ensureLock index).rwlock index ≠ none := by
  unfold HashTable.ensureLock
  cases read : table.rwlock index <;> simp [read]

/-- The mutex and the bucket locks are in step with the threads. -/
def Inv (state : State Tid htsize) : Prop :=
  Places state.mutex state.threads ∧ Kept state.table state.threads

omit [DecidableEq Tid] in
/-- Only the owner of the mutex can wait for a bucket lock. -/
theorem Places.not_waiting {mutex : Option Tid} {threads : Tid → Thread htsize}
    (places : Places mutex threads) {tid other : Tid} (owner : (threads tid).pc.inside = true)
    (apart : other ≠ tid) : (threads other).engaged = (threads other).held := by
  have notWaiting : (threads other).pc ≠ .waiting := by
    intro waiting
    have first := (places.inside tid).1 owner
    have second := (places.inside other).1 (by rw [waiting]; rfl)
    rw [first, Option.some.injEq] at second
    exact apart second.symm
  simp [Thread.engaged, Thread.held, notWaiting]

/-- Every step keeps the invariant. -/
theorem Moved.inv {state next : State Tid htsize} {tid : Tid} (moved : Moved state tid next)
    (inv : Inv state) : Inv next := by
  obtain ⟨places, kept⟩ := inv
  cases moved with
  | enter thread free =>
      refine ⟨places.update (by simp) (by simp [Pc.inside]) ?_, kept.still ?_ ?_⟩
      · intro other apart
        simp [free, Ne.symm apart]
      · simp [thread, Thread.held, Pc.holds]
      · simp [Thread.engaged, Pc.holds]
  | @ensure op rest thread =>
      have owner := places.inside tid
      rw [thread] at owner
      refine ⟨places.update (by simp) owner (fun _ _ => Iff.rfl),
        (kept.ensured op.index).still ?_ ?_⟩
      · simp [thread, Thread.held, Pc.holds]
      · simp only [Thread.engaged, or_true, if_true, List.head?_cons, Option.some.injEq, forall_eq']
        exact ensureLock_ne_none _ _
  | acquire thread taken =>
      have owner := places.inside tid
      rw [thread] at owner
      refine ⟨places.update (by simp) owner (fun _ _ => Iff.rfl), kept.acquired ?_ ?_ ?_ taken⟩
      · simp [thread, Thread.held, Pc.holds]
      · simp [Thread.held, Pc.holds]
      · simp [Thread.engaged, Pc.holds]
  | work thread =>
      have owner := (places.inside tid).1 (by rw [thread]; rfl)
      refine ⟨places.update (by simp) (by simp [Pc.inside]) ?_, kept.still ?_ ?_⟩
      · intro other apart
        simp [owner, Ne.symm apart]
      · simp [thread, Thread.held, Pc.holds]
      · intro op engaged
        apply kept.mapped tid op
        simpa [thread, Thread.engaged, Pc.holds] using engaged
  | finish thread =>
      have owner := places.inside tid
      rw [thread] at owner
      refine ⟨places.update (by simp) owner (fun _ _ => Iff.rfl), kept.still ?_ ?_⟩
      · simp [thread, Thread.held, Pc.holds]
      · intro op engaged
        apply kept.mapped tid op
        simpa [thread, Thread.engaged, Pc.holds] using engaged
  | reenter thread free =>
      refine ⟨places.update (by simp) (by simp [Pc.inside]) ?_, kept.still ?_ ?_⟩
      · intro other apart
        simp [free, Ne.symm apart]
      · simp [thread, Thread.held, Pc.holds]
      · intro op engaged
        apply kept.mapped tid op
        simpa [thread, Thread.engaged, Pc.holds] using engaged
  | release thread =>
      have owner := places.inside tid
      rw [thread] at owner
      refine ⟨places.update (by simp) owner (fun _ _ => Iff.rfl), kept.released ?_ ?_ ?_ ?_⟩
      · simp [thread, Thread.held, Pc.holds]
      · simp [Thread.held, Pc.holds]
      · simp [Thread.engaged, Pc.holds]
      · intro other apart
        exact places.not_waiting (by rw [thread]; rfl) apart
  | leave thread =>
      have owner := (places.inside tid).1 (by rw [thread]; rfl)
      refine ⟨places.update (by simp) (by simp [Pc.inside]) ?_, kept.still ?_ ?_⟩
      · intro other apart
        simp [owner, Ne.symm apart]
      · simp [thread, Thread.held, Pc.holds]
      · simp [Thread.engaged, Pc.holds]

/-- Every reachable state keeps the invariant. -/
theorem Reachable.inv {workload : Tid → List (Op htsize)} {state : State Tid htsize}
    (reachable : Reachable workload state) : Inv state := by
  induction reachable with
  | refl => exact ⟨start_places workload, start_kept workload⟩
  | tail _ moves inv =>
      obtain ⟨tid, stepped⟩ := moves
      exact ((step_eq_some_iff _ _ tid).1 stepped).inv inv

/-- A thread only works off its own operations. -/
theorem Reachable.suffix {workload : Tid → List (Op htsize)} {state : State Tid htsize}
    (reachable : Reachable workload state) (tid : Tid) :
    (state.threads tid).ops <:+ workload tid := by
  induction reachable with
  | refl => exact List.suffix_refl _
  | tail _ moves shorter =>
      obtain ⟨mover, stepped⟩ := moves
      refine List.IsSuffix.trans ?_ shorter
      have moved := (step_eq_some_iff _ _ mover).1 stepped
      by_cases same : tid = mover
      · subst same
        cases moved <;> simp_all
      · cases moved <;> simp [Function.update_of_ne same]

end SimpleNFast.Rdb.Locks
