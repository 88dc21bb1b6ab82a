import SimpleNFast.Construction.Rdb.CloseProtocol

namespace SimpleNFast.Rdb.Closing

variable {Tid : Type} [DecidableEq Tid]

/-- The operation holds the counter mutex at these places. -/
def OpPc.critical : OpPc → Bool
  | .incrementing | .incremented | .decrementing | .decremented => true
  | _ => false

/-- The call of `close` holds the counter mutex at these places. -/
def ClosePc.critical : ClosePc → Bool
  | .checking | .deletingValueFile | .deletingKeyFile | .deletingCache | .deletingHashTable
  | .deleted => true
  | _ => false

/-- The owner of the counter mutex is the call that stands inside it. -/
structure Places (opMutex : Option (Party Tid)) (ops : Tid → OpPc) (closing : ClosePc) : Prop where
  ops : ∀ tid, (ops tid).critical = true ↔ opMutex = some (.op tid)
  closing : closing.critical = true ↔ opMutex = some .close

/-- The counter is the number of operations between their two updates. -/
def Counts (opCount : Int) (ops : Tid → OpPc) : Prop :=
  ∃ members : Finset Tid, (∀ tid, tid ∈ members ↔ (ops tid).between = true) ∧
    opCount = members.card

/-- Every reachable state counts its operations, and `close` deletes only at zero. -/
structure Inv (state : State Tid) : Prop where
  places : Places state.opMutex state.ops state.closing
  counts : Counts state.opCount state.ops
  quiet : state.closing.deletes = true → ¬ 0 < state.opCount

theorem Places.update {opMutex next : Option (Party Tid)} {ops : Tid → OpPc} {closing : ClosePc}
    (places : Places opMutex ops closing) {tid : Tid} {pc : OpPc}
    (inside : pc.critical = true ↔ next = some (.op tid))
    (others : ∀ party, party ≠ .op tid → (opMutex = some party ↔ next = some party)) :
    Places next (Function.update ops tid pc) closing where
  ops other := by
    by_cases same : other = tid
    · subst same
      simpa using inside
    · rw [Function.update_of_ne same, places.ops other]
      exact others _ (by simpa using same)
  closing := by
    rw [places.closing]
    exact others _ (by simp)

/-- The counter follows the operation that moves. -/
theorem Counts.update {opCount next : Int} {ops : Tid → OpPc} (counts : Counts opCount ops)
    {tid : Tid} {pc : OpPc}
    (change : next = opCount + (if pc.between then 1 else 0) - (if (ops tid).between then 1 else 0)) :
    Counts next (Function.update ops tid pc) := by
  obtain ⟨members, exactly, size⟩ := counts
  have elsewhere : ∀ other, other ≠ tid →
      ((Function.update ops tid pc other).between = true ↔ other ∈ members) := by
    intro other apart
    rw [Function.update_of_ne apart, exactly]
  cases after : pc.between with
  | true =>
      refine ⟨insert tid members, ?_, ?_⟩
      · intro other
        by_cases same : other = tid
        · simp [same, after]
        · rw [elsewhere other same, Finset.mem_insert]
          simp [same]
      · by_cases before : tid ∈ members
        · have counted := (exactly tid).1 before
          rw [Finset.insert_eq_of_mem before]
          simp only [after, counted, if_true] at change
          omega
        · have counted : (ops tid).between = false := by
            simpa using mt (exactly tid).2 before
          rw [Finset.card_insert_of_notMem before]
          simp only [after, counted, if_true, Bool.false_eq_true, if_false] at change
          push_cast
          omega
  | false =>
      refine ⟨members.erase tid, ?_, ?_⟩
      · intro other
        by_cases same : other = tid
        · simp [same, after]
        · rw [elsewhere other same, Finset.mem_erase]
          simp [same]
      · by_cases before : tid ∈ members
        · have counted := (exactly tid).1 before
          have positive := Finset.card_pos.2 ⟨tid, before⟩
          rw [Finset.card_erase_of_mem before]
          simp only [after, counted, if_true, Bool.false_eq_true, if_false] at change
          omega
        · have counted : (ops tid).between = false := by
            simpa using mt (exactly tid).2 before
          rw [Finset.erase_eq_of_notMem before]
          simp only [after, counted, Bool.false_eq_true, if_false] at change
          omega

omit [DecidableEq Tid] in
theorem start_inv : Inv (start : State Tid) where
  places := ⟨by simp [start, OpPc.critical], by simp [start, ClosePc.critical]⟩
  counts := ⟨∅, by simp [start, OpPc.between], by simp [start]⟩
  quiet := by simp [start, ClosePc.deletes]

omit [DecidableEq Tid] in
/-- No operation is inside the counter mutex while `close` deletes. -/
theorem Inv.excluded {state : State Tid} (inv : Inv state) (tid : Tid)
    (inside : (state.ops tid).critical = true) : state.closing.deletes = false := by
  have owner := (inv.places.ops tid).1 inside
  cases deletes : state.closing.deletes with
  | false => rfl
  | true =>
      have holds : state.closing.critical = true := by
        cases place : state.closing <;> simp_all [ClosePc.deletes, ClosePc.critical]
      have other := inv.places.closing.1 holds
      rw [owner] at other
      cases other

/-- Every step of an operation keeps the invariant. -/
theorem opStep_inv {state next : State Tid} {tid : Tid} (stepped : opStep state tid = some next)
    (inv : Inv state) : Inv next := by
  have excluded := inv.excluded tid
  have owner := inv.places.ops tid
  cases place : state.ops tid <;>
    simp only [opStep, place, State.goto, Option.ite_none_right_eq_some, reduceCtorEq,
      Option.some.injEq] at stepped <;>
    rw [place] at excluded owner
  case start =>
      obtain ⟨free, rfl⟩ := stepped
      exact ⟨inv.places.update (by simp [OpPc.critical]) (by simp [free, eq_comm]),
        inv.counts.update (by simp [place, OpPc.between]), inv.quiet⟩
  case incrementing =>
      subst stepped
      refine ⟨inv.places.update owner (fun _ _ => Iff.rfl),
        inv.counts.update (by simp [place, OpPc.between]), ?_⟩
      simp [excluded rfl]
  case incremented =>
      subst stepped
      have held := owner.1 rfl
      exact ⟨inv.places.update (by simp [OpPc.critical]) (by simp [held, eq_comm]),
        inv.counts.update (by simp [place, OpPc.between]), inv.quiet⟩
  case counted =>
      subst stepped
      refine ⟨inv.places.update ?_ (fun _ _ => Iff.rfl), inv.counts.update ?_, inv.quiet⟩
      · cases state.hashTable <;> exact owner
      · cases state.hashTable <;> simp [place, OpPc.between]
  case guarded =>
      obtain ⟨free, rfl⟩ := stepped
      exact ⟨inv.places.update (by simp [OpPc.critical]) (by simp [free, eq_comm]),
        inv.counts.update (by simp [place, OpPc.between]), inv.quiet⟩
  case decrementing =>
      subst stepped
      refine ⟨inv.places.update owner (fun _ _ => Iff.rfl),
        inv.counts.update (by simp [place, OpPc.between]), ?_⟩
      simp [excluded rfl]
  case decremented =>
      subst stepped
      have held := owner.1 rfl
      exact ⟨inv.places.update (by simp [OpPc.critical]) (by simp [held, eq_comm]),
        inv.counts.update (by simp [place, OpPc.between]), inv.quiet⟩
  case lingering =>
      subst stepped
      exact ⟨inv.places.update owner (fun _ _ => Iff.rfl),
        inv.counts.update (by simp [place, OpPc.between]), inv.quiet⟩

omit [DecidableEq Tid] in
/-- Every step of `close` keeps the invariant. -/
theorem closeStep_inv {state next : State Tid} (stepped : closeStep state = some next)
    (inv : Inv state) : Inv next := by
  have owner := inv.places.closing
  cases place : state.closing <;>
    simp only [closeStep, place, reduceCtorEq, Option.some.injEq] at stepped <;>
    rw [place] at owner
  case start =>
      simp only [Option.ite_none_right_eq_some, Option.some.injEq] at stepped
      obtain ⟨-, rfl⟩ := stepped
      exact ⟨⟨inv.places.ops, owner⟩, inv.counts, by simp [ClosePc.deletes]⟩
  case opened =>
      split at stepped
      · cases stepped
        exact ⟨⟨inv.places.ops, owner⟩, inv.counts, by simp [ClosePc.deletes]⟩
      · simp only [Option.ite_none_right_eq_some, Option.some.injEq] at stepped
        obtain ⟨free, rfl⟩ := stepped
        refine ⟨⟨fun tid => ?_, by simp [ClosePc.critical]⟩, inv.counts, by simp [ClosePc.deletes]⟩
        rw [inv.places.ops tid, free]
        simp
  case checking =>
      have held := owner.1 rfl
      split at stepped
      · cases stepped
        refine ⟨⟨fun tid => ?_, by simp [ClosePc.critical]⟩, inv.counts, by simp [ClosePc.deletes]⟩
        rw [inv.places.ops tid, held]
        simp
      · cases stepped
        rename_i quiet
        exact ⟨⟨inv.places.ops, owner⟩, inv.counts, fun _ => quiet⟩
  case deletingValueFile =>
      subst stepped
      exact ⟨⟨inv.places.ops, owner⟩, inv.counts, fun _ => inv.quiet (by rw [place]; rfl)⟩
  case deletingKeyFile =>
      subst stepped
      exact ⟨⟨inv.places.ops, owner⟩, inv.counts, fun _ => inv.quiet (by rw [place]; rfl)⟩
  case deletingCache =>
      subst stepped
      exact ⟨⟨inv.places.ops, owner⟩, inv.counts, fun _ => inv.quiet (by rw [place]; rfl)⟩
  case deletingHashTable =>
      subst stepped
      exact ⟨⟨inv.places.ops, owner⟩, inv.counts, by simp [ClosePc.deletes]⟩
  case deleted =>
      subst stepped
      have held := owner.1 rfl
      refine ⟨⟨fun tid => ?_, by simp [ClosePc.critical]⟩, inv.counts, by simp [ClosePc.deletes]⟩
      rw [inv.places.ops tid, held]
      simp

/-- Every reachable state keeps the invariant. -/
theorem Reachable.inv {state : State Tid} (reachable : Reachable state) : Inv state := by
  induction reachable with
  | refl => exact start_inv
  | tail _ moves inv =>
      rcases moves with ⟨tid, stepped⟩ | stepped
      · exact opStep_inv stepped inv
      · exact closeStep_inv stepped inv

omit [DecidableEq Tid] in
/-- While `close` deletes, an operation has not begun, has finished or keeps its guard too long. -/
theorem Inv.deleting {state : State Tid} (inv : Inv state)
    (deletes : state.closing.deletes = true) (tid : Tid) :
    state.ops tid = .start ∨ state.ops tid = .finished ∨ state.ops tid = .lingering := by
  obtain ⟨members, exactly, size⟩ := inv.counts
  have quiet := inv.quiet deletes
  have empty : members = ∅ := by
    rw [← Finset.card_eq_zero]
    omega
  have outside : (state.ops tid).between = false := by
    have absent := exactly tid
    rw [empty] at absent
    simpa using absent
  have uncritical : (state.ops tid).critical = false := by
    cases inside : (state.ops tid).critical with
    | false => rfl
    | true =>
        rw [inv.excluded tid inside] at deletes
        cases deletes
  cases place : state.ops tid <;> simp_all [OpPc.between, OpPc.critical]

/-- The deletion has begun at these places. -/
def ClosePc.begun : ClosePc → Bool
  | .deletingValueFile | .deletingKeyFile | .deletingCache | .deletingHashTable | .deleted
  | .closed => true
  | _ => false

/-- After a deletion without a kept guard, an operation is over, has not begun, or is counted before
it finds no hash table. -/
def OpPc.harmless (closing : ClosePc) : OpPc → Bool
  | .start | .finished | .aborted => true
  | .incrementing | .incremented | .counted => closing == .closed
  | _ => false

/-- The deletion has begun and no operation can use the hash table any more. -/
structure Sealed (state : State Tid) : Prop where
  begun : state.closing.begun = true
  mutex : state.closing = .closed ∨ state.opMutex = some .close
  table : state.closing.deletes = true ∨ state.hashTable = false
  ops : ∀ tid, (state.ops tid).harmless state.closing = true

theorem Sealed.opStep {state next : State Tid} {tid : Tid} (done : Sealed state)
    (stepped : opStep state tid = some next) : Sealed next := by
  obtain ⟨begun, mutex, table, ops⟩ := done
  have others : ∀ pc : OpPc, pc.harmless state.closing = true → ∀ other,
      (Function.update state.ops tid pc other).harmless state.closing = true := by
    intro pc allowed other
    by_cases same : other = tid
    · subst same
      simpa using allowed
    · simpa [Function.update_of_ne same] using ops other
  have here := ops tid
  cases place : state.ops tid <;> rw [place] at here <;>
    simp only [OpPc.harmless, beq_iff_eq, Bool.false_eq_true] at here <;>
    simp only [Closing.opStep, place, State.goto, Option.ite_none_right_eq_some, reduceCtorEq,
      Option.some.injEq] at stepped
  case start =>
      obtain ⟨free, rfl⟩ := stepped
      have closed : state.closing = .closed := mutex.resolve_right (by simp [free])
      exact ⟨begun, Or.inl closed, table, others _ (by simp [OpPc.harmless, closed])⟩
  case incrementing =>
      subst stepped
      exact ⟨begun, mutex, table, others _ (by simp [OpPc.harmless, here])⟩
  case incremented =>
      subst stepped
      exact ⟨begun, Or.inl here, table, others _ (by simp [OpPc.harmless, here])⟩
  case counted =>
      subst stepped
      have gone : state.hashTable = false := table.resolve_left (by simp [here, ClosePc.deletes])
      exact ⟨begun, mutex, table, others _ (by simp [OpPc.harmless, gone])⟩

omit [DecidableEq Tid] in
theorem Sealed.closeStep {state next : State Tid} (done : Sealed state)
    (stepped : closeStep state = some next) : Sealed next := by
  obtain ⟨begun, mutex, table, ops⟩ := done
  cases place : state.closing <;> rw [place] at begun mutex table ops <;>
    simp only [ClosePc.begun, Bool.false_eq_true] at begun <;>
    simp only [Closing.closeStep, place, reduceCtorEq, Option.some.injEq] at stepped
  case deletingValueFile =>
      subst stepped
      exact ⟨rfl, Or.inr (mutex.resolve_left (by simp)), Or.inl rfl, ops⟩
  case deletingKeyFile =>
      subst stepped
      exact ⟨rfl, Or.inr (mutex.resolve_left (by simp)), Or.inl rfl, ops⟩
  case deletingCache =>
      subst stepped
      exact ⟨rfl, Or.inr (mutex.resolve_left (by simp)), Or.inl rfl, ops⟩
  case deletingHashTable =>
      subst stepped
      exact ⟨rfl, Or.inr (mutex.resolve_left (by simp)), Or.inr rfl, ops⟩
  case deleted =>
      subst stepped
      refine ⟨rfl, Or.inl rfl, Or.inr (table.resolve_left (by simp [ClosePc.deletes])), fun tid => ?_⟩
      have here := ops tid
      cases at_ : state.ops tid <;> simp_all [OpPc.harmless]

/-- A sealed state stays sealed, so no operation uses the hash table later. -/
theorem Sealed.later {state later : State Tid} (done : Sealed state)
    (moves : Relation.ReflTransGen Moves state later) : Sealed later := by
  induction moves with
  | refl => exact done
  | tail _ step sealedThere =>
      rcases step with ⟨tid, stepped⟩ | stepped
      · exact sealedThere.opStep stepped
      · exact sealedThere.closeStep stepped

omit [DecidableEq Tid] in
theorem Sealed.not_dereferences {state : State Tid} (done : Sealed state) (tid : Tid) :
    ¬ Dereferences state tid := by
  have here := done.ops tid
  rintro (⟨counted, table⟩ | guarded | lingering)
  · rw [counted] at here
    simp only [OpPc.harmless, beq_iff_eq] at here
    have gone := done.table.resolve_left (by simp [here, ClosePc.deletes])
    rw [gone] at table
    cases table
  · simp [guarded, OpPc.harmless] at here
  · simp [lingering, OpPc.harmless] at here

/-- While `close` deletes, no operation is touched exactly when none stands between its decrement
and the release of its guard. -/
theorem close_safe_iff_none_lingering {state : State Tid} (reachable : Reachable state)
    (deletes : state.closing.deletes = true) :
    Safe state ↔ ∀ tid, state.ops tid ≠ .lingering := by
  have inv := reachable.inv
  constructor
  · intro safe tid lingering
    have released := (safe tid).1
    simp [lingering, OpPc.holdsGuard] at released
  · intro none tid
    have place : ∀ other, state.ops other = .start ∨ state.ops other = .finished := by
      intro other
      rcases inv.deleting deletes other with begins | finished | lingering
      · exact Or.inl begins
      · exact Or.inr finished
      · exact absurd lingering (none other)
    have closeHolds : state.closing.critical = true := by
      cases place : state.closing <;> simp_all [ClosePc.deletes, ClosePc.critical]
    have done : Sealed state := by
      refine ⟨?_, Or.inr (inv.places.closing.1 closeHolds), Or.inl deletes, fun other => ?_⟩
      · cases place : state.closing <;> simp_all [ClosePc.deletes, ClosePc.begun]
      · rcases place other with begins | finished
        · simp [begins, OpPc.harmless]
        · simp [finished, OpPc.harmless]
    refine ⟨?_, ?_, fun later moves => (done.later moves).not_dereferences tid⟩
    · rcases place tid with begins | finished
      · simp [begins, OpPc.holdsGuard]
      · simp [finished, OpPc.holdsGuard]
    · rcases place tid with begins | finished
      · simp [begins, OpPc.between]
      · simp [finished, OpPc.between]

/-- A schedule names the call that moves next. -/
def follow : List (Party Tid) → State Tid → Option (State Tid)
  | [], state => some state
  | .op tid :: rest, state => (opStep state tid).bind (follow rest)
  | .close :: rest, state => (closeStep state).bind (follow rest)

theorem follow_reachable (schedule : List (Party Tid)) {state next : State Tid}
    (reachable : Reachable state) (followed : follow schedule state = some next) : Reachable next := by
  induction schedule generalizing state with
  | nil =>
      cases followed
      exact reachable
  | cons party rest restReaches =>
      cases party with
      | op tid =>
          obtain ⟨middle, stepped, rested⟩ := Option.bind_eq_some_iff.1 followed
          exact restReaches (reachable.tail (Or.inl ⟨tid, stepped⟩)) rested
      | close =>
          obtain ⟨middle, stepped, rested⟩ := Option.bind_eq_some_iff.1 followed
          exact restReaches (reachable.tail (Or.inr stepped)) rested

/-- The call of `close` alone begins its deletion. -/
def closeAlone : State Unit :=
  ⟨0, some .close, some .close, true, true, fun _ => .start, .deletingValueFile⟩

theorem closeAlone_reachable : Reachable closeAlone :=
  follow_reachable [.close, .close, .close] .refl rfl

theorem close_safe_iff_none_lingering_alone : Safe closeAlone :=
  (close_safe_iff_none_lingering closeAlone_reachable rfl).2 (by simp [closeAlone])

/-- One operation gives up its count, and `close` deletes before the guard is released. -/
def lateGuard : State Unit :=
  ⟨0, some .close, some .close, true, true, fun _ => .lingering, .deletingValueFile⟩

theorem close_deletes_under_guard :
    Reachable lateGuard ∧ lateGuard.closing.deletes = true ∧ ¬ Safe lateGuard := by
  refine ⟨?_, rfl, ?_⟩
  · exact follow_reachable [.op (), .op (), .op (), .op (), .op (), .op (), .op (), .close, .close,
      .close] .refl rfl
  · intro safe
    have released := (safe ()).1
    simp [lateGuard, OpPc.holdsGuard] at released

end SimpleNFast.Rdb.Closing
