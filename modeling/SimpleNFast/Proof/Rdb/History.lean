import SimpleNFast.Proof.Rdb.Prime
import SimpleNFast.Proof.Rdb.Commands

namespace SimpleNFast.Rdb
open Program FreeStack

/-- A closed database; before its first opening it has no files. -/
structure Shut (strict : Prop) (world : World) (map : ByteMap) (created : Bool) : Prop where
  sized : Sized world.kpSize world.htSize
  stored : ∃ store, Closed strict world store map ∧ Sized store.kpSize store.htSize
  made : world.created = created
  fresh : created = false → world.attr = none ∧ world.idx = [] ∧ world.db = [] ∧ map = fun _ => none
  attr : created = true → world.attr ≠ none

/-- The database of a view. -/
inductive Shown (strict : Prop) (world : World) (view : View) : Prop
  | opened {chains : Nat → Chain} {lists : Nat → List Nat}
      (state : Opened strict True world chains lists view.content) (sized : Sized world.kpSize world.htSize)
      (isOpen : view.opened = true) (created : view.created = true)
  | closed (state : Shut strict world view.content view.created) (isShut : view.opened = false)

/-- The call answers as the view does, or an operation failed and the call reports it and changes nothing. -/
def Answers (strict : Prop) (fails : Failures) (view : View) (command : Command) (reply : Reply)
    (later : World) : Prop :=
  (view.reply command = some reply ∧
      Shown strict later (if reply.code = .E_ok then view.after command else view)) ∨
    (reply.code ≠ .E_ok ∧ (∃ op, fails op = true) ∧ Shown False later view)

/-- A call aborts on a closed database, or when it removes a key that is there. -/
def Halts (view : View) (command : Command) (stop : Stop) : Prop :=
  stop = .aborted ∧ (view.reply command = none ∨ ∃ key, command = .remove key ∧ view.content key ≠ none)

namespace Shut

variable {strict : Prop} {world : World} {map : ByteMap} {created : Bool}

/-- A new database has no files. -/
theorem init {kpsize htsize poolSize : Nat} (sized : numOfKeysInPage kpsize < 2 ^ 15)
    (made : World.init kpsize htsize poolSize = some world) : Shut strict world (fun _ => none) false := by
  unfold World.init at made
  split at made
  · rename_i geometry
    have large : minKeyPageSize ≤ kpsize := by
      simp only [validGeometry, Bool.and_eq_true, decide_eq_true_eq] at geometry
      exact geometry.1.1
    have sizes : Sized kpsize (nextPrime htsize) := ⟨large, Nat.le_of_lt_succ sized, nextPrime_pos htsize⟩
    obtain ⟨valid, holds⟩ : Valid strict (Store.empty kpsize (nextPrime htsize)) ∧ _ := sizes.empty
    cases made
    refine ⟨sizes, ⟨Store.empty kpsize (nextPrime htsize), ?_, sizes⟩, rfl, fun _ => ⟨rfl, rfl, rfl, rfl⟩, ?_⟩
    · exact ⟨valid, holds, rfl, rfl, rfl, rfl, rfl, rfl⟩
    · intro impossible
      cases impossible
  · cases made

/-- Other sizes of the members matter only when there are no files. -/
theorem resize (shut : Shut strict world map created) {kpSize htSize : Nat} (sized : Sized kpSize htSize) :
    Shut strict { world with kpSize := kpSize, htSize := htSize } map created := by
  obtain ⟨store, closed, sizes⟩ := shut.stored
  refine ⟨sized, ?_, shut.made, shut.fresh, shut.attr⟩
  cases created with
  | true =>
      obtain ⟨attr, known⟩ := Option.ne_none_iff_exists'.1 (shut.attr rfl)
      refine ⟨store, ⟨closed.valid, closed.holds, closed.idx, closed.db, ?_, closed.opened, closed.table,
        closed.idle⟩, sizes⟩
      have before := closed.attr
      rw [known] at before
      show world.attr.getD (kpSize, htSize) = _
      rw [known]
      exact before
  | false =>
      obtain ⟨attr, idx, db, empty⟩ := shut.fresh rfl
      obtain ⟨valid, holds⟩ : Valid strict (Store.empty kpSize htSize) ∧ _ := sized.empty
      refine ⟨Store.empty kpSize htSize, ⟨valid, ?_, idx, db, ?_, closed.opened, closed.table, closed.idle⟩, sized⟩
      · rw [empty]
        exact holds
      · show world.attr.getD (kpSize, htSize) = _
        rw [attr]
        rfl

theorem mono {later : Prop} (shut : Shut strict world map created) (implies : later → strict) :
    Shut later world map created := by
  obtain ⟨store, closed, sizes⟩ := shut.stored
  exact { shut with stored := ⟨store, { closed with valid := closed.valid.mono implies }, sizes⟩ }

end Shut

theorem Closed.mono {strict later : Prop} {world : World} {store : Store} {map : ByteMap}
    (closed : Closed strict world store map) (implies : later → strict) : Closed later world store map :=
  { closed with valid := closed.valid.mono implies }

namespace Shown

variable {strict later : Prop} {world : World} {view : View}

theorem mono (shown : Shown strict world view) (implies : later → strict) : Shown later world view := by
  cases shown with
  | opened state sized isOpen created =>
      exact .opened { state with valid := state.valid.mono implies } sized isOpen created
  | closed state isShut => exact .closed (state.mono implies) isShut

end Shown

section Steps

variable {strict : Prop} {allowed : Eviction → Prop} {accepted : Stop → Prop} {world : World}
  {chains : Nat → Chain} {lists : Nat → List Nat} {view : View} {fails : Failures}

/-- On a closed database the guard aborts. -/
theorem guardTable_shut {post : Unit → World → Prop} (table : world.hashTable = false) (stops : accepted .aborted) :
    Meets allowed accepted guardTable (counted world) post := by
  have there : (counted world).hashTable = false := table
  rw [guardTable, meets_requires, there, if_neg Bool.false_ne_true]
  exact stops

theorem openDb_answers (shown : Shown strict world view) :
    Meets allowed accepted (Command.run fails .openDb) world (Answers strict fails view .openDb) := by
  simp only [Command.run, meets_bind, meets_pure]
  cases shown with
  | opened state sized isOpen created =>
      simp only [Rdb.openDb, meets_bind, meets_reads, state.running.opened, if_true, meets_pure]
      exact Or.inl ⟨rfl, .opened state sized rfl rfl⟩
  | closed state isShut =>
      obtain ⟨store, closed, sizes⟩ := state.stored
      obtain ⟨same, opened⟩ : _ ∧ Opened True True _ _ _ _ := reopened_opened closed
      apply openDb_meets closed
      refine Or.inl ⟨rfl, .opened { opened with valid := opened.valid.mono fun _ => trivial } ?_ rfl rfl⟩
      have kpSize : (reopened world store).kpSize = store.kpSize := congrArg Store.kpSize same
      have htSize : (reopened world store).htSize = store.htSize := congrArg Store.htSize same
      rw [kpSize, htSize]
      exact sizes

theorem closeDb_answers (shown : Shown strict world view) :
    Meets allowed accepted (Command.run fails .closeDb) world (Answers strict fails view .closeDb) := by
  simp only [Command.run, meets_bind, meets_pure]
  cases shown with
  | opened state sized isOpen created =>
      apply closeDb_meets state
      intro later same closed
      subst same
      have kept : view.created = true := created
      refine Or.inl ⟨rfl, .closed ⟨sized, ⟨_, closed, sized⟩, ?_, ?_, ?_⟩ rfl⟩
      · show world.created = view.created
        rw [state.running.created, created]
      · intro impossible
        exact (Bool.false_ne_true (impossible.symm.trans created)).elim
      · intro _
        show world.attr ≠ none
        rw [state.running.attr]
        exact Option.some_ne_none _
  | closed state isShut =>
      obtain ⟨store, closed, -⟩ := state.stored
      simp only [Rdb.closeDb, meets_bind, meets_reads, closed.opened, Bool.not_false, if_true, meets_pure]
      exact Or.inl ⟨rfl, .closed state rfl⟩

theorem setKeyPageSize_answers {kpsize : Nat} (shown : Shown strict world view)
    (fits : numOfKeysInPage kpsize < 2 ^ 15) :
    Meets allowed accepted (Command.run fails (.setKeyPageSize kpsize)) world
      (Answers strict fails view (.setKeyPageSize kpsize)) := by
  simp only [Command.run, Rdb.setKeyPageSize, meets_bind, meets_reads]
  split
  · rename_i invalid
    simp only [meets_pure]
    exact Or.inl ⟨by rw [View.reply, if_pos invalid], shown⟩
  · rename_i correct
    have large : minKeyPageSize ≤ kpsize := by
      rw [not_or, not_lt] at correct
      exact correct.1
    cases shown with
    | opened state sized isOpen created =>
        simp only [state.running.opened, if_true, meets_pure]
        refine Or.inl ⟨?_, .opened state sized isOpen created⟩
        rw [View.reply, if_neg correct, isOpen]
        rfl
    | closed state isShut =>
        obtain ⟨store, closed, -⟩ := state.stored
        simp only [closed.not_opened, if_false, meets_modifies, meets_bind, meets_pure]
        refine Or.inl ⟨?_, .closed ?_ isShut⟩
        · rw [View.reply, if_neg correct, isShut]
          rfl
        · exact state.resize ⟨large, Nat.le_of_lt_succ fits, state.sized.table⟩

theorem setHashTableSize_answers {htsize : Nat} (shown : Shown strict world view) :
    Meets allowed accepted (Command.run fails (.setHashTableSize htsize)) world
      (Answers strict fails view (.setHashTableSize htsize)) := by
  simp only [Command.run, Rdb.setHashTableSize, meets_bind, meets_reads]
  split
  · rename_i invalid
    simp only [meets_pure]
    exact Or.inl ⟨by rw [View.reply, if_pos invalid], shown⟩
  · rename_i correct
    cases shown with
    | opened state sized isOpen created =>
        simp only [state.running.opened, if_true, meets_pure]
        refine Or.inl ⟨?_, .opened state sized isOpen created⟩
        rw [View.reply, if_neg correct, isOpen]
        rfl
    | closed state isShut =>
        obtain ⟨store, closed, -⟩ := state.stored
        simp only [closed.not_opened, if_false, meets_modifies, meets_bind, meets_pure]
        refine Or.inl ⟨?_, .closed ?_ isShut⟩
        · rw [View.reply, if_neg correct, isShut]
          rfl
        · exact state.resize ⟨state.sized.large, state.sized.counted, nextPrime_pos world.htSize⟩

theorem rebuild_answers (shown : Shown strict world view) :
    Meets (fun _ => False) accepted (Command.run fails .rebuild) world (Answers strict fails view .rebuild) := by
  simp only [Command.run, meets_bind, meets_pure]
  cases shown with
  | opened state sized isOpen created =>
      simp only [Rdb.rebuild, meets_bind, meets_reads, state.running.opened, if_true, meets_pure]
      refine Or.inl ⟨?_, .opened state sized isOpen created⟩
      rw [View.reply, isOpen]
      rfl
  | closed state isShut =>
      obtain ⟨store, closed, -⟩ := state.stored
      cases created : view.created with
      | false =>
          have absent : (!world.created) = true := by
            rw [state.made, created]
            rfl
          simp only [Rdb.rebuild, meets_bind, meets_reads, closed.not_opened, absent, if_false, if_true, meets_pure]
          refine Or.inl ⟨?_, .closed state isShut⟩
          rw [View.reply, isShut, created]
          rfl
      | true =>
          have there : world.created = true := state.made.trans created
          apply rebuild_meets closed state.sized there
          intro later fresh ended made attr kpSize htSize _ _
          refine Or.inl ⟨?_, .closed ⟨?_, ⟨fresh, ended.mono fun _ => trivial, ?_⟩, ?_, ?_, ?_⟩ isShut⟩
          · rw [View.reply, isShut, created]
            rfl
          · rw [kpSize, htSize]
            exact state.sized
          · have sizes := ended.attr
            rw [attr, Option.getD_some] at sizes
            obtain ⟨fileKp, fileHt⟩ := Prod.mk.inj sizes
            rw [← fileKp, ← fileHt]
            exact state.sized
          · exact made.trans created.symm
          · intro impossible
            exact (Bool.false_ne_true (impossible.symm.trans created)).elim
          · intro _
            rw [attr]
            exact Option.some_ne_none _

theorem get_answers {key : Bytes} {vlen : Nat} (shown : Shown strict world view)
    (aborts : view.reply (.get key vlen) = none → accepted .aborted) :
    Meets (Harmless (hash key world.htSize)) accepted (Command.run fails (.get key vlen)) world
      (Answers strict fails view (.get key vlen)) := by
  rw [Command.run]
  by_cases invalid : rejected key ∨ vlen = 0
  · rw [Rdb.get, if_pos invalid, meets_pure]
    exact Or.inl ⟨by rw [View.reply, if_pos invalid], shown⟩
  cases shown with
  | opened state sized isOpen created =>
      have same : ∀ later, MemoryOnly world later → Sized later.kpSize later.htSize := by
        intro later only
        rw [only.sizes.1, only.sizes.2]
        exact sized
      have answer : view.reply (.get key vlen) = some (view.content.reply (.get key vlen)) := by
        rw [View.reply, if_neg invalid, View.guarded, isOpen, if_pos rfl]
        exact congrArg some (if_neg invalid).symm
      apply get_spec state (fun event harmless => ⟨trivial, harmless⟩)
      · intro later next ended only
        refine Or.inl ⟨answer, ?_⟩
        have after : view.after (.get key vlen) = view := rfl
        rw [after, ite_self]
        exact .opened ended (same later only) isOpen created
      · intro later next op broken ended only
        exact Or.inr ⟨by simp, ⟨op, broken⟩, .opened ended.weaken (same later only) isOpen created⟩
  | closed state isShut =>
      obtain ⟨store, closed, -⟩ := state.stored
      rw [Rdb.get, if_neg invalid]
      simp only [meets_bind, meets_counted, meets_reads]
      apply guardTable_shut closed.table
      apply aborts
      rw [View.reply, if_neg invalid, View.guarded, isShut, if_neg Bool.false_ne_true]

/-- The operations that must not fail are those that `Recovers` names. -/
theorem Opened.setWorks {map : ByteMap} {post : Reply → World → Prop} {key value : Bytes} {updater : Option Updater}
    (opened : Opened strict True world chains lists map)
    (recovers : (Command.set key value updater).Recovers world fails) :
    SetWorks fails accepted post (world.store chains) key := by
  obtain ⟨values, keys, valueFlags, keyFlags⟩ := recovers
  have geometry := opened.valid.geometry
  refine ⟨?_, ?_, ?_, ?_⟩
  · intro offset rest taken _
    exact values offset (mem_of_take taken)
  · intro target item _ there _ broken
    have inUse := geometry.mem_offsets (List.mem_of_getElem? there)
    have works := keys item.1 (geometry.pages.notMem_stack geometry.positive inUse)
    rw [broken] at works
    cases works
  · intro offset rest _ _ _
    exact Or.inl (valueFlags offset pageDeleted)
  · intro offset rest _ _ _
    exact Or.inl (keyFlags offset pageDeleted)

theorem set_answers {key value : Bytes} {updater : Option Updater} (shown : Shown strict world view)
    (fits : (Command.set key value updater).Fits) (recovers : (Command.set key value updater).Recovers world fails)
    (aborts : view.reply (.set key value updater) = none → accepted .aborted) :
    Meets (Harmless (hash key world.htSize)) accepted (Command.run fails (.set key value updater)) world
      (Answers strict fails view (.set key value updater)) := by
  rw [Command.run]
  by_cases invalid : rejected key ∨ rejected value
  · rw [setWith, if_pos invalid, meets_pure]
    exact Or.inl ⟨by rw [View.reply, if_pos invalid], shown⟩
  have fineKey : rejected key = false := by simpa using fun bad => invalid (Or.inl bad)
  have fine : rejected value = false := by simpa using fun bad => invalid (Or.inr bad)
  cases shown with
  | opened state sized isOpen created =>
      have resized : ∀ later, SameSizes world later → Sized later.kpSize later.htSize := by
        intro later same
        rw [same.1, same.2]
        exact sized
      apply setWith_spec state (fun event harmless => ⟨trivial, harmless⟩) fineKey fine
        (fun object old updated given made => (fits.2.2 object old updated given made).1)
        (state.limit sized.counted key) (state.setWorks recovers)
      · intro later fresh next stored chosen same ended
        obtain ⟨kpSize, htSize⟩ := Store.set_sizes _ key stored
        have sizes : SameSizes world later :=
          ⟨(congrArg Store.kpSize same).trans kpSize, (congrArg Store.htSize same).trans htSize⟩
        have content : Opened strict True later fresh next (Function.update view.content key
            (view.content.stored key value updater).toOption) := by
          rw [chosen]
          exact ended
        refine Or.inl ⟨?_, .opened content (resized later sizes) isOpen created⟩
        rw [View.reply, if_neg invalid, View.guarded, isOpen, if_pos rfl, chosen]
      · intro later next code chosen same ended
        refine Or.inl ⟨?_, ?_⟩
        · rw [View.reply, if_neg invalid, View.guarded, isOpen, if_pos rfl, chosen]
        · rw [if_neg (ByteMap.stored_error chosen)]
          exact .opened ended (resized later same) isOpen created
      · intro later next code op broken failed same ended
        exact Or.inr ⟨failed, ⟨op, broken⟩, .opened ended (resized later same) isOpen created⟩
  | closed state isShut =>
      obtain ⟨store, closed, -⟩ := state.stored
      rw [setWith, if_neg invalid]
      simp only [meets_bind, meets_counted, meets_reads]
      apply guardTable_shut closed.table
      apply aborts
      rw [View.reply, if_neg invalid, View.guarded, isShut, if_neg Bool.false_ne_true]

theorem remove_answers {key : Bytes} (shown : Shown strict world view)
    (recovers : (Command.remove key).Recovers world fails)
    (aborts : view.reply (.remove key) = none ∨ view.content key ≠ none → accepted .aborted) :
    Meets (Harmless (hash key world.htSize)) accepted (Command.run fails (.remove key)) world
      (Answers strict fails view (.remove key)) := by
  rw [Command.run]
  by_cases invalid : rejected key
  · rw [Rdb.remove, if_pos invalid, meets_pure]
    exact Or.inl ⟨by rw [View.reply, if_pos invalid], shown⟩
  cases shown with
  | opened state sized isOpen created =>
      have resized : ∀ later, SameSizes world later → Sized later.kpSize later.htSize := by
        intro later same
        rw [same.1, same.2]
        exact sized
      obtain ⟨reads, writes, flags, previous, next⟩ := recovers
      apply remove_spec state (fun event harmless => ⟨trivial, harmless⟩) (by simpa using invalid)
        ⟨reads, writes, flags, previous, next⟩
      · intro present _
        exact aborts (Or.inr present)
      · intro present later fresh lists removed ended
        refine Or.inl ⟨?_, .opened ended (resized later (Store.remove_sizes removed)) isOpen created⟩
        rw [View.reply, if_neg invalid, View.guarded, isOpen, if_pos rfl,
          if_pos (Option.isSome_iff_ne_none.2 present)]
      · intro absent later lists same ended
        refine Or.inl ⟨?_, .opened ended (resized later same) isOpen created⟩
        rw [View.reply, if_neg invalid, View.guarded, isOpen, if_pos rfl, absent]
        rfl
      · intro later lists code op broken failed same ended
        exact Or.inr ⟨failed, ⟨op, broken⟩, .opened ended (resized later same) isOpen created⟩
  | closed state isShut =>
      obtain ⟨store, closed, -⟩ := state.stored
      rw [Rdb.remove, if_neg invalid]
      simp only [meets_bind, meets_counted, meets_reads]
      apply guardTable_shut closed.table
      apply aborts
      rw [View.reply, if_neg invalid, View.guarded, isShut, if_neg Bool.false_ne_true]
      exact Or.inl rfl

end Steps

/-- Every call answers as the view does, or reports a failed operation, or aborts where it may. -/
theorem run_answers {strict : Prop} {world : World} {view : View} {fails : Failures} {command : Command}
    (shown : Shown strict world view) (fits : command.Fits) (recovers : command.Recovers world fails) :
    Meets (fun event => command.Spares world.htSize event) (Halts view command) (command.run fails) world
      (Answers strict fails view command) := by
  cases command with
  | openDb => exact openDb_answers shown
  | closeDb => exact closeDb_answers shown
  | get key vlen => exact get_answers shown fun none => ⟨rfl, Or.inl none⟩
  | set key value updater => exact set_answers shown fits recovers fun none => ⟨rfl, Or.inl none⟩
  | remove key =>
      exact remove_answers shown recovers fun cause => ⟨rfl, cause.imp_right fun present => ⟨key, rfl, present⟩⟩
  | setKeyPageSize kpsize => exact setKeyPageSize_answers shown fits
  | setHashTableSize htsize => exact setHashTableSize_answers shown
  | rebuild => exact rebuild_answers shown

section Runs

variable {kpsize htsize poolSize : Nat} {history : List Made} {world : World}

/-- A history ends with the database of its view. -/
theorem History.shown (reached : History kpsize htsize poolSize history world) :
    Shown (Clean history) world (viewAfter history) := by
  induction reached with
  | start sized small created => exact .closed (Shut.init sized created) rfl
  | @call history world later command fails reply before fits recovers spares returns ih =>
      have met := run_answers ih fits recovers spares
      rw [returns] at met
      have earlier : Clean (⟨command, fails, reply⟩ :: history) → Clean history :=
        fun clean made member => clean made (List.mem_cons_of_mem _ member)
      rcases met with ⟨-, shown⟩ | ⟨failed, ⟨op, broken⟩, shown⟩
      · exact shown.mono earlier
      · rw [viewAfter, if_neg failed]
        apply shown.mono
        intro clean
        have works : fails op = false := clean _ List.mem_cons_self op
        rw [broken] at works
        cases works

/-- The answers to calls without failures that evict no page, and the world after them. -/
def replay : List Command → World → Option (List Reply × World)
  | [], world => some ([], world)
  | command :: rest, world =>
      match command.run noFailure world with
      | ⟨[], .ok (reply, later)⟩ => (replay rest later).map fun done => (reply :: done.1, done.2)
      | _ => none

end Runs

end SimpleNFast.Rdb
