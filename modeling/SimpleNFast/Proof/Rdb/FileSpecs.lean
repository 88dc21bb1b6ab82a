import SimpleNFast.Proof.Rdb.Opened

namespace SimpleNFast.Rdb
open Program LinkedList

section Files

variable {allowed : Eviction → Prop} {accepted : Stop → Prop} {world : World} {fails : Failures}

theorem meets_attempt {op : FileOp} {code : Code} {change : World → World} {post : Code → World → Prop} :
    Meets allowed accepted (attempt fails op code change) world post ↔
      if fails op then post code world else post .E_ok (change world) := by
  unfold attempt
  split <;> simp

/-- The value file takes a page from its stack and persists the stack. -/
theorem value_nextPage_meets {post : Nat → World → Prop} {offset : Nat} {rest : List Nat}
    (taken : FreeStack.take valuePageSize world.valueFdp = some (offset, rest))
    (persisted : world.fdp = world.valueFdp.reverse)
    (ends : post offset { world with valueFdp := rest, fdp := rest.reverse }) :
    Meets allowed accepted ValueFile.nextPage world post := by
  simp only [ValueFile.nextPage, meets_bind, meets_reads]
  cases stack : world.valueFdp with
  | nil => simp [stack, FreeStack.take] at taken
  | cons top below =>
      rw [stack] at taken persisted
      cases below with
      | nil =>
          simp only [FreeStack.take, Option.some.injEq, Prod.mk.injEq] at taken
          obtain ⟨rfl, rfl⟩ := taken
          simp only [meets_bind, meets_modifies, meets_pure, persisted]
          exact ends
      | cons second below =>
          simp only [FreeStack.take, Option.some.injEq, Prod.mk.injEq] at taken
          obtain ⟨rfl, rfl⟩ := taken
          simp only [meets_bind, meets_modifies, meets_pure, persisted, List.reverse_cons,
            List.dropLast_concat]
          rw [List.reverse_cons] at ends
          exact ends

/-- The key file takes a page from its stack. -/
theorem key_nextPage_meets {post : Nat → World → Prop} {offset : Nat} {rest : List Nat}
    (taken : FreeStack.take world.kpSize world.keyFdp = some (offset, rest))
    (ends : post offset { world with keyFdp := rest }) :
    Meets allowed accepted KeyFile.nextPage world post := by
  simp only [KeyFile.nextPage, meets_bind, meets_reads]
  cases stack : world.keyFdp with
  | nil => simp [stack, FreeStack.take] at taken
  | cons top below =>
      rw [stack] at taken
      cases below with
      | nil =>
          simp only [FreeStack.take, Option.some.injEq, Prod.mk.injEq] at taken
          obtain ⟨rfl, rfl⟩ := taken
          simp only [meets_bind, meets_modifies, meets_pure]
          exact ends
      | cons second below =>
          simp only [FreeStack.take, Option.some.injEq, Prod.mk.injEq] at taken
          obtain ⟨rfl, rfl⟩ := taken
          simp only [meets_bind, meets_modifies, meets_pure]
          exact ends

/-- The value page of a new key is written. -/
theorem value_append_meets {post : Code × Off → World → Prop} {index : Nat} {rest : List Nat}
    {page : ValuePage}
    (taken : FreeStack.take valuePageSize world.valueFdp = some (index * valuePageSize, rest))
    (persisted : world.fdp = world.valueFdp.reverse)
    (works : fails (.writeValuePage (index * valuePageSize)) = false)
    (ends : post (.E_ok, some (index * valuePageSize)) { world with
      valueFdp := rest
      fdp := rest.reverse
      db := PagedFile.writeAt ValuePage.zero world.db index page }) :
    Meets allowed accepted (ValueFile.append fails page) world post := by
  simp only [ValueFile.append, meets_bind]
  apply value_nextPage_meets taken persisted
  simp only [ValueFile.write, meets_attempt, works, Bool.false_eq_true, if_false, ne_eq, not_true_eq_false,
    meets_pure, Content.offset_index]
  exact ends

/-- A new key page is written, or its place is given back. -/
theorem key_append_meets {post : Code × Off → World → Prop} {index : Nat} {rest : List Nat} {page : KeyPage}
    (positive : 0 < world.kpSize)
    (taken : FreeStack.take world.kpSize world.keyFdp = some (index * world.kpSize, rest))
    (written : fails (.writeKeyPage (index * world.kpSize)) = false →
      post (.E_ok, some (index * world.kpSize)) { world with
        keyFdp := rest
        idx := PagedFile.writeAt (KeyPage.zero world.kpSize) world.idx index page })
    (failed : fails (.writeKeyPage (index * world.kpSize)) = true →
      post (.E_write_failed, none) { world with keyFdp := index * world.kpSize :: rest }) :
    Meets allowed accepted (KeyFile.append fails page) world post := by
  simp only [KeyFile.append, meets_bind]
  apply key_nextPage_meets taken
  simp only [KeyFile.write, meets_attempt]
  split
  · rename_i broken
    simp only [KeyFile.freePage, assert, meets_bind, meets_reads, meets_requires, meets_modifies, meets_pure,
      Option.isSome_some, Option.getD_some, Nat.mul_mod_left, ne_eq, reduceCtorEq, not_false_eq_true, if_true,
      beq_self_eq_true]
    exact failed broken
  · rename_i fine
    simp only [ne_eq, not_true_eq_false, if_false, meets_pure, Nat.mul_div_cancel _ positive]
    exact written (by simpa using fine)

/-- A key page goes back to its stack. -/
theorem key_freePage_meets {post : Code → World → Prop} {offset : Nat} (aligned : offset % world.kpSize = 0)
    (ends : post .E_ok { world with keyFdp := offset :: world.keyFdp }) :
    Meets allowed accepted (KeyFile.freePage (some offset)) world post := by
  simp only [KeyFile.freePage, assert, meets_bind, meets_reads, meets_requires, meets_modifies, meets_pure,
    Option.isSome_some, Option.getD_some, aligned, if_true, beq_self_eq_true]
  exact ends

/-- A value page goes back to its stack, which is persisted. -/
theorem value_freePage_meets {post : Code → World → Prop} (index : Nat)
    (ends : post .E_ok { world with
      valueFdp := index * valuePageSize :: world.valueFdp
      fdp := world.fdp ++ [index * valuePageSize] }) :
    Meets allowed accepted (ValueFile.freePage (some (index * valuePageSize))) world post := by
  simp only [ValueFile.freePage, assert, meets_bind, meets_requires, meets_modifies, meets_pure,
    Option.isSome_some, Option.getD_some, Nat.mul_mod_left, if_true, beq_self_eq_true]
  exact ends

/-- A program that may end anyhow. -/
theorem meets_anyhow {α : Type} {program : Call α} {post : α → World → Prop} (stops : ∀ stop, accepted stop)
    (ends : ∀ value later, post value later) : Meets allowed accepted program world post := by
  intro fine
  cases (program world).result with
  | error reason => exact stops reason
  | ok final => exact ends final.1 final.2

/-- The undo of a new value page marks it as deleted and gives it back. -/
theorem unwindValue_meets {post : Unit → World → Prop} (index : Nat)
    (works : fails (.writeValueFlags (index * valuePageSize) pageDeleted) = false ∨ ∀ stop, accepted stop)
    (ends : post () { world with
      db := world.db.modify index fun page => { page with flags := pageDeleted }
      valueFdp := index * valuePageSize :: world.valueFdp
      fdp := world.fdp ++ [index * valuePageSize] }) :
    Meets allowed accepted (executeUnwind fails [.valueFlags (some (index * valuePageSize)) pageDeleted,
      .valueFreePage (some (index * valuePageSize))]) world post := by
  simp only [executeUnwind, UnwindBlock.undo, ValueFile.writeFlags, meets_bind, meets_attempt,
    Content.offset_index]
  split
  · rename_i broken
    simp only [assert, meets_requires]
    rcases works with fine | stops
    · rw [fine] at broken
      cases broken
    · exact stops _
  · simp only [assert, meets_requires, beq_self_eq_true, if_true]
    apply value_freePage_meets
    simp only [beq_self_eq_true, if_true, meets_pure]
    exact ends

/-- The undo of a new key page marks it as deleted and gives it back. -/
theorem unwindKey_meets {post : Unit → World → Prop} (index kp : Nat) (positive : 0 < world.kpSize)
    (works : fails (.writeKeyFlags (index * world.kpSize) pageDeleted) = false ∨ ∀ stop, accepted stop)
    (ends : post () { world with
      idx := world.idx.modify index fun page => { page with flags := pageDeleted, vcount := 0 }
      pages := Function.update world.pages kp { world.pages kp with flags := pageDeleted }
      keyFdp := index * world.kpSize :: world.keyFdp }) :
    Meets allowed accepted (executeUnwind fails [.keyFlags kp (some (index * world.kpSize)) pageDeleted,
      .keyFreePage (some (index * world.kpSize))]) world post := by
  simp only [executeUnwind, UnwindBlock.undo, KeyFile.writeFlags, meets_bind, meets_attempt]
  split
  · rename_i broken
    simp only [assert, meets_requires]
    rcases works with fine | stops
    · rw [fine] at broken
      cases broken
    · exact stops _
  · simp only [assert, meets_requires, beq_self_eq_true, if_true, KeyFile.patchPage, KeyFile.patch,
      Nat.mul_div_cancel _ positive]
    apply key_freePage_meets
    · exact Nat.mul_mod_left _ _
    simp only [beq_self_eq_true, if_true, meets_pure]
    exact ends

end Files

end SimpleNFast.Rdb
