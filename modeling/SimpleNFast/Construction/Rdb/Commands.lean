/-
This file models `set` with an updater and whole histories of calls of `Rdb`, and states what a client sees of a
database.
-/

import SimpleNFast.Construction.Rdb.Store

namespace SimpleNFast.Rdb
open Program

/-- The class `Updater`: `update` gets the old value, and `getUpdatedValue` replaces it. -/
structure Updater where
  update : Bytes → Code
  getUpdatedValue : Bytes → Code × Bytes

/-- The new value from an updater, or the code that ends the call. -/
def Updater.run (updater : Updater) (value : Bytes) : Except Code Bytes :=
  let retval := updater.update value
  if retval ≠ .E_ok then .error retval
  else
    let updated := updater.getUpdatedValue value
    if updated.1 ≠ .E_ok then .error updated.1 else .ok updated.2

/-- A key that exists gets the new value, or the value that the updater makes of the old one. -/
def setFound (fails : Failures) (key value : Bytes) (updater : Option Updater) (ki : KeyInfo) : Call Code :=
  match updater with
  | none => ValueFile.write fails (ki.voff.getD 0) (ValuePage.init key value)
  | some updater => do
      let read ← ValueFile.read fails ki.voff
      match read with
      | .error code => pure code
      | .ok page => do
          assertValue page key
          match updater.run page.value with
          | .error code => pure code
          | .ok updated => ValueFile.write fails (ki.voff.getD 0) { page with value := updated }

/-- This is `set` with its last argument. -/
def setWith (fails : Failures) (key value : Bytes) (updater : Option Updater) : Call Reply := do
  if rejected key ∨ rejected value then pure ⟨.E_invalid_arg, none⟩
  else do
    countOp 1
    let htSize ← reads World.htSize
    guardTable
    let found ← processKeyPages fails .GET (KeyInfo.init key (hash key htSize))
    let stored ←
      if found.1 = .E_ok then do
        assertFound found.2
        let retval ← setFound fails key value updater found.2
        pure (retval, [])
      else if found.1 = .E_not_found then setNew fails key value found.2
      else pure (found.1, [])
    finish fails stored

/-- The public calls of `Rdb`. -/
inductive Command where
  | openDb
  | closeDb
  | get (key : Bytes) (vlen : Nat)
  | set (key value : Bytes) (updater : Option Updater)
  | remove (key : Bytes)
  | setKeyPageSize (kpsize : Nat)
  | setHashTableSize (htsize : Nat)
  | rebuild

namespace Command

/-- One call with its pattern of failures. -/
def run (fails : Failures) : Command → Call Reply
  | .openDb => do
      let retval ← Rdb.openDb
      pure ⟨retval, none⟩
  | .closeDb => do
      let retval ← Rdb.closeDb
      pure ⟨retval, none⟩
  | .get key vlen => Rdb.get fails key vlen
  | .set key value updater => setWith fails key value updater
  | .remove key => Rdb.remove fails key
  | .setKeyPageSize kpsize => do
      let retval ← Rdb.setKeyPageSize kpsize
      pure ⟨retval, none⟩
  | .setHashTableSize htsize => do
      let retval ← Rdb.setHashTableSize htsize
      pure ⟨retval, none⟩
  | .rebuild => do
      let retval ← Rdb.rebuild
      pure ⟨retval, none⟩

/-- The records of a page have room for the key and for the values, a page counts no more keys than a `short`
holds, and an updater keeps to the rules for values. -/
def Fits : Command → Prop
  | .get key _ => key.length ≤ maxKeyLength
  | .set key value updater => key.length ≤ maxKeyLength ∧ value.length ≤ maxValueLength ∧
      ∀ object old updated, updater = some object → object.run old = .ok updated →
        rejected updated = false ∧ updated.length ≤ maxValueLength
  | .remove key => key.length ≤ maxKeyLength
  | .setKeyPageSize kpsize => numOfKeysInPage kpsize < 2 ^ 15
  | _ => True

/-- The failures that a call reports without a loss: no failed write of a value page that is new or of a key page
that is in place, and no failed write of flags by `set`; `remove` may only fail at the value file. -/
def Recovers (world : World) (fails : Failures) : Command → Prop
  | .set _ _ _ =>
      (∀ offset ∈ world.valueFdp, fails (.writeValuePage offset) = false) ∧
      (∀ offset, offset ∉ world.keyFdp → fails (.writeKeyPage offset) = false) ∧
      (∀ offset flags, fails (.writeValueFlags offset flags) = false) ∧
      ∀ offset flags, fails (.writeKeyFlags offset flags) = false
  | .remove _ =>
      (∀ offset, fails (.readKeyPage offset) = false) ∧
      (∀ offset, fails (.writeKeyPage offset) = false) ∧
      (∀ offset flags, fails (.writeKeyFlags offset flags) = false) ∧
      (∀ offset other, fails (.writePrevOffset offset other) = false) ∧
      ∀ offset other, fails (.writeNextOffset offset other) = false
  | _ => True

/-- A page may leave the cache while a call works on another bucket when it is the last of the LRU list, the only
one of its bucket and written back; during a rebuild no page may leave it. -/
def Spares (htSize : Nat) (event : Eviction) : Command → Prop
  | .get key _ => Harmless (hash key htSize) event
  | .set key _ _ => Harmless (hash key htSize) event
  | .remove key => Harmless (hash key htSize) event
  | _ => False

end Command

/-- The value that `set` stores for a key; an updater works on a value that is there. -/
def ByteMap.stored (map : ByteMap) (key value : Bytes) (updater : Option Updater) : Except Code Bytes :=
  match map key, updater with
  | some old, some updater => updater.run old
  | _, _ => .ok value

/-- What a client sees of a database: its content, whether it is open, and whether its files exist. -/
structure View where
  content : ByteMap
  opened : Bool
  created : Bool

namespace View

/-- A new database is empty. -/
def init : View := ⟨fun _ => none, false, false⟩

/-- A call on a key needs an open database. -/
def guarded (view : View) (reply : Reply) : Option Reply := if view.opened then some reply else none

/-- The answer to a call; there is none when the call aborts. -/
def reply (view : View) : Command → Option Reply
  | .openDb => some ⟨.E_ok, none⟩
  | .closeDb => some ⟨.E_ok, none⟩
  | .get key vlen =>
      if rejected key ∨ vlen = 0 then some ⟨.E_invalid_arg, none⟩
      else view.guarded (match view.content key with
        | none => ⟨.E_not_found, none⟩
        | some value => if vlen < value.length then ⟨.E_insufficient_buffer, none⟩ else ⟨.E_ok, some value⟩)
  | .set key value updater =>
      if rejected key ∨ rejected value then some ⟨.E_invalid_arg, none⟩
      else view.guarded (match view.content.stored key value updater with
        | .error code => ⟨code, none⟩
        | .ok _ => ⟨.E_ok, none⟩)
  | .remove key =>
      if rejected key then some ⟨.E_invalid_arg, none⟩
      else view.guarded ⟨if (view.content key).isSome then .E_ok else .E_not_found, none⟩
  | .setKeyPageSize kpsize =>
      if kpsize < minKeyPageSize ∨ kpsize % keyPageHdrSize ≠ 0 then some ⟨.E_invalid_arg, none⟩
      else some ⟨if view.opened then .E_invalid_state else .E_ok, none⟩
  | .setHashTableSize htsize =>
      if htsize = 0 then some ⟨.E_invalid_arg, none⟩
      else some ⟨if view.opened then .E_invalid_state else .E_ok, none⟩
  | .rebuild =>
      some ⟨if view.opened then .E_invalid_state else if view.created then .E_ok else .E_rename_failed, none⟩

/-- The view after a call that returns `E_ok`; a rebuild keeps the content. -/
def after (view : View) : Command → View
  | .openDb => { view with opened := true, created := true }
  | .closeDb => { view with opened := false }
  | .set key value updater =>
      { view with
        content := Function.update view.content key (view.content.stored key value updater).toOption }
  | .remove key => { view with content := Function.update view.content key none }
  | _ => view

end View

/-- A call of a history: its failures and its answer. -/
structure Made where
  command : Command
  fails : Failures
  reply : Reply

/-- The view after a history, the last call first: a call that returns an error changes nothing. -/
def viewAfter : List Made → View
  | [] => View.init
  | made :: earlier =>
      if made.reply.code = .E_ok then (viewAfter earlier).after made.command else viewAfter earlier

/-- A history without failures. -/
def Clean (history : List Made) : Prop := ∀ made ∈ history, ∀ op, made.fails op = false

/-- The histories of a new database and the worlds they end in. A page counts no more keys than a `short` holds, and
the size of the hash table is an `int`. -/
inductive History (kpsize htsize poolSize : Nat) : List Made → World → Prop
  | start {world : World} (sized : numOfKeysInPage kpsize < 2 ^ 15) (small : htsize < 2 ^ 30)
      (created : World.init kpsize htsize poolSize = some world) : History kpsize htsize poolSize [] world
  | call {history : List Made} {world later : World} {command : Command} {fails : Failures} {reply : Reply}
      (before : History kpsize htsize poolSize history world) (fits : command.Fits)
      (recovers : command.Recovers world fails)
      (spares : ∀ event ∈ (command.run fails world).events, command.Spares world.htSize event)
      (returns : (command.run fails world).result = .ok (reply, later)) :
      History kpsize htsize poolSize (⟨command, fails, reply⟩ :: history) later

end SimpleNFast.Rdb
