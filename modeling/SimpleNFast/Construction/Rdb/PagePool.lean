/-
This file models the page pool of `pagemgr.cpp`.
-/

import SimpleNFast.Construction.Text

namespace SimpleNFast.Rdb

/-- The pool is the address that `malloc` returned, and the head of the list is the top of the stack. -/
structure PagePool where
  pool : Nat
  poolSize : Nat
  pageSize : Nat
  numOfPages : Int
  numOfFreePages : Int
  nextFreePage : List Nat
  deriving DecidableEq, Repr

namespace PagePool

/-- This is the constructor after the allocation of the pool. -/
def new (pool poolSize pageSize : Nat) : PagePool where
  pool := pool
  poolSize := poolSize
  pageSize := pageSize
  numOfPages := castInt ↑(poolSize / pageSize)
  numOfFreePages := castInt ↑(poolSize / pageSize)
  nextFreePage := [pool]

@[simp] theorem numOfPages_new (pool poolSize pageSize : Nat) :
    (new pool poolSize pageSize).numOfPages = castInt ↑(poolSize / pageSize) := rfl

@[simp] theorem numOfFreePages_new (pool poolSize pageSize : Nat) :
    (new pool poolSize pageSize).numOfFreePages = castInt ↑(poolSize / pageSize) := rfl

/-- The entry that `get` leaves on a stack it has emptied. -/
def refill (mgr : PagePool) (addr : Nat) : List Nat → List Nat
  | [] => if addr + mgr.pageSize < mgr.pool + mgr.poolSize then [addr + mgr.pageSize] else []
  | rest => rest

/-- The value `none` is the null pointer. -/
def get (mgr : PagePool) : Option Nat × PagePool :=
  match mgr.nextFreePage with
  | [] => (none, mgr)
  | addr :: rest =>
      if 0 < mgr.numOfFreePages then
        (some addr,
          { mgr with numOfFreePages := mgr.numOfFreePages - 1, nextFreePage := mgr.refill addr rest })
      else (none, mgr)

/-- The value `none` is a failed assertion. -/
def free (mgr : PagePool) (addr : Nat) : Option PagePool :=
  if mgr.pool ≤ addr ∧ addr < mgr.pool + mgr.poolSize then
    if (addr - mgr.pool) % mgr.pageSize = 0 then
      some { mgr with numOfFreePages := mgr.numOfFreePages + 1, nextFreePage := addr :: mgr.nextFreePage }
    else none
  else none

/-- The calls since the constructor with the pages that are handed out; only such a page is freed. -/
inductive Used (start : PagePool) : PagePool → List Nat → Prop where
  | start : Used start start []
  | get {mgr next : PagePool} {out : List Nat} {addr : Nat} (used : Used start mgr out)
      (done : mgr.get = (some addr, next)) : Used start next (addr :: out)
  | refused {mgr next : PagePool} {out : List Nat} (used : Used start mgr out)
      (done : mgr.get = (none, next)) : Used start next out
  | free {mgr next : PagePool} {out : List Nat} {addr : Nat} (used : Used start mgr out) (taken : addr ∈ out)
      (done : mgr.free addr = some next) : Used start next (out.erase addr)

/-- The address begins a page that lies in the pool. -/
structure IsPage (start : PagePool) (addr : Nat) : Prop where
  above : start.pool ≤ addr
  aligned : start.pageSize ∣ addr - start.pool
  inside : addr + start.pageSize ≤ start.pool + start.poolSize

/-- The pool hands out each of its pages at most once and counts them. -/
structure Safe (start mgr : PagePool) (out : List Nat) : Prop where
  exhausted : mgr.get.1 = none ↔ (out.length : Int) = start.numOfPages
  fresh : ∀ addr, mgr.get.1 = some addr → start.IsPage addr ∧ addr ∉ out
  count : mgr.numOfFreePages = start.numOfPages - out.length
  frees : ∀ addr ∈ out, (mgr.free addr).isSome

end PagePool

end SimpleNFast.Rdb
