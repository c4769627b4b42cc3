import MiniCore.Mm.Layout

/-!
# MiniCore.Mm.PageAlloc

The physical page allocator (`src/mm/page_alloc.c`) and the memory-management
state it works on.

The free list is threaded through the free pages in the source; the model keeps
the list itself.  `outcomes` is a schedule of injected failures: each allocation
consumes one entry and fails on `false`.  The source is the case of the empty
schedule, where `page_alloc` fails exactly on an empty list; the schedules in
between let any single allocation of an operation fail.  `frees` records every
call of `page_free`; no function reads it, the proofs do.
-/

namespace MiniCore

open Lib

/-- `struct slab`: one page of heap objects of one size class.  `free` lists the
addresses of its free objects. -/
structure Slab where
  page : Nat
  classIndex : Nat
  used : Nat
  free : List Nat
deriving DecidableEq, Repr

/-- The state of `src/mm`: physical memory, `free_list`, the heap's slabs, the
allocation outcomes still to come, and the pages freed so far, each with
whether it was on the free list already. -/
structure Machine where
  mem : Memory
  freeList : List Nat
  slabs : List Slab
  outcomes : List Bool
  frees : List (Nat × Bool)

namespace Machine

/-- Whether the next allocation is allowed to succeed. -/
def grants (m : Machine) : Bool := m.outcomes.headD true

@[simps freeList slabs frees]
def nextOutcome (m : Machine) : Machine := { m with outcomes := m.outcomes.tail }

@[simp] theorem nextOutcome_mem (m : Machine) : m.nextOutcome.mem = m.mem := rfl

/-- Two states that differ at most in the outcomes still to come. -/
structure Same (m m' : Machine) : Prop where
  mem : m'.mem = m.mem
  freeList : m'.freeList = m.freeList
  slabs : m'.slabs = m.slabs
  frees : m'.frees = m.frees

end Machine

/-- `page_alloc`; 0 on failure. -/
def pageAlloc (m : Machine) : Nat × Machine :=
  let m' := m.nextOutcome
  if m.grants then
    match m'.freeList with
    | [] => (0, m')
    | page :: rest => (page, { m' with freeList := rest })
  else (0, m')

/-- `page_free`; a null or unaligned address is ignored. -/
def pageFree (physical : Nat) (m : Machine) : Machine :=
  if pageOffset physical ≠ 0 ∨ physical = 0 then m
  else
    { m with
      freeList := physical :: m.freeList
      frees := (physical, decide (physical ∈ m.freeList)) :: m.frees }

/-- What `page_alloc` can do: fail and change nothing, or pop the first page. -/
theorem pageAlloc_cases (m : Machine) : ((pageAlloc m).1 = 0 ∧ m.Same (pageAlloc m).2) ∨
    ∃ page rest, m.freeList = page :: rest ∧
      pageAlloc m = (page, { m.nextOutcome with freeList := rest }) := by
  unfold pageAlloc
  by_cases hg : m.grants = true
  · simp only [hg, if_true]
    cases hl : m.nextOutcome.freeList with
    | nil => exact .inl ⟨rfl, rfl, rfl, rfl, rfl⟩
    | cons page rest => exact .inr ⟨page, rest, hl, rfl⟩
  · simp only [hg]
    exact .inl ⟨rfl, rfl, rfl, rfl, rfl⟩

theorem pageFree_of_isPage {p : Nat} (hp : IsPage p) (m : Machine) : pageFree p m = { m with
      freeList := p :: m.freeList
      frees := (p, decide (p ∈ m.freeList)) :: m.frees } := by
  have hoff : pageOffset p = 0 := hp.aligned
  simp [pageFree, hoff, hp.ne_zero]

end MiniCore
