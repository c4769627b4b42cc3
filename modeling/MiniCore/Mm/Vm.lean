import MiniCore.Lib.Loop
import MiniCore.Mm.Pte
import MiniCore.Mm.PageAlloc

/-!
# MiniCore.Mm.Vm

Sv39 page tables (`src/mm/vm.c`): walking, mapping, unmapping, querying, and
the three routines that give table pages back.

A `struct page_table` is its root page, 0 when there is none.  A pointer to an
entry is a pair of table page and index.  The TLB flush at the end of the
mutating calls has no counterpart here.
-/

namespace MiniCore

open Lib

namespace Machine

@[simps freeList slabs frees]
def clear (m : Machine) (page : Nat) : Machine := { m with mem := clearPage m.mem page }

@[simps freeList slabs frees]
def store (m : Machine) (page i v : Nat) : Machine := { m with mem := setEntry m.mem page i v }

@[simp] theorem clear_mem (m : Machine) (p : Nat) : (m.clear p).mem = clearPage m.mem p := rfl

@[simp] theorem store_mem (m : Machine) (p i v : Nat) :
    (m.store p i v).mem = setEntry m.mem p i v := rfl

end Machine

def canonical (address : Nat) : Bool :=
  address >>> 39 == 0 || address >>> 39 == 0x1ffffff

def vpnIndex (address level : Nat) : Nat := (address >>> (12 + level * 9)) &&& 0x1ff

/-! ## Creation -/

/-- `vm_create`: a cleared root page, or 0. -/
def vmCreate (m : Machine) : Nat × Machine :=
  match pageAlloc m with
  | (0, m) => (0, m)
  | (root, m) => (root, m.clear root)

/-- `vm_create_user`: the upper half of the root is copied from the kernel's. -/
def vmCreateUser (kernelRoot : Nat) (m : Machine) : Nat × Machine :=
  if kernelRoot = 0 then (0, m)
  else
    match vmCreate m with
    | (0, m) => (0, m)
    | (root, m) =>
      (root, { m with
        mem := fill m.mem (root + 256 * 8) (256 * 8) fun i => m.mem (kernelRoot + 256 * 8 + i) })

/-! ## Walking -/

/-- One round of the loop in `walk`: the table the entry points to, created if
it is missing and `create` is set. -/
def walkStep (create : Bool) (entries i : Nat) (m : Machine) : Option Nat × Machine :=
  let pte := entry m.mem entries i
  if pte &&& pteV = 0 then
    if create then
      match pageAlloc m with
      | (0, m) => (none, m)
      | (page, m) =>
        let m := (m.clear page).store entries i (makeTablePte page)
        (some (ptePhysical (entry m.mem entries i)), m)
    else (none, m)
  else if pte &&& (pteR ||| pteW ||| pteX) ≠ 0 then (none, m)
  else (some (ptePhysical pte), m)

def walkFrom (create : Bool) (address : Nat) : Nat → Nat → Machine → Option (Nat × Nat) × Machine
  | 0, entries, m => (some (entries, vpnIndex address 0), m)
  | level + 1, entries, m =>
    match walkStep create entries (vpnIndex address (level + 1)) m with
    | (none, m) => (none, m)
    | (some next, m) => walkFrom create address level next m

def walk (create : Bool) (root address : Nat) (m : Machine) : Option (Nat × Nat) × Machine :=
  if root = 0 ∨ canonical address = false then (none, m)
  else walkFrom create address 2 root m

/-! ## Mapping and querying -/

def vmMap (root address physical flags : Nat) (m : Machine) : Bool × Machine :=
  if pageOffset address ≠ 0 ∨ pageOffset physical ≠ 0 ∨ validLeafFlags flags = false then (false, m)
  else
    match walk true root address m with
    | (none, m) => (false, m)
    | (some (table, i), m) =>
      if entry m.mem table i &&& pteV ≠ 0 then (false, m)
      else (true, m.store table i (leafPte physical flags))

/-- `vm_query`: physical address and low ten flag bits of a mapped leaf. -/
def vmQuery (root address : Nat) (m : Machine) : Option (Nat × Nat) :=
  match (walk false root address m).1 with
  | none => none
  | some (table, i) =>
    let pte := entry m.mem table i
    if pte &&& pteV = 0 ∨ pte &&& (pteR ||| pteX) = 0 then none
    else some (ptePhysical pte ||| pageOffset address, pte &&& 0x3ff)

def tableEmpty (mem : Memory) (table : Nat) : Bool :=
  (List.range 512).all fun i => entry mem table i &&& pteV == 0

/-- `vm_unmap`, with the upward reclamation of emptied tables. -/
def vmUnmap (root address : Nat) (m : Machine) : Bool × Machine :=
  if root = 0 ∨ pageOffset address ≠ 0 ∨ canonical address = false then (false, m)
  else
    let i₂ := vpnIndex address 2
    let pte₂ := entry m.mem root i₂
    if isTable pte₂ = false then (false, m)
    else
      let level₁ := ptePhysical pte₂
      let i₁ := vpnIndex address 1
      let pte₁ := entry m.mem level₁ i₁
      if isTable pte₁ = false then (false, m)
      else
        let level₀ := ptePhysical pte₁
        let i₀ := vpnIndex address 0
        let pte₀ := entry m.mem level₀ i₀
        if pte₀ &&& (pteV ||| pteR ||| pteX) = pteV then (false, m)
        else if pte₀ &&& pteV = 0 then (false, m)
        else
          let m := m.store level₀ i₀ 0
          if tableEmpty m.mem level₀ = false then (true, m)
          else
            let m := (pageFree level₀ m).store level₁ i₁ 0
            if tableEmpty m.mem level₁ = false then (true, m)
            else (true, (pageFree level₁ m).store root i₂ 0)

def vmProtect (root address flags : Nat) (m : Machine) : Bool × Machine :=
  if pageOffset address ≠ 0 ∨ validLeafFlags flags = false then (false, m)
  else
    match (walk false root address m).1 with
    | none => (false, m)
    | some (table, i) =>
      let pte := entry m.mem table i
      if pte &&& pteV = 0 ∨ pte &&& (pteR ||| pteX) = 0 then (false, m)
      else (true, m.store table i (leafPte (ptePhysical pte) flags))

/-! ## Giving table pages back -/

/-- The body of the loops that destroy the tables under a table. -/
def destroySlot (destroy : Nat → Machine → Machine) (physical i : Nat) (m : Machine) : Machine :=
  let pte := entry m.mem physical i
  if isTable pte then destroy (ptePhysical pte) m else m

/-- `destroy_level`: free a table and, above level 0, the tables under it. -/
def destroyLevel : Nat → Nat → Machine → Machine
  | 0, physical, m => pageFree physical m
  | level + 1, physical, m =>
    pageFree physical (forRange 512 (destroySlot (destroyLevel level) physical) m)

def vmDestroy (root : Nat) (m : Machine) : Machine :=
  if root = 0 then m else destroyLevel 2 root m

/-- `vm_destroy_user`: only the private half of the root is followed. -/
def vmDestroyUser (root : Nat) (m : Machine) : Machine :=
  if root = 0 then m
  else pageFree root (forRange 256 (destroySlot (destroyLevel 1) root) m)

/-- The body of the loops that prune the tables under a table. -/
def pruneSlot (prune : Nat → Machine → Bool × Machine) (physical i : Nat) (m : Machine) : Machine :=
  let pte := entry m.mem physical i
  if isTable pte then
    match prune (ptePhysical pte) m with
    | (true, m) => (pageFree (ptePhysical pte) m).store physical i 0
    | (false, m) => m
  else m

/-- `prune_level`: free the empty tables below this one; is it empty now? -/
def pruneLevel : Nat → Nat → Machine → Bool × Machine
  | 0, physical, m => (tableEmpty m.mem physical, m)
  | level + 1, physical, m =>
    let m := forRange 512 (pruneSlot (pruneLevel level) physical) m
    (tableEmpty m.mem physical, m)

def vmPruneUser (root : Nat) (m : Machine) : Machine :=
  if root = 0 then m
  else forRange 256 (pruneSlot (pruneLevel 1) root) m

end MiniCore
