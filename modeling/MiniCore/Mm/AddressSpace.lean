import MiniCore.Fs.File
import MiniCore.Mm.Heap
import MiniCore.Mm.Vm

/-!
# MiniCore.Mm.AddressSpace

User address spaces (`src/mm/address_space.c`).

A `struct address_space` combines three structures: the page table under `root`,
the ledger `pages` of owned user pages, and the reservations `areas`.  The two
lists keep the order of the source's intrusive lists, and a record carries the
address `ptr` of its heap object, so that freeing a record is `kfree` of that
address.  Each call returns its result with the new struct and the new machine.
-/

namespace MiniCore

open Lib

/-- `struct user_page`: the owner's record of one user page. -/
structure UserPage where
  ptr : Nat
  virtualAddress : Nat
  physical : Nat
  flags : Nat
deriving DecidableEq, Repr

/-- `enum area_kind` -/
inductive AreaKind where
  | elf | stack | heap | anon | file
deriving DecidableEq, Repr

/-- `struct vm_area`: the reservation of `[start, stop)`. -/
structure VmArea where
  ptr : Nat
  start : Nat
  stop : Nat
  flags : Nat
  kind : AreaKind
deriving DecidableEq, Repr

structure AddressSpace where
  root : Nat
  pages : List UserPage
  areas : List VmArea
  brkBase : Nat
  brkEnd : Nat
deriving DecidableEq, Repr

def heapBase : Nat := 0x800000

def mmapBase : Nat := 0x10000000

def mmapEnd : Nat := 0x20000000

def maxMapping : Nat := 0x1000000

/-- The first address above the private half, `1 << 38`. -/
def userEnd : Nat := 2 ^ 38

/-- `sizeof(struct user_page)` -/
def userPageSize : Nat := 40

/-- `sizeof(struct vm_area)` -/
def vmAreaSize : Nat := 48

/-- Whether a page with these flags has a leaf: `flags & (PTE_R | PTE_X)`. -/
def mapped (flags : Nat) : Bool := flags &&& (pteR ||| pteX) ≠ 0

/-! ## Creation and destruction -/

def addressSpaceInit (kernelRoot : Nat) (m : Machine) : Bool × AddressSpace × Machine :=
  let (root, m) := vmCreateUser kernelRoot m
  (root != 0, ⟨root, [], [], heapBase, heapBase⟩, m)

/-- The loop that releases the ledger. -/
def freePages : List UserPage → Machine → Machine
  | [], m => m
  | page :: rest, m => freePages rest (kfree page.ptr (pageFree page.physical m))

/-- The loop that releases the reservations. -/
def freeAreas : List VmArea → Machine → Machine
  | [], m => m
  | area :: rest, m => freeAreas rest (kfree area.ptr m)

def addressSpaceDestroy (as : AddressSpace) (m : Machine) : AddressSpace × Machine :=
  ({ as with root := 0, pages := [], areas := [] },
    freeAreas as.areas (freePages as.pages (vmDestroyUser as.root m)))

/-! ## Pages -/

/-- Copy the bytes `data 0, …, data (size - 1)` to physical memory. -/
def Machine.write (m : Machine) (physical size : Nat) (data : Nat → UInt8) : Machine :=
  { m with mem := fill m.mem physical size data }

/-- Zero a fresh page and copy the caller's bytes into it.  `data` reads the
caller's buffer, which may be in physical memory itself; `none` is the null
pointer. -/
def Machine.initPage (m : Machine) (physical size : Nat) (data : Option (Memory → Nat → UInt8)) :
    Machine :=
  let m := m.clear physical
  match data with
  | some data => m.write physical size (data m.mem)
  | none => m

def addressSpaceAddPage (as : AddressSpace) (address flags : Nat)
    (data : Option (Memory → Nat → UInt8)) (size : Nat) (m : Machine) :
    Bool × AddressSpace × Machine :=
  if userEnd ≤ address ∨ pageOffset address ≠ 0 ∨ flags &&& pteU = 0 ∨ pageSize < size ∨
      (size ≠ 0 ∧ data.isNone) then (false, as, m)
  else
    match kmalloc userPageSize m with
    | (0, m) => (false, as, m)
    | (ptr, m) =>
      match pageAlloc m with
      | (0, m) => (false, as, kfree ptr m)
      | (physical, m) =>
        let m := m.initPage physical size data
        let as' := { as with pages := as.pages ++ [⟨ptr, address, physical, flags⟩] }
        if mapped flags then
          match vmMap as.root address physical flags m with
          | (false, m) => (false, as, vmPruneUser as.root (kfree ptr (pageFree physical m)))
          | (true, m) => (true, as', m)
        else (true, as', m)

/-- The loop `for (at = …; …; at += PAGE_SIZE)` that adds `count` pages, shared
by `mmap`, `brk` and the loader.  `load` fills a page just added. -/
def addPages (flags : Nat) (load : Nat → UserPage → Machine → Option Machine) :
    Nat → Nat → AddressSpace → Machine → Bool × AddressSpace × Machine
  | 0, _, as, m => (true, as, m)
  | count + 1, address, as, m =>
    match addressSpaceAddPage as address flags none 0 m with
    | (false, as, m) => (false, as, m)
    | (true, as, m) =>
      match as.pages.getLast?.bind fun page => load address page m with
      | none => (false, as, m)
      | some m => addPages flags load count (address + pageSize) as m

/-- Rounds of `for (at = start; at < stop; at += PAGE_SIZE)`. -/
def pageCount (start stop : Nat) : Nat := (stop - start + pageMask) / pageSize

/-- Nothing is read into the page. -/
def loadNothing (_ : Nat) (_ : UserPage) (m : Machine) : Option Machine := some m

/-- The loop of `remove_pages`. -/
def removeLoop (root start stop : Nat) : List UserPage → Machine → List UserPage × Machine
  | [], m => ([], m)
  | p :: rest, m =>
    if p.virtualAddress < start ∨ stop ≤ p.virtualAddress then
      let (kept, m) := removeLoop root start stop rest m
      (p :: kept, m)
    else
      let m := if mapped p.flags then (vmUnmap root p.virtualAddress m).2 else m
      removeLoop root start stop rest (kfree p.ptr (pageFree p.physical m))

def removePages (as : AddressSpace) (start stop : Nat) (m : Machine) : AddressSpace × Machine :=
  let (pages, m) := removeLoop as.root start stop as.pages m
  ({ as with pages := pages }, vmPruneUser as.root m)

/-! ## Reservations -/

def vacant (areas : List VmArea) (start stop : Nat) : Bool :=
  areas.all fun a => !(start < a.stop && a.start < stop)

def addressSpaceReserve (as : AddressSpace) (start stop flags : Nat) (kind : AreaKind)
    (m : Machine) : Bool × AddressSpace × Machine :=
  if stop ≤ start ∨ pageOffset start ≠ 0 ∨ pageOffset stop ≠ 0 ∨ userEnd < stop ∨
      vacant as.areas start stop = false then (false, as, m)
  else
    match kmalloc vmAreaSize m with
    | (0, m) => (false, as, m)
    | (ptr, m) => (true, { as with areas := as.areas ++ [⟨ptr, start, stop, flags, kind⟩] }, m)

/-! ## Copying and moving whole spaces -/

/-- The first loop of `address_space_clone`. -/
def cloneAreas : List VmArea → AddressSpace → Machine → Bool × AddressSpace × Machine
  | [], as, m => (true, as, m)
  | a :: rest, as, m =>
    match addressSpaceReserve as a.start a.stop a.flags a.kind m with
    | (false, as, m) => (false, as, m)
    | (true, as, m) => cloneAreas rest as m

/-- The second loop of `address_space_clone`. -/
def clonePages : List UserPage → AddressSpace → Machine → Bool × AddressSpace × Machine
  | [], as, m => (true, as, m)
  | p :: rest, as, m =>
    match addressSpaceAddPage as p.virtualAddress p.flags
        (some fun mem i => mem (p.physical + i)) pageSize m with
    | (false, as, m) => (false, as, m)
    | (true, as, m) => clonePages rest as m

/-- `address_space_clone`; the struct returned is the destination. -/
def addressSpaceClone (source : AddressSpace) (kernelRoot : Nat) (m : Machine) :
    Bool × AddressSpace × Machine :=
  match addressSpaceInit kernelRoot m with
  | (false, as, m) => (false, as, m)
  | (true, as, m) =>
    let as := { as with brkBase := source.brkBase, brkEnd := source.brkEnd }
    match cloneAreas source.areas as m with
    | (false, as, m) => (false, addressSpaceDestroy as m)
    | (true, as, m) =>
      match clonePages source.pages as m with
      | (false, as, m) => (false, addressSpaceDestroy as m)
      | (true, as, m) => (true, as, m)

/-- `address_space_move`: the new destination and the new source. -/
def addressSpaceMove (source : AddressSpace) : AddressSpace × AddressSpace :=
  (source, { source with root := 0, pages := [], areas := [] })

/-! ## Access to user memory -/

/-- The test both copying and validating make on each page. -/
def accessible (as : AddressSpace) (address : Nat) (write : Bool) (m : Machine) : Option Nat :=
  match vmQuery as.root address m with
  | none => none
  | some (physical, flags) =>
    if flags &&& (pteU ||| pteR) ≠ (pteU ||| pteR) ∨ (write = true ∧ flags &&& pteW = 0) then none
    else some physical

/-- The state of a copy: the machine, the kernel buffer, how much is done, and
the physical ranges touched so far, which no function reads. -/
structure Copy where
  machine : Machine
  buffer : Nat → UInt8
  done : Nat
  touched : List (Nat × Nat)

/-- The `memcpy` of one chunk, in one direction or the other. -/
def Copy.move (c : Copy) (physical chunk : Nat) (toUser : Bool) : Copy :=
  let touched := (physical, chunk) :: c.touched
  if toUser then
    { c with
      machine := c.machine.write physical chunk fun i => c.buffer (c.done + i)
      done := c.done + chunk
      touched := touched }
  else
    { c with
      buffer := fill c.buffer c.done chunk fun i => c.machine.mem (physical + i)
      done := c.done + chunk
      touched := touched }

def copyLoop (as : AddressSpace) (toUser : Bool) : List (Nat × Nat) → Copy → Bool × Copy
  | [], c => (true, c)
  | (address, chunk) :: rest, c =>
    match accessible as address toUser c.machine with
    | none => (false, c)
    | some physical => copyLoop as toUser rest (c.move physical chunk toUser)

/-- `address_space_copy`; a null buffer is `none`. -/
def addressSpaceCopy (as : AddressSpace) (buffer : Option (Nat → UInt8)) (address size : Nat)
    (toUser : Bool) (m : Machine) : Bool × Copy :=
  let start : Copy := ⟨m, buffer.getD fun _ => 0, 0, []⟩
  if size = 0 then (true, start)
  else if buffer.isNone ∨ userEnd ≤ address ∨ userEnd - address < size then (false, start)
  else copyLoop as toUser (chunks pageSize address size) start

def addressSpaceValidate (as : AddressSpace) (address size : Nat) (write : Bool) (m : Machine) :
    Bool :=
  if size = 0 then true
  else if userEnd ≤ address ∨ userEnd - address < size then false
  else (chunks pageSize address size).all fun c => (accessible as c.1 write m).isSome

/-! ## mmap -/

/-- `PTE_U` and the bits of a protection. -/
def protFlags (prot : Nat) : Nat :=
  pteU ||| (if prot &&& protRead ≠ 0 then pteR else 0) |||
    (if prot &&& protWrite ≠ 0 then pteW else 0) ||| (if prot &&& protExec ≠ 0 then pteX else 0)

/-- The first checks of `address_space_mmap`. -/
def mmapInvalid (length prot mapflags offset : Nat) : Prop :=
  length = 0 ∨ maxMapping < length ∨ prot &&& 7 ≠ prot ∨
    (prot &&& protWrite ≠ 0 ∧ prot &&& protRead = 0) ∨
    prot &&& (protWrite ||| protExec) = protWrite ||| protExec ∨
    mapflags &&& mapPrivate = 0 ∨
    mapflags &&& (mapPrivate ||| mapAnonymous ||| mapFixedNoreplace) ≠ mapflags ∨
    pageOffset offset ≠ 0 ∨ (mapflags &&& mapAnonymous ≠ 0 ∧ offset ≠ 0)

instance (length prot mapflags offset : Nat) :
    Decidable (mmapInvalid length prot mapflags offset) := by
  unfold mmapInvalid
  infer_instance

/-- Whether a file may be mapped: a regular file open for reading. -/
def mappable (file : Option File) : Bool :=
  match file with
  | none => false
  | some f =>
    match f.node with
    | none => false
    | some n => n.type = .reg && f.flags &&& oAccmode != oWronly

/-- The first-fit scan: at most `n` starts are tried from `address` on. -/
def firstFit (areas : List VmArea) (length : Nat) : Nat → Nat → Option Nat
  | 0, _ => none
  | n + 1, address =>
    if vacant areas address (address + length) then some address
    else firstFit areas length n (address + pageSize)

/-- Where `mmap` puts a mapping of `length` bytes: a fixed address is taken or
refused, any other one is a hint. -/
def mmapPlace (areas : List VmArea) (address length mapflags : Nat) : Except Errno Nat :=
  if mapflags &&& mapFixedNoreplace ≠ 0 then
    if address < mmapBase ∨ mmapEnd - length < address then .error .inval
    else if vacant areas address (address + length) = false then .error .exist
    else .ok address
  else if address < mmapBase ∨ mmapEnd - length < address ∨
      vacant areas address (address + length) = false then
    match firstFit areas length ((mmapEnd - length - mmapBase) / pageSize + 1) mmapBase with
    | none => .error .nomem
    | some address => .ok address
  else .ok address

/-- The page at `at` of a file mapping gets its bytes of the file. -/
def loadFile (file : File) (offset address at' : Nat) (page : UserPage) (m : Machine) :
    Option Machine :=
  match filePread m.mem file pageSize (offset + at' - address) with
  | .error _ => none
  | .ok bytes => some (m.write page.physical bytes.length fun i => bytes.getD i 0)

def mmapLoad (mapflags : Nat) (file : Option File) (offset address : Nat) :
    Nat → UserPage → Machine → Option Machine :=
  if mapflags &&& mapAnonymous ≠ 0 then loadNothing
  else
    match file with
    | none => loadNothing
    | some f => loadFile f offset address

def addressSpaceMmap (as : AddressSpace) (address length prot mapflags : Nat)
    (file : Option File) (offset : Nat) (m : Machine) : Except Errno Nat × AddressSpace × Machine :=
  if mmapInvalid length prot mapflags offset then (.error .inval, as, m)
  else if mapflags &&& mapAnonymous = 0 ∧ mappable file = false then (.error .badf, as, m)
  else
    let length := pageUp length
    if 2 ^ 64 - 1 - length < offset then (.error .inval, as, m)
    else if pageOffset address ≠ 0 then (.error .inval, as, m)
    else
      match mmapPlace as.areas address length mapflags with
      | .error e => (.error e, as, m)
      | .ok address =>
        let flags := protFlags prot
        let kind := if mapflags &&& mapAnonymous ≠ 0 then AreaKind.anon else .file
        match addressSpaceReserve as address (address + length) flags kind m with
        | (false, as, m) => (.error .nomem, as, m)
        | (true, as, m) =>
          match addPages flags (mmapLoad mapflags file offset address)
              (pageCount address (address + length)) address as m with
          | (true, as, m) => (.ok address, as, m)
          | (false, as, m) =>
            -- the area reserved above is still the last one
            let (as, m) := removePages as address (address + length) m
            (.error .nomem, { as with areas := as.areas.dropLast },
              kfree ((as.areas.getLast?.map VmArea.ptr).getD 0) m)

/-! ## munmap -/

/-- The preflight over the reservations: the record for a middle cut, allocated
ahead (0 if none is needed), or the error. -/
def munmapPreflight (start stop : Nat) : List VmArea → Nat → Machine → Except Errno Nat × Machine
  | [], split, m => (.ok split, m)
  | a :: rest, split, m =>
    if a.stop ≤ start ∨ stop ≤ a.start then munmapPreflight start stop rest split m
    else if a.kind ≠ .anon ∧ a.kind ≠ .file then (.error .perm, kfree split m)
    else if a.start < start ∧ stop < a.stop then
      match kmalloc vmAreaSize m with
      | (0, m) => (.error .nomem, m)
      | (ptr, m) => munmapPreflight start stop rest ptr m
    else munmapPreflight start stop rest split m

/-- The loop that cuts `[start, stop)` out of the reservations: the areas it
keeps, the areas it pushes back behind them, the spare record and the machine. -/
def trimAreas (start stop : Nat) :
    List VmArea → Nat → Machine → List VmArea × List VmArea × Nat × Machine
  | [], split, m => ([], [], split, m)
  | a :: rest, split, m =>
    if a.stop ≤ start ∨ stop ≤ a.start then
      let (kept, pushed, split, m) := trimAreas start stop rest split m
      (a :: kept, pushed, split, m)
    else if start ≤ a.start ∧ a.stop ≤ stop then
      trimAreas start stop rest split (kfree a.ptr m)
    else if a.start < start ∧ stop < a.stop then
      let (kept, pushed, split', m) := trimAreas start stop rest 0 m
      ({ a with stop := start } :: kept, { a with ptr := split, start := stop } :: pushed,
        split', m)
    else if start ≤ a.start then
      let (kept, pushed, split, m) := trimAreas start stop rest split m
      ({ a with start := stop } :: kept, pushed, split, m)
    else
      let (kept, pushed, split, m) := trimAreas start stop rest split m
      ({ a with stop := start } :: kept, pushed, split, m)

def addressSpaceMunmap (as : AddressSpace) (start length : Nat) (m : Machine) :
    Except Errno Nat × AddressSpace × Machine :=
  if pageOffset start ≠ 0 ∨ length = 0 ∨ userEnd ≤ start ∨ userEnd - start < length then
    (.error .inval, as, m)
  else
    let stop := pageUp (start + length)
    match munmapPreflight start stop as.areas 0 m with
    | (.error e, m) => (.error e, as, m)
    | (.ok split, m) =>
      let (as, m) := removePages as start stop m
      let (kept, pushed, split, m) := trimAreas start stop as.areas split m
      -- the loop then runs over what it pushed back
      let (kept', pushed', split, m) := trimAreas start stop pushed split m
      (.ok 0, { as with areas := kept ++ kept' ++ pushed' }, kfree split m)

/-! ## brk -/

def heapFlags : Nat := pteU ||| pteR ||| pteW

/-- The heap reservation; the last one if there were several. -/
def findHeap (areas : List VmArea) : Option VmArea :=
  areas.foldl (fun heap a => if a.kind = .heap then some a else heap) none

/-- The growing branch of `address_space_brk`, from `old` to `stop`. -/
def brkGrow (as : AddressSpace) (requested old stop : Nat) (m : Machine) :
    Except Errno Nat × AddressSpace × Machine :=
  if vacant as.areas old stop = false then (.error .nomem, as, m)
  else
    match findHeap as.areas with
    | some heap =>
      match addPages heapFlags loadNothing (pageCount old stop) old as m with
      | (false, as, m) =>
        let (as, m) := removePages as old stop m
        (.error .nomem, as, m)
      | (true, as, m) =>
        (.ok requested, { as with
          areas := as.areas.replace heap { heap with stop := stop }
          brkEnd := requested }, m)
    | none =>
      match kmalloc vmAreaSize m with
      | (0, m) => (.error .nomem, as, m)
      | (fresh, m) =>
        match addPages heapFlags loadNothing (pageCount old stop) old as m with
        | (false, as, m) =>
          let (as, m) := removePages as old stop m
          (.error .nomem, as, kfree fresh m)
        | (true, as, m) =>
          (.ok requested, { as with
            areas := as.areas ++ [⟨fresh, as.brkBase, stop, heapFlags, .heap⟩]
            brkEnd := requested }, m)

/-- The shrinking branch of `address_space_brk`, from `old` to `stop`. -/
def brkShrink (as : AddressSpace) (requested old stop : Nat) (m : Machine) :
    Except Errno Nat × AddressSpace × Machine :=
  let (as, m) := removePages as stop old m
  match findHeap as.areas with
  | none => (.ok requested, { as with brkEnd := requested }, m)
  | some heap =>
    if stop = heap.start then
      (.ok requested, { as with areas := as.areas.erase heap, brkEnd := requested },
        kfree heap.ptr m)
    else
      (.ok requested, { as with
        areas := as.areas.replace heap { heap with stop := stop }
        brkEnd := requested }, m)

def addressSpaceBrk (as : AddressSpace) (requested : Nat) (m : Machine) :
    Except Errno Nat × AddressSpace × Machine :=
  if requested = 0 then (.ok as.brkEnd, as, m)
  else if requested < as.brkBase ∨ as.brkBase + maxMapping < requested then (.error .nomem, as, m)
  else
    let old := pageUp as.brkEnd
    let stop := pageUp requested
    if old < stop then brkGrow as requested old stop m
    else if stop < old then brkShrink as requested old stop m
    else (.ok requested, { as with brkEnd := requested }, m)

end MiniCore
