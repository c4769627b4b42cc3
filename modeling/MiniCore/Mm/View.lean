import MiniCore.Mm.Allocations
import MiniCore.Mm.UserAccess

/-!
# MiniCore.Mm.View

What a program can see of its address space, and the calls of
`MiniCore.Mm.AddressSpace` as functions of that alone.

A `View` has the reservations, the pages with their contents, and the break; it
says nothing about physical pages, tables and heap records.  `View.mmap`,
`View.munmap`, `View.brk` and `View.copy` say what the calls are for.  The code
refines them: it does what they say if it gets the memory it asks for, and
otherwise returns `-E_NOMEM` and leaves the view as it was.
-/

namespace MiniCore

open Lib

/-! ## Views -/

/-- A page with its contents. -/
structure PageImage where
  address : Nat
  flags : Nat
  bytes : Fin 4096 → UInt8

@[ext] structure View where
  areas : List VmArea
  pages : List PageImage
  brkBase : Nat
  brkEnd : Nat

/-- The reservation without its heap record. -/
@[simps start stop flags kind]
def VmArea.bare (a : VmArea) : VmArea := { a with ptr := 0 }

def UserPage.image (mem : Memory) (p : UserPage) : PageImage :=
  ⟨p.virtualAddress, p.flags, fun i => mem (p.physical + i)⟩

def AddressSpace.view (as : AddressSpace) (mem : Memory) : View where
  areas := as.areas.map VmArea.bare
  pages := as.pages.map (UserPage.image mem)
  brkBase := as.brkBase
  brkEnd := as.brkEnd

/-! ## The calls on views -/

/-- A run of `count` new pages, if all of them can be loaded. -/
def newPages (flags : Nat) (load : Nat → Option (Fin 4096 → UInt8)) :
    Nat → Nat → Option (List PageImage)
  | 0, _ => some []
  | count + 1, address => do
    let bytes ← load address
    let rest ← newPages flags load count (address + pageSize)
    return ⟨address, flags, bytes⟩ :: rest

def zeroPage : Fin 4096 → UInt8 := fun _ => 0

/-- What `mmap` puts into the page at an address; `mem` is where the blocks of
files are. -/
def mmapImage (mem : Memory) (mapflags : Nat) (file : Option File) (offset address at' : Nat) :
    Option (Fin 4096 → UInt8) :=
  if mapflags &&& mapAnonymous ≠ 0 then some zeroPage
  else
    match file with
    | none => some zeroPage
    | some f =>
      match filePread mem f pageSize (offset + at' - address) with
      | .error _ => none
      | .ok bytes => some fun i => bytes.getD i 0

namespace View

def mmap (mem : Memory) (v : View) (address length prot mapflags : Nat) (file : Option File)
    (offset : Nat) : Except Errno Nat × View :=
  if mmapInvalid length prot mapflags offset then (.error .inval, v)
  else if mapflags &&& mapAnonymous = 0 ∧ mappable file = false then (.error .badf, v)
  else
    let length := pageUp length
    if 2 ^ 64 - 1 - length < offset then (.error .inval, v)
    else if pageOffset address ≠ 0 then (.error .inval, v)
    else
      match mmapPlace v.areas address length mapflags with
      | .error e => (.error e, v)
      | .ok address =>
        let kind := if mapflags &&& mapAnonymous ≠ 0 then AreaKind.anon else .file
        match newPages (protFlags prot) (mmapImage mem mapflags file offset address)
            (pageCount address (address + length)) address with
        | none => (.error .nomem, v)
        | some new =>
          (.ok address, { v with
            areas := v.areas ++ [⟨0, address, address + length, protFlags prot, kind⟩]
            pages := v.pages ++ new })

/-- The pages outside a range. -/
def without (v : View) (start stop : Nat) : List PageImage :=
  v.pages.filter fun p => p.address < start || stop ≤ p.address

/-- An area that meets the range but must not be cut. -/
def pinned (start stop : Nat) (a : VmArea) : Bool :=
  !(a.stop ≤ start || stop ≤ a.start) && !(a.kind = .anon || a.kind = .file)

def munmap (v : View) (start length : Nat) : Except Errno Nat × View :=
  if pageOffset start ≠ 0 ∨ length = 0 ∨ userEnd ≤ start ∨ userEnd - start < length then
    (.error .inval, v)
  else
    let stop := pageUp (start + length)
    if v.areas.any (pinned start stop) then (.error .perm, v)
    else
      (.ok 0, { v with
        areas := v.areas.flatMap (fun a => (cutArea start stop 0 a).take 1) ++
          v.areas.flatMap fun a => (cutArea start stop 0 a).drop 1
        pages := v.without start stop })

def brk (v : View) (requested : Nat) : Except Errno Nat × View :=
  if requested = 0 then (.ok v.brkEnd, v)
  else if requested < v.brkBase ∨ v.brkBase + maxMapping < requested then (.error .nomem, v)
  else
    let old := pageUp v.brkEnd
    let stop := pageUp requested
    let moved := v.areas.map fun a => if a.kind = .heap then { a with stop := stop } else a
    if old < stop then
      if vacant v.areas old stop = false then (.error .nomem, v)
      else
        (.ok requested, { v with
          areas := if v.areas.any (·.kind = .heap) then moved
            else v.areas ++ [⟨0, v.brkBase, stop, heapFlags, .heap⟩]
          pages := v.pages ++
            ((newPages heapFlags (fun _ => some zeroPage) (pageCount old stop) old).getD [])
          brkEnd := requested })
    else if stop < old then
      (.ok requested, { v with
        areas := if stop = v.brkBase then v.areas.filter (·.kind ≠ .heap) else moved
        pages := v.without stop old
        brkEnd := requested })
    else (.ok requested, { v with brkEnd := requested })

end View

/-! ## Reservations without records -/

section Bare

variable {areas : List VmArea} {start stop : Nat}

@[simp] theorem vacant_bare (areas : List VmArea) (start stop : Nat) :
    vacant (areas.map VmArea.bare) start stop = vacant areas start stop := by
  rw [vacant, vacant, List.all_map]
  rfl

theorem firstFit_bare (areas : List VmArea) (length : Nat) : ∀ n address,
    firstFit (areas.map VmArea.bare) length n address = firstFit areas length n address
  | 0, _ => rfl
  | n + 1, address => by rw [firstFit, firstFit, vacant_bare, firstFit_bare areas length n]

@[simp] theorem mmapPlace_bare (areas : List VmArea) (address length mapflags : Nat) :
    mmapPlace (areas.map VmArea.bare) address length mapflags =
      mmapPlace areas address length mapflags := by
  rw [mmapPlace, mmapPlace, vacant_bare, firstFit_bare]

/-- The trimming loop keeps the first pieces in place and pushes the second ones
back. -/
theorem trimAreas_bare : ∀ (areas : List VmArea) (split : Nat) (m : Machine)
    {kept pushed : List VmArea} {split' : Nat} {m' : Machine},
    trimAreas start stop areas split m = (kept, pushed, split', m') →
    kept.map VmArea.bare =
        (areas.map VmArea.bare).flatMap (fun a => (cutArea start stop 0 a).take 1) ∧
      pushed.map VmArea.bare =
        (areas.map VmArea.bare).flatMap fun a => (cutArea start stop 0 a).drop 1
  | [], split, m, kept, pushed, split', m', hrun => by
    cases hrun
    exact ⟨rfl, rfl⟩
  | a :: areas, split, m, kept, pushed, split', m', hrun => by
    rw [List.map_cons, List.flatMap_cons, List.flatMap_cons]
    have hrest : ∀ split m, (trimAreas start stop areas split m).1.map VmArea.bare =
          (areas.map VmArea.bare).flatMap (fun a => (cutArea start stop 0 a).take 1) ∧
        (trimAreas start stop areas split m).2.1.map VmArea.bare =
          (areas.map VmArea.bare).flatMap fun a => (cutArea start stop 0 a).drop 1 :=
      fun split m => trimAreas_bare areas split m rfl
    rw [trimAreas] at hrun
    split at hrun
    · next hout =>
      cases hrun
      have hcut : cutArea start stop 0 a.bare = [a.bare] := if_pos hout
      simp [hrest, hcut]
    next hhit =>
    split at hrun
    · next hcover =>
      have hcut : cutArea start stop 0 a.bare = [] := (if_neg hhit).trans (if_pos hcover)
      have := hrest split (kfree a.ptr m)
      rw [hrun] at this
      simpa [hcut] using this
    next hcover =>
    split at hrun
    · next haround =>
      cases hrun
      have hcut : cutArea start stop 0 a.bare =
          [{ a.bare with stop := start }, { a.bare with start := stop }] :=
        (if_neg hhit).trans ((if_neg hcover).trans (if_pos haround))
      rw [hcut]
      simp [hrest, VmArea.bare]
    next haround =>
    split at hrun
    · next hleft =>
      cases hrun
      have hcut : cutArea start stop 0 a.bare = [{ a.bare with start := stop }] :=
        (if_neg hhit).trans ((if_neg hcover).trans ((if_neg haround).trans (if_pos hleft)))
      rw [hcut]
      simp [hrest, VmArea.bare]
    · next hleft =>
      cases hrun
      have hcut : cutArea start stop 0 a.bare = [{ a.bare with stop := start }] :=
        (if_neg hhit).trans ((if_neg hcover).trans ((if_neg haround).trans (if_neg hleft)))
      rw [hcut]
      simp [hrest, VmArea.bare]

end Bare

/-! ## Pages without their frames -/

section Pages

variable {P : PagePool} {m m' : Machine} {as as' : AddressSpace} {t : Radix} {shared : Nat → Nat}
  {rest objs : Multiset Nat}

/-- Bytes that are kept are seen as before. -/
theorem image_congr {mem mem' : Memory} {p : UserPage}
    (h : Set.EqOn mem' mem (pageBytes p.physical)) : p.image mem' = p.image mem := by
  have hbytes : (fun i : Fin 4096 => mem' (p.physical + i)) = fun i : Fin 4096 => mem
      (p.physical + i) := by
    funext i
    exact h (mem_pageBytes i.isLt)
  rw [UserPage.image, UserPage.image, hbytes]

theorem images_congr {pages : List UserPage} {rest' : Multiset Nat} (h : Keeps rest' m m')
    (hle : ∀ p ∈ pages, p.physical ∈ rest') :
    pages.map (UserPage.image m'.mem) = pages.map (UserPage.image m.mem) :=
  List.map_congr_left fun p hp => image_congr (h.bytes _ (hle p hp))

theorem AddressSpace.mem_physicals {p : UserPage} (hp : p ∈ as.pages) : p.physical ∈ as.physicals :=
  List.mem_map_of_mem hp

section

variable (hk : Keeps (as.physicals + rest) m m')

include hk

/-- The bytes of a ledger page are kept. -/
theorem Keeps.page {p : UserPage} (hp : p ∈ as.pages) :
    Set.EqOn m'.mem m.mem (pageBytes p.physical) :=
  hk.bytes _ (Multiset.mem_add.mpr (.inl (AddressSpace.mem_physicals hp)))

theorem Keeps.images : as.pages.map (UserPage.image m'.mem) = as.pages.map (UserPage.image m.mem) :=
  List.map_congr_left fun _ hp => image_congr (hk.page hp)

end

end Pages

end MiniCore
