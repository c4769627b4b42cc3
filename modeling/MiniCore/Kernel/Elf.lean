import MiniCore.Mm.Mapping
import MiniCore.Mm.UserAccess

/-!
# MiniCore.Kernel.Elf

The program loader (`src/kernel/elf.c`).

The file is what `vfs_openat` found, if anything; opening and closing it leaves
address spaces alone.  Header fields no check reads (section headers, the
physical address of a segment, the header's flag word) are left out.  A loaded
image is an address space with its entry point and stack pointer; every failure
after `address_space_init` destroys the half-built space.
-/

namespace MiniCore

open Lib

/-! ## Headers -/

def elfMachineRiscv : Nat := 243
def elfTypeExec : Nat := 2
def elfProgramLoad : Nat := 1
def elfProgramDynamic : Nat := 2
def elfProgramInterp : Nat := 3
def elfFlagExec : Nat := 1
def elfFlagWrite : Nat := 2
def elfFlagRead : Nat := 4
def elfMaxHeaders : Nat := 16

/-- `USER_END`: segments end at the stack's guard page. -/
def elfUserEnd : Nat := 0x3fb000
def userStackTop : Nat := 0x400000
def userStackPages : Nat := 4

/-- `sizeof(struct elf_header)` -/
def elfHeaderSize : Nat := 64

/-- `sizeof(struct elf_program)` -/
def elfProgramSize : Nat := 56

structure ElfHeader where
  identity : List UInt8
  type : Nat
  machine : Nat
  version : Nat
  entry : Nat
  programOffset : Nat
  headerSize : Nat
  programEntrySize : Nat
  programCount : Nat
deriving DecidableEq, Repr

structure ElfProgram where
  type : Nat
  flags : Nat
  offset : Nat
  virtualAddress : Nat
  fileSize : Nat
  memorySize : Nat
  alignment : Nat
deriving DecidableEq, Repr

/-- The little-endian field of `n` bytes at `at'`. -/
def elfField (bytes : List UInt8) (at' n : Nat) : Nat := loadLE (fun i => bytes.getD i 0) at' n

/-- The bytes of a `struct elf_header`. -/
def elfHeader (bytes : List UInt8) : ElfHeader where
  identity := bytes.take 16
  type := elfField bytes 16 2
  machine := elfField bytes 18 2
  version := elfField bytes 20 4
  entry := elfField bytes 24 8
  programOffset := elfField bytes 32 8
  headerSize := elfField bytes 52 2
  programEntrySize := elfField bytes 54 2
  programCount := elfField bytes 56 2

/-- The bytes of a `struct elf_program`. -/
def elfProgram (bytes : List UInt8) : ElfProgram where
  type := elfField bytes 0 4
  flags := elfField bytes 4 4
  offset := elfField bytes 8 8
  virtualAddress := elfField bytes 16 8
  fileSize := elfField bytes 32 8
  memorySize := elfField bytes 40 8
  alignment := elfField bytes 48 8

def readExact (mem : Memory) (file : File) (size offset : Nat) : Option (List UInt8) :=
  match filePread mem file size offset with
  | .error _ => none
  | .ok bytes => if bytes.length = size then some bytes else none

def validHeader (h : ElfHeader) (fileLength : Nat) : Bool :=
  h.identity.take 7 = [0x7f, 0x45, 0x4c, 0x46, 2, 1, 1] && h.type = elfTypeExec &&
    h.machine = elfMachineRiscv && h.version = 1 && h.headerSize = elfHeaderSize &&
    h.programEntrySize = elfProgramSize && h.programCount != 0 && h.programCount ≤ elfMaxHeaders &&
    h.programOffset ≤ fileLength &&
    h.programCount * elfProgramSize ≤ fileLength - h.programOffset

/-! ## Segments -/

/-- The checks `load_segment` makes on a segment that is not empty. -/
def segmentInvalid (p : ElfProgram) (fileLength : Nat) : Prop :=
  p.memorySize < p.fileSize ∨
    p.flags &&& (elfFlagRead ||| elfFlagWrite ||| elfFlagExec) ≠ p.flags ∨
    (1 < p.alignment ∧ p.alignment &&& (p.alignment - 1) ≠ 0) ∨
    elfUserEnd ≤ p.virtualAddress ∨
    elfUserEnd - p.virtualAddress < p.memorySize ∨
    fileLength < p.offset ∨
    fileLength - p.offset < p.fileSize ∨
    pageOffset (p.virtualAddress ^^^ p.offset) ≠ 0 ∨
    (p.flags &&& elfFlagWrite ≠ 0 ∧ p.flags &&& elfFlagRead = 0) ∨
    p.flags &&& (elfFlagWrite ||| elfFlagExec) = elfFlagWrite ||| elfFlagExec

instance (p : ElfProgram) (fileLength : Nat) : Decidable (segmentInvalid p fileLength) :=
  inferInstanceAs (Decidable (_ ∨ _))

/-- `PTE_U` and the bits of a segment's flags. -/
def segmentFlags (flags : Nat) : Nat :=
  pteU ||| (if flags &&& elfFlagRead ≠ 0 then pteR else 0) |||
    (if flags &&& elfFlagWrite ≠ 0 then pteW else 0) |||
    (if flags &&& elfFlagExec ≠ 0 then pteX else 0)

/-- `read_exact` into a user page; a short read has stored what there was. -/
def readPage (file : File) (physical chunk offset : Nat) (m : Machine) : Bool × Machine :=
  match filePread m.mem file chunk offset with
  | .error _ => (false, m)
  | .ok bytes => (bytes.length = chunk, m.write physical bytes.length fun i => bytes.getD i 0)

/-- The loop that copies the file-backed prefix of a segment. -/
def copySegment (root : Nat) (file : File) (p : ElfProgram) :
    List (Nat × Nat) → Machine → Bool × Machine
  | [], m => (true, m)
  | (address, chunk) :: rest, m =>
    match vmQuery root address m with
    | none => (false, m)
    | some (physical, _) =>
      match readPage file physical chunk (p.offset + (address - p.virtualAddress)) m with
      | (false, m) => (false, m)
      | (true, m) => copySegment root file p rest m

def loadSegment (as : AddressSpace) (file : File) (fileLength : Nat) (p : ElfProgram)
    (m : Machine) :
    Bool × AddressSpace × Machine :=
  if p.memorySize = 0 then (p.fileSize = 0, as, m)
  else if segmentInvalid p fileLength then (false, as, m)
  else
    let flags := segmentFlags p.flags
    if mapped flags = false then (false, as, m)
    else if 2 ^ 64 - 1 - pageMask < p.virtualAddress + p.memorySize then (false, as, m)
    else
      let first := pageDown p.virtualAddress
      let stop := pageUp (p.virtualAddress + p.memorySize)
      match addressSpaceReserve as first stop flags .elf m with
      | (false, as, m) => (false, as, m)
      | (true, as, m) =>
        match addPages flags loadNothing (pageCount first stop) first as m with
        | (false, as, m) => (false, as, m)
        | (true, as, m) =>
          let (ok, m) :=
            copySegment as.root file p (chunks pageSize p.virtualAddress p.fileSize) m
          (ok, as, m)

/-! ## The initial stack -/

/-- `struct exec_arguments`: at most eight strings of each kind, of at most 63
bytes before the terminator. -/
structure ExecArguments where
  argv : List (List UInt8)
  envp : List (List UInt8)
  argc_le : argv.length ≤ 8
  envc_le : envp.length ≤ 8
  fits : ∀ s ∈ argv ++ envp, s.length < 64

/-- The loop that pushes strings below `cursor`, last one first; `strings` is in
the order of the loop, `ptrs` collects their addresses.  The bounds of
`ExecArguments` keep the subtraction exact. -/
def pushStrings (as : AddressSpace) : List (List UInt8) → List Nat → Nat → Machine →
    Bool × List Nat × Nat × Machine
  | [], ptrs, cursor, m => (true, ptrs, cursor, m)
  | s :: rest, ptrs, cursor, m =>
    let length := s.length + 1
    let cursor := cursor - length
    match addressSpaceCopy as (some fun i => s.getD i 0) cursor length true m with
    | (false, c) => (false, ptrs, cursor, c.machine)
    | (true, c) => pushStrings as rest (cursor :: ptrs) cursor c.machine

/-- The bytes of an array of 64-bit words. -/
def wordBytes (words : List Nat) (i : Nat) : UInt8 :=
  UInt8.ofNat (words.getD (i / 8) 0 / 256 ^ (i % 8))

/-- `build_stack`; the stack pointer, if it succeeds. -/
def buildStack (as : AddressSpace) (arguments : ExecArguments) (m : Machine) :
    Option Nat × AddressSpace × Machine :=
  let flags := pteU ||| pteR ||| pteW
  let bottom := userStackTop - userStackPages * pageSize
  match addressSpaceReserve as (userStackTop - (userStackPages + 1) * pageSize) userStackTop flags
      .stack m with
  | (false, as, m) => (none, as, m)
  | (true, as, m) =>
    match addPages flags loadNothing userStackPages bottom as m with
    | (false, as, m) => (none, as, m)
    | (true, as, m) =>
      match pushStrings as arguments.envp.reverse [] userStackTop m with
      | (false, _, _, m) => (none, as, m)
      | (true, envp, cursor, m) =>
        match pushStrings as arguments.argv.reverse [] cursor m with
        | (false, _, _, m) => (none, as, m)
        | (true, argv, cursor, m) =>
          let words := arguments.argv.length :: argv ++ 0 :: envp ++ [0]
          let cursor := (cursor - words.length * 8) / 16 * 16
          if cursor < bottom then (none, as, m)
          else
            match addressSpaceCopy as (some (wordBytes words)) cursor (words.length * 8)
                true m with
            | (false, c) => (none, as, c.machine)
            | (true, c) => (some cursor, as, c.machine)

/-! ## Loading -/

structure ExecImage where
  as : AddressSpace
  entry : Nat
  stackPointer : Nat
deriving DecidableEq, Repr

/-- `memset(image, 0, sizeof(*image))` -/
def ExecImage.zero : ExecImage := ⟨⟨0, [], [], 0, 0⟩, 0, 0⟩

/-- The loop over the program headers; whether one of the segments loaded is
executable and contains the entry point, or `none` on failure. -/
def loadPrograms (file : File) (fileLength : Nat) (h : ElfHeader) :
    List Nat → Bool → AddressSpace → Machine → Option Bool × AddressSpace × Machine
  | [], found, as, m => (some found, as, m)
  | i :: rest, found, as, m =>
    match readExact m.mem file elfProgramSize (h.programOffset + i * elfProgramSize) with
    | none => (none, as, m)
    | some bytes =>
      let p := elfProgram bytes
      if p.type = elfProgramDynamic ∨ p.type = elfProgramInterp then (none, as, m)
      else if p.type ≠ elfProgramLoad then loadPrograms file fileLength h rest found as m
      else
        match loadSegment as file fileLength p m with
        | (false, as, m) => (none, as, m)
        | (true, as, m) =>
          let found := found || (p.flags &&& elfFlagExec != 0 && p.virtualAddress ≤ h.entry &&
            h.entry - p.virtualAddress < p.memorySize)
          loadPrograms file fileLength h rest found as m

/-- The `fail` path. -/
def failLoad (as : AddressSpace) (m : Machine) : Bool × ExecImage × Machine :=
  let (as, m) := addressSpaceDestroy as m
  (false, { ExecImage.zero with as := as }, m)

/-- `elf_load`, given the file the path resolves to. -/
def elfLoad (kernelRoot : Nat) (file : Option File) (arguments : ExecArguments) (m : Machine) :
    Bool × ExecImage × Machine :=
  match file with
  | none => (false, ExecImage.zero, m)
  | some file =>
    match readExact m.mem file elfHeaderSize 0 with
    | none => (false, ExecImage.zero, m)
    | some bytes =>
      let h := elfHeader bytes
      if validHeader h (fileSize file) = false then (false, ExecImage.zero, m)
      else
        match addressSpaceInit kernelRoot m with
        | (false, as, m) => (false, { ExecImage.zero with as := as }, m)
        | (true, as, m) =>
          match loadPrograms file (fileSize file) h (List.range h.programCount) false as m with
          | (some true, as, m) =>
            match buildStack as arguments m with
            | (some sp, as, m) => (true, ⟨as, h.entry, sp⟩, m)
            | (none, as, m) => failLoad as m
          | (_, as, m) => failLoad as m

/-- An ELF file with one segment for reading and executing, larger in memory than
in the file. -/
def tinyProgram : List UInt8 :=
  [0x7f, 0x45, 0x4c, 0x46, 2, 1, 1, 0, 0, 0, 0, 0, 0, 0, 0, 0, 2, 0, 243, 0, 1, 0, 0, 0,
    0x78, 0, 1, 0, 0, 0, 0, 0, 64, 0, 0, 0, 0, 0, 0, 0, 0, 0, 0, 0, 0, 0, 0, 0,
    0, 0, 0, 0, 64, 0, 56, 0, 1, 0, 0, 0, 0, 0, 0, 0,
    1, 0, 0, 0, 5, 0, 0, 0, 0, 0, 0, 0, 0, 0, 0, 0, 0, 0, 1, 0, 0, 0, 0, 0, 0, 0, 1, 0, 0, 0, 0, 0,
    122, 0, 0, 0, 0, 0, 0, 0, 200, 0, 0, 0, 0, 0, 0, 0, 0, 16, 0, 0, 0, 0, 0, 0, 0x01, 0xa0]

def tinyVnode : Vnode := ⟨.reg, some fun i => tinyProgram.getD i 0, 122, fun _ => 0⟩

/-! ## A loaded image is sound -/

theorem flagsOk_segmentFlags {p : ElfProgram} {fileLength : Nat}
    (h : ¬ segmentInvalid p fileLength) : FlagsOk (segmentFlags p.flags) := by
  simp only [segmentInvalid, not_or] at h
  obtain ⟨_, h7, _, _, _, _, _, _, hwr, hwx⟩ := h
  have hlt : p.flags < 8 := lt_of_and_seven (not_not.mp h7)
  have hall : ∀ f < 8, (f &&& elfFlagWrite ≠ 0 ∧ f &&& elfFlagRead = 0) ∨
      f &&& (elfFlagWrite ||| elfFlagExec) = elfFlagWrite ||| elfFlagExec ∨
      segmentFlags f &&& pteU ≠ 0 ∧ (segmentFlags f &&& pteW = 0 ∨ segmentFlags f &&& pteX = 0) ∧
        (segmentFlags f &&& pteW ≠ 0 → segmentFlags f &&& pteR ≠ 0) := by decide
  rcases hall p.flags hlt with hbad | hbad | ⟨hu, hx, hr⟩
  · exact absurd hbad hwr
  · exact absurd hbad hwx
  · exact ⟨hu, hx, hr⟩

section Load

variable {P : PagePool} {m m' m₁ m₂ : Machine} {as as' as₁ as₂ : AddressSpace} {t : Radix}
  {shared : Nat → Nat} {rest objs : Multiset Nat} {ok : Bool}

variable {arguments : ExecArguments} {image : ExecImage}

section

variable (h : Owned P m as t shared rest objs)

include h

/-- A reservation with its pages, as segments and the stack are mapped. -/
theorem mapArea_spec {start stop flags address count : Nat}
    {kind : AreaKind} (hres : addressSpaceReserve as start stop flags kind m = (true, as₁, m₁))
    (hadd : addPages flags loadNothing count address as₁ m₁ = (ok, as₂, m₂)) (hf : FlagsOk flags)
    (hkind : kind ≠ .heap) (hwin : stop ≤ heapBase)
    (hback : address = if kind = .stack then start + 4096 else start)
    (hcount : address + 4096 * count = stop) :
    ∃ t', Owned P m₂ as₂ t' shared rest objs ∧ Keeps rest m m₂ ∧
      (as₂.root = as.root ∧ as₂.brkEnd = as.brkEnd) ∧
      (ok = true → ∃ a new, Mapped as as₂ a new) := by
  obtain ⟨hk1, h1, hcase⟩ := addressSpaceReserve_spec h hres
  obtain ⟨ptr, rfl, hlt, hstart, hstop, hend, hvac⟩ : ∃ ptr,
      as₁ = as.reserve ⟨ptr, start, stop, flags, kind⟩ ∧ start < stop ∧ pageOffset start = 0 ∧
        pageOffset stop = 0 ∧ stop ≤ userEnd ∧ vacant as.areas start stop = true := by
    rcases hcase with ⟨hfalse, _⟩ | ⟨_, ⟨ptr, heq⟩, hrest⟩
    · cases hfalse
    · exact ⟨ptr, heq, hrest⟩
  obtain ⟨t2, new, rfl, h2, _, hk2, hrun, _, hall⟩ :=
    addPages_spec fills_loadNothing _ _ _ _ _ h1 hadd
  refine ⟨t2, h2, (hk1.trans hk2).part, ⟨rfl, rfl⟩, fun hok => ?_⟩
  refine ⟨_, new, ⟨rfl, ⟨hlt, hstart, hstop, hend⟩, hf, hkind, .inl hwin, hvac, ?_, ?_⟩⟩
  · rw [hback] at hrun
    exact hrun
  · rw [hall hok, ← hcount, hback]
    rfl

theorem Owned.readPage (file : File) {physical chunk : Nat}
    (hr : as.Holds (physical, chunk)) (offset : Nat) :
    Owned P (readPage file physical chunk offset m).2 as t shared rest objs ∧
      Keeps rest m (readPage file physical chunk offset m).2 := by
  unfold MiniCore.readPage
  cases hread : filePread m.mem file chunk offset with
  | error e => exact ⟨h, Keeps.refl _ _⟩
  | ok bytes =>
    obtain ⟨p, hp, hlo, hhi⟩ := hr
    have hlen := filePread_length hread
    obtain ⟨h', hk⟩ := h.write hp hlo (Nat.le_trans (Nat.add_le_add_left hlen _) hhi)
    exact ⟨h', hk.part⟩

omit h in
/-- The loop over the chunks of a segment writes into ledger pages only. -/
theorem copySegment_spec (file : File) (p : ElfProgram) : ∀ (cs : List (Nat × Nat)) (m : Machine),
    (∀ x ∈ cs, UserChunk x) → Owned P m as t shared rest objs →
    Owned P (copySegment as.root file p cs m).2 as t shared rest objs ∧
      Keeps rest m (copySegment as.root file p cs m).2 := by
  intro cs
  induction cs with
  | nil => exact fun m _ h => ⟨h, Keeps.refl _ _⟩
  | cons x cs ih =>
    intro m hcs h
    obtain ⟨address, chunk⟩ := x
    obtain ⟨hlt, hin⟩ := hcs _ List.mem_cons_self
    rw [copySegment]
    cases hq : vmQuery as.root address m with
    | none => exact ⟨h, Keeps.refl _ _⟩
    | some r =>
      obtain ⟨page, hp, _, ⟨hlo, hhi⟩, rfl⟩ := h.vmQuery_some hlt hq
      have hal := (h.page_ok page hp).aligned
      have hr : as.Holds (page.physical + (address - page.virtualAddress), chunk) :=
        ⟨page, hp, Nat.le_add_right _ _, by simp only; omega⟩
      obtain ⟨h', hk⟩ := h.readPage file hr (p.offset + (address - p.virtualAddress))
      dsimp only
      generalize MiniCore.readPage file (page.physical + (address - page.virtualAddress)) chunk
        (p.offset + (address - p.virtualAddress)) m = r at h' hk ⊢
      obtain ⟨b, m₁⟩ := r
      cases b with
      | false => exact ⟨h', hk⟩
      | true =>
        obtain ⟨h'', hk'⟩ := ih m₁ (fun x hx => hcs x (List.mem_cons_of_mem _ hx)) h'
        exact ⟨h'', hk.trans hk'⟩

/-- What a step of the loader leaves: an owned space under the same root, and a
reserved one if it succeeded. -/
structure Loads (P : PagePool) (m m' : Machine) (as as' : AddressSpace) (shared : Nat → Nat)
    (rest objs : Multiset Nat) (ok : Prop) : Prop where
  owned : ∃ t', Owned P m' as' t' shared rest objs
  keeps : Keeps rest m m'
  kept : as'.root = as.root ∧ as'.brkEnd = as.brkEnd
  reserved : ok → Reserved as'

theorem Loads.refused {ok : Prop} (hok : ¬ ok) : Loads P m m as as shared rest objs ok :=
  ⟨⟨t, h⟩, Keeps.refl _ _, ⟨rfl, rfl⟩, fun hyes => absurd hyes hok⟩

omit h in
theorem Loads.trans {ok ok' : Prop} (h : Loads P m m₁ as as₁ shared rest objs ok)
    (h' : Loads P m₁ m₂ as₁ as₂ shared rest objs ok') : Loads P m m₂ as as₂ shared rest objs ok' :=
  ⟨h'.owned, h.keeps.trans h'.keeps, ⟨h'.kept.1.trans h.kept.1, h'.kept.2.trans h.kept.2⟩,
    h'.reserved⟩

/-- **`load_segment`** -/
theorem loadSegment_spec (hr : Reserved as) {file : File} {fileLength : Nat} {p : ElfProgram}
    (hrun : loadSegment as file fileLength p m = (ok, as', m')) :
    Loads P m m' as as' shared rest objs (ok = true) := by
  unfold loadSegment at hrun
  split at hrun
  · cases hrun
    exact ⟨⟨t, h⟩, Keeps.refl _ _, ⟨rfl, rfl⟩, fun _ => hr⟩
  split at hrun
  · cases hrun
    exact Loads.refused h (by simp)
  next hvalid =>
  dsimp only at hrun
  split at hrun
  · cases hrun
    exact Loads.refused h (by simp)
  split at hrun
  · cases hrun
    exact Loads.refused h (by simp)
  rcases hres : addressSpaceReserve as (pageDown p.virtualAddress)
      (pageUp (p.virtualAddress + p.memorySize)) (segmentFlags p.flags) .elf m with ⟨b, as₁, m₁⟩
  simp only [hres] at hrun
  cases b with
  | false =>
    cases hrun
    obtain ⟨hk, h1, ⟨_, rfl⟩ | ⟨hfalse, _⟩⟩ := addressSpaceReserve_spec h hres
    · exact ⟨⟨t, h1⟩, hk.part, ⟨rfl, rfl⟩, by simp⟩
    · cases hfalse
  | true =>
    have hbounds : p.virtualAddress + p.memorySize ≤ elfUserEnd ∧ p.fileSize ≤ p.memorySize := by
      simp only [segmentInvalid, not_or, not_lt, not_le] at hvalid
      omega
    have hend : elfUserEnd = 4096 * 1019 := rfl
    have hheap : heapBase = 4096 * 2048 := rfl
    have hlo : pageDown p.virtualAddress ≤ pageUp (p.virtualAddress + p.memorySize) := by
      rw [pageDown_eq, pageUp_eq]
      omega
    have hcount := pageCount_eq hlo (by rw [pageDown_eq]; omega) (by rw [pageUp_eq]; omega)
    have hwin : pageUp (p.virtualAddress + p.memorySize) ≤ heapBase := by
      rw [pageUp_eq]
      omega
    rcases hadd : addPages (segmentFlags p.flags) loadNothing
        (pageCount (pageDown p.virtualAddress) (pageUp (p.virtualAddress + p.memorySize)))
        (pageDown p.virtualAddress) as₁ m₁ with ⟨b, as₂, m₂⟩
    obtain ⟨t2, h2, hk2, hsame, hmap⟩ := mapArea_spec h hres hadd (flagsOk_segmentFlags hvalid)
      (by decide) hwin (by simp) hcount
    simp only [hadd] at hrun
    cases b with
    | false =>
      cases hrun
      exact ⟨⟨t2, h2⟩, hk2, hsame, by simp⟩
    | true =>
      obtain ⟨a, new, hmapped⟩ := hmap rfl
      have hcs : ∀ x ∈ chunks pageSize p.virtualAddress p.fileSize, UserChunk x :=
        userChunk_of_mem (by omega)
      obtain ⟨h3, hk3⟩ := copySegment_spec file p _ m₂ hcs h2
      cases hrun
      exact ⟨⟨t2, h3⟩, hk2.trans hk3, hsame, fun _ => hr.mapped hmapped⟩

omit h in
/-- The loop over the program headers. -/
theorem loadPrograms_spec (file : File) (fileLength : Nat) (hd : ElfHeader) :
    ∀ (is : List Nat) (found : Bool) (as : AddressSpace) (m : Machine) (t : Radix),
    Owned P m as t shared rest objs → Reserved as →
    ∀ {res as' m'}, loadPrograms file fileLength hd is found as m = (res, as', m') →
    Loads P m m' as as' shared rest objs (res ≠ none) := by
  intro is
  induction is with
  | nil =>
    intro found as m t h hr res as' m' hrun
    cases hrun
    exact ⟨⟨t, h⟩, Keeps.refl _ _, ⟨rfl, rfl⟩, fun _ => hr⟩
  | cons i is ih =>
    intro found as m t h hr res as' m' hrun
    rw [loadPrograms] at hrun
    split at hrun
    · cases hrun
      exact Loads.refused h (by simp)
    next bytes _ =>
    dsimp only at hrun
    split at hrun
    · cases hrun
      exact Loads.refused h (by simp)
    split at hrun
    · exact ih found as m t h hr hrun
    rcases hseg : loadSegment as file fileLength (elfProgram bytes) m with ⟨b, as₁, m₁⟩
    have hload := loadSegment_spec h hr hseg
    simp only [hseg] at hrun
    cases b with
    | false =>
      cases hrun
      exact ⟨hload.owned, hload.keeps, hload.kept, fun hne => absurd rfl hne⟩
    | true =>
      obtain ⟨t1, h1⟩ := hload.owned
      exact hload.trans (ih _ as₁ m₁ t1 h1 (hload.reserved rfl) hrun)

omit h in
/-- The strings go through `address_space_copy`. -/
theorem pushStrings_spec : ∀ (strings : List (List UInt8)) (ptrs : List Nat) (cursor : Nat)
    (m : Machine), Owned P m as t shared rest objs →
    ∀ {r}, pushStrings as strings ptrs cursor m = r →
    Owned P r.2.2.2 as t shared rest objs ∧ Keeps rest m r.2.2.2 := by
  intro strings
  induction strings with
  | nil =>
    intro ptrs cursor m h r hrun
    cases hrun
    exact ⟨h, Keeps.refl _ _⟩
  | cons s strings ih =>
    intro ptrs cursor m h r hrun
    obtain ⟨h1, _, hk1⟩ := addressSpaceCopy_spec h (some fun i => s.getD i 0)
      (cursor - (s.length + 1)) (s.length + 1) true
    rw [pushStrings] at hrun
    rcases hcopy : addressSpaceCopy as (some fun i => s.getD i 0)
      (cursor - (s.length + 1)) (s.length + 1) true m with ⟨b, c⟩
    rw [hcopy] at h1 hk1
    simp only [hcopy] at hrun
    cases b with
    | false =>
      cases hrun
      exact ⟨h1, hk1⟩
    | true =>
      obtain ⟨h2, hk2⟩ := ih _ _ _ h1 hrun
      exact ⟨h2, hk1.trans hk2⟩

/-- **`build_stack`** -/
theorem buildStack_spec (hr : Reserved as) {sp : Option Nat}
    (hrun : buildStack as arguments m = (sp, as', m')) :
    Loads P m m' as as' shared rest objs (sp ≠ none) := by
  unfold buildStack at hrun
  dsimp only at hrun
  rcases hres : addressSpaceReserve as
      (userStackTop - (userStackPages + 1) * pageSize) userStackTop (pteU ||| pteR ||| pteW) .stack
      m with ⟨b, as₁, m₁⟩
  simp only [hres] at hrun
  cases b with
  | false =>
    cases hrun
    obtain ⟨hk, h1, ⟨_, rfl⟩ | ⟨hfalse, _⟩⟩ := addressSpaceReserve_spec h hres
    · exact ⟨⟨t, h1⟩, hk.part, ⟨rfl, rfl⟩, fun hne => absurd rfl hne⟩
    · cases hfalse
  | true =>
    rcases hadd : addPages (pteU ||| pteR ||| pteW) loadNothing userStackPages
        (userStackTop - userStackPages * pageSize) as₁ m₁ with ⟨b, as₂, m₂⟩
    obtain ⟨t2, h2, hk2, hsame, hmap⟩ := mapArea_spec h hres hadd
      ⟨by decide, by decide, by decide⟩ (by decide) (by decide) (by decide) (by decide)
    simp only [hadd] at hrun
    cases b with
    | false =>
      cases hrun
      exact ⟨⟨t2, h2⟩, hk2, hsame, fun hne => absurd rfl hne⟩
    | true =>
      obtain ⟨a, new, hmapped⟩ := hmap rfl
      have hr2 := hr.mapped hmapped
      -- from here on only bytes of stack pages change
      rcases henv : pushStrings as₂ arguments.envp.reverse []
          userStackTop m₂ with ⟨b, envp, cursor, m3⟩
      obtain ⟨h3, hk3⟩ := pushStrings_spec _ _ _ _ h2 henv
      simp only [henv] at hrun
      cases b with
      | false =>
        cases hrun
        exact ⟨⟨t2, h3⟩, hk2.trans hk3, hsame, fun hne => absurd rfl hne⟩
      | true =>
        rcases harg : pushStrings as₂ arguments.argv.reverse []
            cursor m3 with ⟨b, argv, cursor, m4⟩
        obtain ⟨h4, hk4⟩ := pushStrings_spec _ _ _ _ h3 harg
        simp only [harg] at hrun
        have hk : Keeps rest m m4 := (hk2.trans hk3).trans hk4
        cases b with
        | false =>
          cases hrun
          exact ⟨⟨t2, h4⟩, hk, hsame, fun hne => absurd rfl hne⟩
        | true =>
          dsimp only at hrun
          generalize hw : arguments.argv.length :: argv ++ 0 :: envp ++ [0] = words at hrun
          split at hrun
          · cases hrun
            exact ⟨⟨t2, h4⟩, hk, hsame, fun hne => absurd rfl hne⟩
          obtain ⟨h5, _, hk5⟩ := addressSpaceCopy_spec h4 (some (wordBytes words))
            ((cursor - words.length * 8) / 16 * 16) (words.length * 8) true
          generalize addressSpaceCopy as₂ (some (wordBytes words))
            ((cursor - words.length * 8) / 16 * 16) (words.length * 8) true m4 = r
            at h5 hk5 hrun
          obtain ⟨b, c⟩ := r
          cases b with
          | false =>
            cases hrun
            exact ⟨⟨t2, h5⟩, hk.trans hk5, hsame, fun hne => absurd rfl hne⟩
          | true =>
            cases hrun
            exact ⟨⟨t2, h5⟩, hk.trans hk5, hsame, fun _ => hr2⟩

/-- The `fail` path leaves nothing behind. -/
theorem failLoad_spec (hrun : failLoad as m = (ok, image, m')) :
    ok = false ∧ Stocked P m' rest ∧ liveBag m'.slabs = objs ∧ Keeps rest m m' := by
  obtain ⟨_, _, _, hst, hlive, hk⟩ := addressSpaceDestroy_spec h rfl
  cases hrun
  exact ⟨rfl, hst, hlive, hk⟩

end

/-- **`elf_load`** makes a space without heap whose reservations and ledger agree,
or fails and owns nothing. -/
theorem elfLoad_spec (hst : Stocked P m rest) (hlive : liveBag m.slabs = objs) {kernelRoot : Nat}
    (hk : kernelRoot ∈ rest) {file : Option File}
    (hrun : elfLoad kernelRoot file arguments m = (ok, image, m')) : Keeps rest m m' ∧
    ((ok = false ∧ Stocked P m' rest ∧ liveBag m'.slabs = objs) ∨
     (ok = true ∧ (image.as.root ≠ 0 ∧ image.as.brkEnd = heapBase) ∧ Reserved image.as ∧
        ∃ t', Owned P m' image.as t' (fun i => entry m.mem kernelRoot i) rest objs)) := by
  unfold elfLoad at hrun
  split at hrun
  · cases hrun
    exact ⟨Keeps.refl _ _, .inl ⟨rfl, hst, hlive⟩⟩
  next file =>
  split at hrun
  · cases hrun
    exact ⟨Keeps.refl _ _, .inl ⟨rfl, hst, hlive⟩⟩
  next bytes _ =>
  dsimp only at hrun
  generalize elfHeader bytes = hd at hrun
  split at hrun
  · cases hrun
    exact ⟨Keeps.refl _ _, .inl ⟨rfl, hst, hlive⟩⟩
  rcases hinit : addressSpaceInit kernelRoot m with ⟨b, as0, m0⟩
  obtain ⟨hk0, heq, hok, hfail, t0, h0⟩ := addressSpaceInit_spec hst hlive hk hinit
  simp only [hinit] at hrun
  cases b with
  | false =>
    cases hrun
    exact ⟨hk0, .inl ⟨rfl, (hfail rfl).2⟩⟩
  | true =>
    rcases hprog : loadPrograms file (fileSize file) hd
        (List.range hd.programCount) false as0 m0 with ⟨res, as₁, m₁⟩
    have hload := loadPrograms_spec file (fileSize file) hd _ false as0 m0 t0 h0
      (Reserved.fresh heq) hprog
    obtain ⟨t1, h1⟩ := hload.owned
    have hk1 := hk0.trans hload.keeps
    simp only [hprog] at hrun
    split at hrun
    · next as₁ m₁ heq' =>
      cases heq'
      rcases hstack : buildStack as₁ arguments m₁ with ⟨sp, as₂, m₂⟩
      have hload' := buildStack_spec h1 (hload.reserved (by simp)) hstack
      obtain ⟨t2, h2⟩ := hload'.owned
      have hk2 := hk1.trans hload'.keeps
      simp only [hstack] at hrun
      cases sp with
      | none =>
        obtain ⟨rfl, hst', hlive', hk'⟩ := failLoad_spec h2 hrun
        exact ⟨hk2.trans hk', .inl ⟨rfl, hst', hlive'⟩⟩
      | some sp =>
        cases hrun
        refine ⟨hk2, .inr ⟨rfl, ?_, hload'.reserved (by simp), t2, h2⟩⟩
        rw [hload'.kept.1, hload.kept.1, hload'.kept.2, hload.kept.2]
        exact ⟨hok.mp rfl, by rw [heq]⟩
    · next heq' =>
      cases heq'
      obtain ⟨rfl, hst', hlive', hk'⟩ := failLoad_spec h1 hrun
      exact ⟨hk1.trans hk', .inl ⟨rfl, hst', hlive'⟩⟩

end Load

end MiniCore
