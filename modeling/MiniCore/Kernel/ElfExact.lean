import MiniCore.Kernel.ElfStack
import MiniCore.Kernel.Spaces
import Mathlib.Data.Nat.Bitwise

/-!
# MiniCore.Kernel.ElfExact

What `elf_load` accepts, and what it loads.

`Loadable` says which files are programs for this kernel, and `Depicts` what a
space shows that has one loaded.  Given its memory, `elf_load` returns true for
exactly the loadable files, and the image then depicts the file
(`elf_load_exact`).  The loop over the program headers keeps a `Stage`: the
segments loaded so far are apart, the reservations are theirs, and the space shows
them and nothing else.
-/

namespace MiniCore

open Lib List

variable {p : ElfProgram} {segs : List ElfProgram} {n : Vnode}

variable {a : Nat} {file : Nat → UInt8}

/-! ## Files as programs -/

/-- The program headers of a file. -/
def elfPrograms (file : List UInt8) : List ElfProgram :=
  (range (elfHeader file).programCount).map fun i =>
    elfProgram (file.drop ((elfHeader file).programOffset + i * elfProgramSize))

namespace ElfProgram

/-- The page-rounded range of a segment. -/
def first (p : ElfProgram) : Nat := pageDown p.virtualAddress
def stop (p : ElfProgram) : Nat := pageUp (p.virtualAddress + p.memorySize)

def Covers (p : ElfProgram) (a : Nat) : Prop := p.first ≤ a ∧ a < p.stop

instance (p : ElfProgram) (a : Nat) : Decidable (p.Covers a) := inferInstanceAs (Decidable (_ ∧ _))

def Apart (p q : ElfProgram) : Prop := p.stop ≤ q.first ∨ q.stop ≤ p.first

/-- A flag word has only the bits for read, write and execute, of these read or
execute, write only with read, and not write with execute. -/
structure Permitted (flags : Nat) : Prop where
  bits : flags &&& 7 = flags
  some : flags &&& elfFlagRead ≠ 0 ∨ flags &&& elfFlagExec ≠ 0
  write : flags &&& elfFlagWrite ≠ 0 → flags &&& elfFlagRead ≠ 0
  exclusive : ¬(flags &&& elfFlagWrite ≠ 0 ∧ flags &&& elfFlagExec ≠ 0)

/-- What a segment that is not empty must be like. -/
structure Fits (p : ElfProgram) (fileLength : Nat) : Prop where
  size : p.fileSize ≤ p.memorySize
  inFile : p.offset + p.fileSize ≤ fileLength
  below : p.virtualAddress + p.memorySize ≤ 0x3fb000
  congruent : p.virtualAddress % 4096 = p.offset % 4096
  alignment : p.alignment = 0 ∨ ∃ k, p.alignment = 2 ^ k
  permitted : Permitted p.flags

/-- The byte of a segment at an address: from the file, then zeros. -/
def byte (p : ElfProgram) (file : Nat → UInt8) (a : Nat) : UInt8 :=
  if p.virtualAddress ≤ a ∧ a < p.virtualAddress + p.fileSize then
    file (p.offset + (a - p.virtualAddress))
  else 0

end ElfProgram

/-- The segments that take memory. -/
def segments (programs : List ElfProgram) : List ElfProgram :=
  programs.filter fun p => p.type = elfProgramLoad && p.memorySize != 0

/-- What an ELF header must be like: 64 bits, little-endian, version 1,
executable, for RISC-V, with one to sixteen program headers in the file. -/
structure HeaderOk (file : List UInt8) : Prop where
  length : 64 ≤ file.length
  identity : file.take 7 = [0x7f, 0x45, 0x4c, 0x46, 2, 1, 1]
  type : (elfHeader file).type = 2
  machine : (elfHeader file).machine = 243
  version : (elfHeader file).version = 1
  headerSize : (elfHeader file).headerSize = 64
  programEntrySize : (elfHeader file).programEntrySize = 56
  programs : 1 ≤ (elfHeader file).programCount ∧ (elfHeader file).programCount ≤ 16
  inFile : (elfHeader file).programOffset + (elfHeader file).programCount * 56 ≤ file.length

structure Loadable (file : List UInt8) : Prop where
  header : HeaderOk file
  static : ∀ p ∈ elfPrograms file, p.type ≠ 2 ∧ p.type ≠ 3
  empty : ∀ p ∈ elfPrograms file, p.type = 1 → p.memorySize = 0 → p.fileSize = 0
  fits : ∀ p ∈ elfPrograms file, p.type = 1 → p.memorySize ≠ 0 → p.Fits file.length
  apart : (segments (elfPrograms file)).Pairwise ElfProgram.Apart
  entry : ∃ p ∈ elfPrograms file, p.type = 1 ∧ p.flags &&& elfFlagExec ≠ 0 ∧
    p.virtualAddress ≤ (elfHeader file).entry ∧
    (elfHeader file).entry < p.virtualAddress + p.memorySize

/-- The rights of a translation are these. -/
structure Rights (flags : Nat) (read write exec : Prop) : Prop where
  user : flags &&& pteU ≠ 0
  read : flags &&& pteR ≠ 0 ↔ read
  write : flags &&& pteW ≠ 0 ↔ write
  exec : flags &&& pteX ≠ 0 ↔ exec

/-- A space shows the segments of a file, a stack above a guard page, and nothing
else in the user half. -/
structure Depicts (file : List UInt8) (as : AddressSpace) (m : Machine) : Prop where
  segment : ∀ p ∈ segments (elfPrograms file), ∀ a, p.Covers a → ∃ flags,
    peek as m a = some (flags, p.byte (fun i => file.getD i 0) a) ∧
      Rights flags (p.flags &&& elfFlagRead ≠ 0) (p.flags &&& elfFlagWrite ≠ 0)
        (p.flags &&& elfFlagExec ≠ 0)
  stack : ∀ a, 0x3fc000 ≤ a → a < 0x400000 → ∃ flags byte, peek as m a = some (flags, byte) ∧
    Rights flags True True False
  guard : ∀ a, 0x3fb000 ≤ a → a < 0x3fc000 → peek as m a = none
  nothing : ∀ a < 2 ^ 38, (∀ p ∈ segments (elfPrograms file), ¬ p.Covers a) →
    ¬(0x3fc000 ≤ a ∧ a < 0x400000) → peek as m a = none

/-! ## Reading headers -/

theorem elfField_take {bytes : List UInt8} {at' n k : Nat} (h : at' + n ≤ k) :
    elfField (bytes.take k) at' n = elfField bytes at' n := by
  refine loadLE_congr fun i hi => ?_
  simp only [getD_eq_getElem?_getD, getElem?_take]
  rw [if_pos (by omega)]

theorem elfHeader_take (bytes : List UInt8) :
    elfHeader (bytes.take elfHeaderSize) = elfHeader bytes := by
  unfold elfHeader elfHeaderSize
  simp (disch := decide) only [take_take, elfField_take]
  rfl

theorem elfProgram_take (bytes : List UInt8) :
    elfProgram (bytes.take elfProgramSize) = elfProgram bytes := by
  unfold elfProgram elfProgramSize
  simp (disch := decide) only [elfField_take]

section Read

variable {mem : Memory} {file : File}

theorem length_contents (mem : Memory) (n : Vnode) : (n.contents mem).length = n.size := by
  simp [Vnode.contents]

theorem contents_getD {i : Nat} (hi : i < n.size) : (n.contents mem).getD i 0 = n.byte mem i := by
  simp [Vnode.contents, getD_eq_getElem?_getD, hi]

/-- **`read_exact`** of a regular file. -/
theorem readExact_eq (h : file.Reads n) (size offset : Nat) :
    readExact mem file size offset = if size ≤ n.size - offset then
      some (((n.contents mem).drop offset).take size) else none := by
  rw [readExact, filePread_eq h]
  simp only [length_map, length_range]
  by_cases hle : size ≤ n.size - offset
  · rw [if_pos (Nat.min_eq_left hle), if_pos hle, Nat.min_eq_left hle, Option.some.injEq]
    refine ext_getElem (by simp [Vnode.contents, hle]) fun i _ _ => ?_
    simp [Vnode.contents]
  · rw [if_neg (by omega), if_neg hle]

end Read

/-! ## Checks -/

/-- The checks of the header, as a predicate of the file. -/
theorem validHeader_iff {file : List UInt8} (hlen : 64 ≤ file.length) :
    validHeader (elfHeader file) file.length = true ↔ HeaderOk file := by
  have htake : (elfHeader file).identity.take 7 = file.take 7 := by
    simp [elfHeader, take_take]
  simp only [validHeader, htake, Bool.and_eq_true, decide_eq_true_eq, bne_iff_ne, ne_eq]
  constructor
  · rintro ⟨⟨⟨⟨⟨⟨⟨⟨⟨hid, htype⟩, hmach⟩, hver⟩, hsize⟩, hent⟩, hpos⟩, hmax⟩, hoff⟩, htable⟩
    unfold elfProgramSize at htable
    exact ⟨hlen, hid, htype, hmach, hver, hsize, hent, ⟨by omega, hmax⟩, by omega⟩
  · rintro ⟨-, hid, htype, hmach, hver, hsize, hent, ⟨hpos, hmax⟩, hfit⟩
    unfold elfProgramSize
    exact ⟨⟨⟨⟨⟨⟨⟨⟨⟨hid, htype⟩, hmach⟩, hver⟩, hsize⟩, hent⟩, by omega⟩, hmax⟩, by omega⟩, by omega⟩

theorem permitted_iff {flags : Nat} : ElfProgram.Permitted flags ↔
      flags &&& (elfFlagRead ||| elfFlagWrite ||| elfFlagExec) = flags ∧
        ¬(flags &&& elfFlagWrite ≠ 0 ∧ flags &&& elfFlagRead = 0) ∧
        ¬(flags &&& (elfFlagWrite ||| elfFlagExec) = elfFlagWrite ||| elfFlagExec) ∧
        mapped (segmentFlags flags) = true := by
  have hseven : elfFlagRead ||| elfFlagWrite ||| elfFlagExec = 7 := rfl
  have hall : ∀ f < 8, ((f &&& elfFlagRead ≠ 0 ∨ f &&& elfFlagExec ≠ 0) ∧
      (f &&& elfFlagWrite ≠ 0 → f &&& elfFlagRead ≠ 0) ∧
      ¬(f &&& elfFlagWrite ≠ 0 ∧ f &&& elfFlagExec ≠ 0)) ↔
      (¬(f &&& elfFlagWrite ≠ 0 ∧ f &&& elfFlagRead = 0) ∧
        ¬(f &&& (elfFlagWrite ||| elfFlagExec) = elfFlagWrite ||| elfFlagExec) ∧
        mapped (segmentFlags f) = true) := by decide
  rw [hseven]
  constructor
  · rintro ⟨hbits, hsome, hwrite, hexcl⟩
    exact ⟨hbits, (hall flags (lt_of_and_seven hbits)).mp ⟨hsome, hwrite, hexcl⟩⟩
  rintro ⟨hbits, hrest⟩
  obtain ⟨hsome, hwrite, hexcl⟩ := (hall flags (lt_of_and_seven hbits)).mpr hrest
  exact ⟨hbits, hsome, hwrite, hexcl⟩

theorem alignment_iff (a : Nat) : ¬(1 < a ∧ a &&& (a - 1) ≠ 0) ↔ a = 0 ∨ ∃ k, a = 2 ^ k := by
  by_cases ha : a = 0
  · simp [ha]
  have hpow : a &&& (a - 1) = 0 ↔ ∃ k, a = 2 ^ k := Nat.and_sub_one_eq_zero_iff_isPowerOfTwo ha
  rw [← hpow]
  by_cases hone : 1 < a
  · simp [ha, hone]
  · obtain rfl : a = 1 := by omega
    simp

theorem pageOffset_xor_iff (a b : Nat) : pageOffset (a ^^^ b) = 0 ↔ a % 4096 = b % 4096 := by
  have h : (a ^^^ b) % 2 ^ 12 = a % 2 ^ 12 ^^^ b % 2 ^ 12 := Nat.xor_mod_two_pow
  rw [pageOffset_eq, show 4096 = 2 ^ 12 from rfl, h, Nat.xor_eq_zero_iff]

/-- The checks of `load_segment` are those of `Fits`: no subtraction in them wraps. -/
theorem fits_iff {fileLength : Nat} (hne : p.memorySize ≠ 0) :
    p.Fits fileLength ↔ ¬ segmentInvalid p fileLength ∧ mapped (segmentFlags p.flags) = true := by
  simp only [segmentInvalid, not_or, not_lt, not_le, ne_eq, not_not, elfUserEnd]
  constructor
  · rintro ⟨hsize, hfile, hbelow, hcong, halign, hperm⟩
    obtain ⟨hbits, hwr, hwx, hmapped⟩ := permitted_iff.mp hperm
    rw [← alignment_iff] at halign
    exact ⟨⟨hsize, hbits, halign, by omega, by omega, by omega, by omega,
      (pageOffset_xor_iff _ _).mpr hcong, hwr, hwx⟩, hmapped⟩
  · rintro ⟨⟨hsize, hbits, halign, hva, hmem, hoff, hfile, hcong, hwr, hwx⟩, hmapped⟩
    exact ⟨hsize, by omega, by omega, (pageOffset_xor_iff _ _).mp hcong,
      (alignment_iff _).mp halign,
      permitted_iff.mpr ⟨hbits, hwr, hwx, hmapped⟩⟩

theorem validLeafFlags_segment {flags : Nat} (h : ElfProgram.Permitted flags) :
    validLeafFlags (segmentFlags flags) = true ∧ segmentFlags flags &&& pteU ≠ 0 ∧
      Rights (hardwareFlags (segmentFlags flags)) (flags &&& elfFlagRead ≠ 0)
        (flags &&& elfFlagWrite ≠ 0) (flags &&& elfFlagExec ≠ 0) := by
  have hleaf : ∀ f < 8, (f &&& elfFlagWrite ≠ 0 → f &&& elfFlagRead ≠ 0) →
      (f &&& elfFlagRead ≠ 0 ∨ f &&& elfFlagExec ≠ 0) →
        validLeafFlags (segmentFlags f) = true := by decide
  have huser : ∀ f < 8, segmentFlags f &&& pteU ≠ 0 ∧
      hardwareFlags (segmentFlags f) &&& pteU ≠ 0 := by
    decide
  have hrights : ∀ f < 8, (hardwareFlags (segmentFlags f) &&& pteR ≠ 0 ↔ f &&& elfFlagRead ≠ 0) ∧
      (hardwareFlags (segmentFlags f) &&& pteW ≠ 0 ↔ f &&& elfFlagWrite ≠ 0) ∧
      (hardwareFlags (segmentFlags f) &&& pteX ≠ 0 ↔ f &&& elfFlagExec ≠ 0) := by decide
  have hlt : flags < 8 := lt_of_and_seven h.bits
  obtain ⟨hu, hu'⟩ := huser flags hlt
  obtain ⟨hr, hw, hx⟩ := hrights flags hlt
  exact ⟨hleaf flags hlt h.write h.some, hu, hu', hr, hw, hx⟩

/-! ## Allocations -/

def loadSegmentAllocs (as : AddressSpace) (fileLength : Nat) (p : ElfProgram) (m : Machine) :
    List Bool :=
  if p.memorySize = 0 then []
  else if segmentInvalid p fileLength then []
  else
    let flags := segmentFlags p.flags
    if mapped flags = false then []
    else if 2 ^ 64 - 1 - pageMask < p.virtualAddress + p.memorySize then []
    else
      let first := pageDown p.virtualAddress
      let stop := pageUp (p.virtualAddress + p.memorySize)
      mapAreaAllocs as first stop flags .elf (pageCount first stop) first m

def loadProgramsAllocs (file : File) (fileLength : Nat) (h : ElfHeader) :
    List Nat → AddressSpace → Machine → List Bool
  | [], _, _ => []
  | i :: rest, as, m =>
    match readExact m.mem file elfProgramSize (h.programOffset + i * elfProgramSize) with
    | none => []
    | some bytes =>
      let p := elfProgram bytes
      if p.type = elfProgramDynamic ∨ p.type = elfProgramInterp then []
      else if p.type ≠ elfProgramLoad then loadProgramsAllocs file fileLength h rest as m
      else
        loadSegmentAllocs as fileLength p m ++
          match loadSegment as file fileLength p m with
          | (false, _, _) => []
          | (true, as, m) => loadProgramsAllocs file fileLength h rest as m

/-- The allocations of `elf_load`: the root table, then those for the segments and
the stack. -/
def elfLoadAllocs (kernelRoot : Nat) (file : Option File) (m : Machine) : List Bool :=
  match file with
  | none => []
  | some file =>
    match readExact m.mem file elfHeaderSize 0 with
    | none => []
    | some bytes =>
      let h := elfHeader bytes
      if validHeader h (fileSize file) = false then []
      else
        match addressSpaceInit kernelRoot m with
        | (false, _, _) => [false]
        | (true, as, m) =>
          true :: (loadProgramsAllocs file (fileSize file) h (range h.programCount) as m ++
            match loadPrograms file (fileSize file) h (range h.programCount) false as m with
            | (some true, as, m) => buildStackAllocs as m
            | _ => [])

/-! ## Segments on pictures -/

theorem ElfProgram.Apart.not_covers {q : ElfProgram} (h : p.Apart q) (hp : p.Covers a)
    (hq : q.Covers a) : False := by
  unfold ElfProgram.Apart at h
  unfold ElfProgram.Covers at hp hq
  omega

/-- What the segments loaded so far show. -/
def segmentPicture (file : Nat → UInt8) (segs : List ElfProgram) : Picture := fun a =>
  (segs.find? fun p => p.Covers a).map fun p =>
    (hardwareFlags (segmentFlags p.flags), p.byte file a)

theorem segmentPicture_none (h : ∀ p ∈ segs, ¬ p.Covers a) : segmentPicture file segs a = none := by
  rw [segmentPicture, Option.map_eq_none_iff, find?_eq_none]
  exact fun p hp => by simpa using h p hp

/-- Inside a segment the picture is that segment's. -/
theorem segmentPicture_some (hap : segs.Pairwise ElfProgram.Apart) (hp : p ∈ segs)
    (ha : p.Covers a) :
    segmentPicture file segs a = some (hardwareFlags (segmentFlags p.flags), p.byte file a) := by
  induction segs with
  | nil => cases hp
  | cons q segs ih =>
    rw [pairwise_cons] at hap
    rw [segmentPicture, find?_cons]
    rcases List.mem_cons.mp hp with rfl | hp
    · simp [ha]
    have hno : ¬ q.Covers a := fun hq => (hap.1 p hp).not_covers hq ha
    rw [decide_eq_false hno]
    exact ih hap.2 hp

/-- A segment apart from the others: fresh pages with the file's bytes over them. -/
theorem segmentPicture_append (hap : ∀ q ∈ segs, q.Apart p) (hsize : p.fileSize ≤ p.memorySize)
    {count : Nat} (hcount : p.first + 4096 * count = p.stop) :
    overlay (showRange (segmentPicture file segs) p.first (4096 * count) (segmentFlags p.flags))
        p.virtualAddress p.fileSize (fun i => file (p.offset + i)) =
      segmentPicture file (segs ++ [p]) := by
  funext a
  have hlo : p.first ≤ p.virtualAddress := by
    rw [ElfProgram.first, pageDown_eq]
    omega
  have hhi : p.virtualAddress + p.memorySize ≤ p.stop := by
    rw [ElfProgram.stop, pageUp_eq]
    omega
  rw [segmentPicture, find?_append]
  by_cases ha : p.Covers a
  · have hnone : segs.find? (fun q => decide (q.Covers a)) = none := by
      refine List.find?_eq_none.mpr fun q hq hyes => ?_
      exact (hap q hq).not_covers (of_decide_eq_true hyes) ha
    have hrange : p.first ≤ a ∧ a < p.first + 4096 * count := by
      rw [hcount]
      exact ha
    rw [hnone]
    simp only [overlay, showRange, if_pos hrange, find?_cons, decide_eq_true ha, Option.none_or,
      Option.map_some, ElfProgram.byte]
    split
    · rfl
    · rfl
  · have hrange : ¬(p.first ≤ a ∧ a < p.first + 4096 * count) := by
      rw [hcount]
      exact ha
    rw [overlay_of_not_mem (by omega), showRange, if_neg hrange, segmentPicture]
    simp [ha]

/-! ## Loading -/

section Load

variable {P : PagePool} {m m' m₁ m₂ : Machine} {as as' as₁ as₂ : AddressSpace} {t : Radix}
  {shared : Nat → Nat} {rest objs : Multiset Nat} {ok : Bool} {file : File} {byte : Nat → UInt8}

theorem readPage_eq (hfile : file.Reads n) (physical : Nat) {chunk offset : Nat}
    (hin : offset + chunk ≤ n.size) : ∃ f, readPage file physical chunk offset m =
      (true, m.write physical chunk f) ∧ ∀ i < chunk, f i = n.byte m.mem (offset + i) := by
  have hmin : min chunk (n.size - offset) = chunk := by omega
  refine ⟨fun i => ((range chunk).map fun i => n.byte m.mem (offset + i)).getD i 0, ?_, ?_⟩
  · rw [readPage, filePread_eq hfile, hmin]
    simp
  · intro i hi
    simp [getD_eq_getElem?_getD, hi]

/-- **The copy loop of `load_segment`** puts the file's bytes where the segment
wants them. -/
theorem copySegment_exact (hfile : file.Reads n) (hkept : n.Kept rest) (p : ElfProgram)
    (address size : Nat) : ∀ m, Owned P m as t shared rest objs → p.virtualAddress ≤ address →
    address + size ≤ 2 ^ 38 → p.offset + (address - p.virtualAddress) + size ≤ n.size →
    (∀ i < size, peek as m (address + i) ≠ none) →
    (copySegment as.root file p (chunks pageSize address size) m).1 = true ∧
      SameUser (peek as (copySegment as.root file p (chunks pageSize address size) m).2)
        (overlay (peek as m) address size fun i =>
          n.byte m.mem (p.offset + (address - p.virtualAddress) + i)) := by
  have hl := chunked pageSize_pos address size
  generalize chunks pageSize address size = l at hl ⊢
  induction hl with
  | nil address =>
    intro m _ _ _ _ _
    refine ⟨rfl, fun a _ => ?_⟩
    rw [overlay_zero]
    rfl
  | cons address chunk size l hpos hin _ ih =>
  intro m h hva hle hsize hall
  have hin' : address % 4096 + chunk ≤ 4096 := hin
  obtain ⟨x, hx⟩ := Option.ne_none_iff_exists'.mp (hall 0 (by omega))
  obtain ⟨⟨physical, flags⟩, hq, -⟩ := Option.map_eq_some_iff.mp hx
  rw [Nat.add_zero] at hq
  obtain ⟨f, hread, hf⟩ := readPage_eq (m := m) hfile physical
    (show p.offset + (address - p.virtualAddress) + chunk ≤ n.size by omega)
  obtain ⟨h', hk, hpeek⟩ := h.peek_write (f := f) (by omega) hin' hq
  have hkeep : ∀ i < size, peek as (m.write physical chunk f) (address + chunk + i) ≠ none := by
    intro i hi
    rw [hpeek _ (by omega), overlay_of_not_mem (by omega), Nat.add_assoc]
    exact hall (chunk + i) (by omega)
  obtain ⟨hok, hrest⟩ := ih (m.write physical chunk f) h' (by omega) (by omega) (by omega) hkeep
  rw [copySegment, hq]
  dsimp only
  rw [hread]
  refine ⟨hok, hrest.trans ?_⟩
  have hoff : (fun i => n.byte (m.write physical chunk f).mem
      (p.offset + (address + chunk - p.virtualAddress) + i)) =
      fun i => n.byte m.mem (p.offset + (address - p.virtualAddress) + (chunk + i)) := by
    funext i
    have hat : p.offset + (address + chunk - p.virtualAddress) + i =
        p.offset + (address - p.virtualAddress) + (chunk + i) := by omega
    rw [hkept.byte_eq hk, hat]
  rw [hoff, ← overlay_overlay (peek as m) address chunk size fun i =>
    n.byte m.mem (p.offset + (address - p.virtualAddress) + i), ← overlay_congr hf]
  exact hpeek.overlay _ _ _

/-- The loader has loaded the segments `segs` of the file, and nothing else. -/
structure Stage (P : PagePool) (m : Machine) (as : AddressSpace) (shared : Nat → Nat)
    (rest objs : Multiset Nat) (n : Vnode) (byte : Nat → UInt8) (segs : List ElfProgram) :
    Prop where
  owned : ∃ t, Owned P m as t shared rest objs
  reserved : Reserved as
  root : as.root ≠ 0
  reads : n.byte m.mem = byte
  apart : segs.Pairwise ElfProgram.Apart
  fits : ∀ p ∈ segs, p.Fits n.size
  ranges : as.areas.map (fun a => (a.start, a.stop)) = segs.map fun p => (p.first, p.stop)
  shows : SameUser (peek as m) (segmentPicture byte segs)

theorem Stage.vacant_iff (h : Stage P m as shared rest objs n byte segs) {start stop : Nat} :
    vacant as.areas start stop = true ↔ ∀ q ∈ segs, q.stop ≤ start ∨ stop ≤ q.first := by
  have hrange : ∀ r : Nat × Nat, r ∈ as.areas.map (fun a => (a.start, a.stop)) ↔
      r ∈ segs.map fun p => (p.first, p.stop) := fun r => by rw [h.ranges]
  rw [MiniCore.vacant_iff]
  constructor
  · intro hall q hq
    obtain ⟨a, ha, heq⟩ := List.mem_map.mp ((hrange _).mpr (mem_map_of_mem hq))
    obtain ⟨hs, he⟩ := Prod.mk.inj heq
    rw [← hs, ← he]
    exact hall a ha
  · intro hall a ha
    obtain ⟨q, hq, heq⟩ := List.mem_map.mp ((hrange _).mp (mem_map_of_mem ha))
    obtain ⟨hs, he⟩ := Prod.mk.inj heq
    rw [← hs, ← he]
    exact hall q hq

theorem ElfProgram.first_add (p : ElfProgram) :
    p.first + 4096 * pageCount p.first p.stop = p.stop := by
  unfold ElfProgram.first ElfProgram.stop
  refine pageCount_eq ?_ ?_ ?_
  · rw [pageDown_eq, pageUp_eq]
    omega
  · rw [pageDown_eq]
    omega
  · rw [pageUp_eq]
    omega

theorem ElfProgram.Fits.stop_le {fileLength : Nat} (h : p.Fits fileLength) :
    p.first ≤ p.virtualAddress ∧ p.virtualAddress + p.memorySize ≤ p.stop ∧ p.stop ≤ 0x3fb000 := by
  have := h.below
  rw [ElfProgram.first, ElfProgram.stop, pageDown_eq, pageUp_eq]
  omega

theorem apart_concat (h : segs.Pairwise ElfProgram.Apart) :
    (segs ++ [p]).Pairwise ElfProgram.Apart ↔ ∀ q ∈ segs, q.Apart p := by
  simp [pairwise_append, h]

/-- **`load_segment`** of a segment that is not empty: it succeeds if and only if
the segment fits and is apart from the others, and then the space shows it too. -/
theorem loadSegment_exact (hfile : file.Reads n) (hkept : n.Kept rest)
    (h : Stage P m as shared rest objs n byte segs) (hne : p.memorySize ≠ 0)
    (hallocs : false ∉ loadSegmentAllocs as n.size p m)
    (hrun : loadSegment as file n.size p m = (ok, as', m')) :
    (ok = true ↔ p.Fits n.size ∧ ∀ q ∈ segs, q.Apart p) ∧
      (ok = true → Stage P m' as' shared rest objs n byte (segs ++ [p])) := by
  obtain ⟨t, hown⟩ := h.owned
  have hload := loadSegment_spec hown h.reserved hrun
  have hchecks : p.Fits n.size ↔ ¬ segmentInvalid p n.size ∧ mapped (segmentFlags p.flags) = true :=
    fits_iff hne
  rw [loadSegment, if_neg hne] at hrun
  rw [loadSegmentAllocs, if_neg hne] at hallocs
  by_cases hinv : segmentInvalid p n.size
  · rw [if_pos hinv] at hrun
    cases hrun
    exact ⟨by simp [hchecks, hinv], by simp⟩
  rw [if_neg hinv] at hrun hallocs
  dsimp only at hrun hallocs
  by_cases hmap : mapped (segmentFlags p.flags) = true
  case neg =>
    rw [if_pos (Bool.eq_false_iff.mpr hmap)] at hrun
    cases hrun
    exact ⟨by simp [hchecks, hmap], by simp⟩
  have hfits : p.Fits n.size := hchecks.mpr ⟨hinv, hmap⟩
  obtain ⟨hlo, hhi, htop⟩ := hfits.stop_le
  have hmod : p.first % 4096 = 0 ∧ p.stop % 4096 = 0 := by
    rw [ElfProgram.first, ElfProgram.stop, pageDown_eq, pageUp_eq]
    omega
  have hwrap : ¬ 2 ^ 64 - 1 - pageMask < p.virtualAddress + p.memorySize := by
    unfold pageMask pageSize
    omega
  rw [if_neg (by simp [hmap]), if_neg hwrap] at hrun hallocs
  change false ∉ mapAreaAllocs as p.first p.stop (segmentFlags p.flags) .elf
    (pageCount p.first p.stop) p.first m at hallocs
  have hreserve : false ∉ reserveAllocs as p.first p.stop m := by
    rw [mapAreaAllocs, mem_append, not_or] at hallocs
    exact hallocs.1
  have hiff : (addressSpaceReserve as p.first p.stop (segmentFlags p.flags) .elf m).1 = true ↔
      ∀ q ∈ segs, q.Apart p :=
    (reserve_true_iff (by omega) hmod.1 hmod.2 (by omega) hreserve).trans h.vacant_iff
  rcases hres : addressSpaceReserve as p.first p.stop (segmentFlags p.flags) .elf
    m with ⟨b, as₁, m₁⟩
  rw [hres] at hiff
  rw [show addressSpaceReserve as (pageDown p.virtualAddress)
    (pageUp (p.virtualAddress + p.memorySize)) (segmentFlags p.flags) .elf m = (b, as₁, m₁)
    from hres] at hrun
  cases b with
  | false =>
    cases hrun
    exact ⟨by simpa [hfits] using hiff, by simp⟩
  | true =>
    have hap := hiff.mp rfl
    rcases hadd : addPages (segmentFlags p.flags) loadNothing
        (pageCount p.first p.stop) p.first as₁ m₁ with ⟨b, as₂, m₂⟩
    obtain ⟨hvalid, huser, -⟩ := validLeafFlags_segment hfits.permitted
    obtain ⟨hok, hpeek2⟩ := mapArea_peek hown h.reserved h.root huser hmap hvalid (Nat.le_refl _)
      hmod.1 p.first_add hallocs hres hadd
    cases hok
    dsimp only at hrun
    rw [show addPages (segmentFlags p.flags) loadNothing
      (pageCount (pageDown p.virtualAddress) (pageUp (p.virtualAddress + p.memorySize)))
      (pageDown p.virtualAddress) as₁ m₁ = (true, as₂, m₂) from hadd] at hrun
    obtain ⟨hk1, hown1, ⟨hfalse, -⟩ | ⟨-, ⟨ptr, hareas⟩, -⟩⟩ := addressSpaceReserve_spec hown hres
    · cases hfalse
    obtain ⟨t2, new, heq2, hown2, -, hk2, -⟩ :=
      addPages_spec fills_loadNothing _ _ _ _ _ hown1 hadd
    have hk : Keeps rest m m₂ := hk1.part.trans
      hk2.part
    have hshown : SameUser (peek as₂ m₂) (showRange (segmentPicture byte segs) p.first
        (4096 * pageCount p.first p.stop) (segmentFlags p.flags)) := hpeek2.trans fun a ha => by
      rw [showRange, showRange, h.shows a ha]
    have hfilled : ∀ i < p.fileSize, peek as₂ m₂ (p.virtualAddress + i) ≠ none := by
      intro i hi
      have hsize := hfits.size
      have hin : p.first ≤ p.virtualAddress + i ∧ p.virtualAddress + i <
          p.first + 4096 * pageCount p.first p.stop := by
        rw [p.first_add]
        omega
      rw [hshown _ (by omega), showRange, if_pos hin]
      simp
    have hsize := hfits.size
    have hin := hfits.inFile
    obtain ⟨hok, hpeek3⟩ := copySegment_exact hfile hkept p p.virtualAddress p.fileSize m₂ hown2
      (Nat.le_refl _) (by omega) (by omega) hfilled
    cases hrun
    rw [hok] at hload ⊢
    refine ⟨⟨fun _ => ⟨hfits, hap⟩, fun _ => rfl⟩, fun _ => ?_⟩
    refine ⟨hload.owned, hload.reserved rfl, ?_, ?_, ?_, ?_, ?_, ?_⟩
    · rw [hload.kept.1]
      exact h.root
    · rw [hkept.byte_eq hload.keeps, h.reads]
    · exact (apart_concat h.apart).mpr hap
    · intro q hq
      rcases List.mem_append.mp hq with hq | hq
      · exact h.fits q hq
      · rw [List.mem_singleton.mp hq]
        exact hfits
    · rw [heq2, hareas, AddressSpace.reserve, map_append, map_append, h.ranges]
      rfl
    · refine hpeek3.trans ((hshown.overlay _ _ _).trans fun a _ => ?_)
      rw [← segmentPicture_append hap hfits.size p.first_add, hkept.byte_eq hk, h.reads,
        Nat.sub_self, Nat.add_zero]

/-! ## The loop over the program headers -/

/-- What one more program header asks of the loader. -/
structure Admits (fileLength : Nat) (p : ElfProgram) : Prop where
  static : p.type ≠ 2 ∧ p.type ≠ 3
  empty : p.type = 1 → p.memorySize = 0 → p.fileSize = 0
  fits : p.type = 1 → p.memorySize ≠ 0 → p.Fits fileLength

/-- The program headers still to come can be loaded beside the segments `segs`. -/
structure Acceptable (fileLength : Nat) (segs programs : List ElfProgram) : Prop where
  admits : ∀ p ∈ programs, Admits fileLength p
  apart : (segs ++ segments programs).Pairwise ElfProgram.Apart

theorem segments_cons (p : ElfProgram) (programs : List ElfProgram) :
    segments (p :: programs) = segments [p] ++ segments programs := by
  rw [segments, segments, segments, ← filter_append, singleton_append]

theorem segments_load (ht : p.type = 1) (hne : p.memorySize ≠ 0) : segments [p] = [p] := by
  simp [segments, elfProgramLoad, ht, hne]

theorem segments_other (h : p.type ≠ 1 ∨ p.memorySize = 0) : segments [p] = [] := by
  rcases h with h | h
  · simp [segments, elfProgramLoad, h]
  · simp [segments, h]

/-- One program header at a time, as the loader reads them. -/
theorem acceptable_cons {fileLength : Nat} {programs : List ElfProgram} :
    Acceptable fileLength segs (p :: programs) ↔
      Admits fileLength p ∧ Acceptable fileLength (segs ++ segments [p]) programs := by
  have hsegs : segs ++ segments (p :: programs) = segs ++ segments [p] ++ segments programs := by
    rw [segments_cons, append_assoc]
  constructor
  · rintro ⟨hadm, hap⟩
    exact ⟨hadm p mem_cons_self, fun q hq => hadm q (mem_cons_of_mem _ hq), hsegs ▸ hap⟩
  · rintro ⟨hadm, hadm', hap⟩
    exact ⟨List.forall_mem_cons.mpr ⟨hadm, hadm'⟩, hsegs ▸ hap⟩

/-- The program header at an index. -/
def programAt (contents : List UInt8) (h : ElfHeader) (i : Nat) : ElfProgram :=
  elfProgram (contents.drop (h.programOffset + i * elfProgramSize))

/-- Whether the entry point is in an executable segment. -/
def entered (entry : Nat) (p : ElfProgram) : Bool :=
  p.type = elfProgramLoad && (p.flags &&& elfFlagExec != 0 && p.virtualAddress ≤ entry &&
    entry - p.virtualAddress < p.memorySize)

/-- **One `PT_LOAD`**: loaded if and only if it may be, and then on stage. -/
theorem loadSegment_admits (hfile : file.Reads n) (hkept : n.Kept rest)
    (h : Stage P m as shared rest objs n byte segs) (ht : p.type = 1)
    (hallocs : false ∉ loadSegmentAllocs as n.size p m)
    (hrun : loadSegment as file n.size p m = (ok, as', m')) :
    (ok = true ↔ Admits n.size p ∧ (segs ++ segments [p]).Pairwise ElfProgram.Apart) ∧
      (ok = true → Stage P m' as' shared rest objs n byte (segs ++ segments [p])) := by
  have hstatic : p.type ≠ 2 ∧ p.type ≠ 3 := by omega
  by_cases hne : p.memorySize = 0
  · rw [segments_other (.inr hne), append_nil]
    rw [loadSegment, if_pos hne] at hrun
    cases hrun
    refine ⟨?_, fun _ => h⟩
    rw [decide_eq_true_eq]
    exact ⟨fun hz => ⟨⟨hstatic, fun _ _ => hz, fun _ hno => absurd hne hno⟩, h.apart⟩,
      fun hadm => hadm.1.empty ht hne⟩
  rw [segments_load ht hne, apart_concat h.apart]
  obtain ⟨hiff, hstage⟩ := loadSegment_exact hfile hkept h hne hallocs hrun
  refine ⟨hiff.trans (and_congr_left' ?_), hstage⟩
  exact ⟨fun hfits => ⟨hstatic, fun _ hz => absurd hz hne, fun _ _ => hfits⟩,
    fun hadm => hadm.fits ht hne⟩

/-- **The loop over the program headers.** -/
theorem loadPrograms_exact (hfile : file.Reads n) (hkept : n.Kept rest) (hd : ElfHeader) :
    ∀ (is : List Nat) (found : Bool) (as : AddressSpace) (m : Machine) (segs : List ElfProgram),
    Stage P m as shared rest objs n byte segs →
    (∀ i ∈ is, hd.programOffset + i * elfProgramSize + elfProgramSize ≤ n.size) →
    false ∉ loadProgramsAllocs file n.size hd is as m →
    ∀ {res as' m'}, loadPrograms file n.size hd is found as m = (res, as', m') →
    (res ≠ none ↔ Acceptable n.size segs (is.map (programAt ((range n.size).map byte) hd))) ∧
      (res ≠ none →
        res = some (found ||
          (is.map (programAt ((range n.size).map byte) hd)).any (entered hd.entry)) ∧
        Stage P m' as' shared rest objs n byte
          (segs ++ segments (is.map (programAt ((range n.size).map byte) hd)))) := by
  intro is
  induction is with
  | nil =>
    intro found as m segs h _ _ res as' m' hrun
    cases hrun
    refine ⟨⟨fun _ => ⟨by simp, ?_⟩, fun _ => by simp⟩, fun _ => ⟨by simp, ?_⟩⟩
    · simpa [segments] using h.apart
    · simpa [segments] using h
  | cons i is ih =>
    intro found as m segs h hfit hallocs res as' m' hrun
    have hread : readExact m.mem file elfProgramSize (hd.programOffset + i * elfProgramSize) =
        some ((((range n.size).map byte).drop (hd.programOffset + i * elfProgramSize)).take
          elfProgramSize) := by
      have := hfit i mem_cons_self
      rw [readExact_eq hfile, if_pos (by omega), Vnode.contents, h.reads]
    have hrest : ∀ i ∈ is, hd.programOffset + i * elfProgramSize + elfProgramSize ≤ n.size :=
      fun i hi => hfit i (mem_cons_of_mem _ hi)
    rw [loadPrograms, hread] at hrun
    rw [loadProgramsAllocs, hread] at hallocs
    dsimp only at hrun hallocs
    rw [elfProgram_take] at hrun hallocs
    rw [map_cons, any_cons, segments_cons (programAt _ hd i) (is.map _), acceptable_cons,
      ← append_assoc]
    rw [show elfProgram (((range n.size).map byte).drop
      (hd.programOffset + i * elfProgramSize)) = programAt ((range n.size).map byte) hd i
      from rfl] at hrun hallocs
    generalize programAt ((range n.size).map byte) hd i = p at hrun hallocs ⊢
    by_cases hdyn : p.type = elfProgramDynamic ∨ p.type = elfProgramInterp
    · rw [if_pos hdyn] at hrun
      cases hrun
      have hno : ¬ Admits n.size p := fun hadm => by
        rcases hdyn with hdyn | hdyn
        · exact hadm.static.1 hdyn
        · exact hadm.static.2 hdyn
      exact ⟨by simp [hno], by simp⟩
    rw [if_neg hdyn] at hrun hallocs
    have hstatic : p.type ≠ 2 ∧ p.type ≠ 3 := not_or.mp hdyn
    by_cases hload : p.type = elfProgramLoad
    case neg =>
      rw [if_pos hload] at hrun hallocs
      have hadm : Admits n.size p :=
        ⟨hstatic, fun ht => absurd ht hload, fun ht => absurd ht hload⟩
      have hent : entered hd.entry p = false := by simp [entered, hload]
      rw [segments_other (.inl hload), append_nil, hent, Bool.false_or]
      obtain ⟨hiff, hstage⟩ := ih found as m segs h hrest hallocs hrun
      exact ⟨hiff.trans (by simp [hadm]), hstage⟩
    rw [if_neg (not_not.mpr hload)] at hrun hallocs
    rw [mem_append, not_or] at hallocs
    rcases hseg : loadSegment as file n.size p m with ⟨b, as₁, m₁⟩
    obtain ⟨hiff, hstage⟩ := loadSegment_admits hfile hkept h hload hallocs.1 hseg
    rw [hseg] at hrun hallocs
    cases b with
    | false =>
      cases hrun
      refine ⟨⟨fun hne => absurd rfl hne, fun hacc => ?_⟩, fun hne => absurd rfl hne⟩
      have hap := (List.pairwise_append.mp hacc.2.apart).1
      exact absurd (hiff.mpr ⟨hacc.1, hap⟩) (by simp)
    | true =>
      obtain ⟨hiff', hstage'⟩ := ih _ as₁ m₁ _ (hstage rfl) hrest hallocs.2 hrun
      refine ⟨hiff'.trans (by simp [(hiff.mp rfl).1]), fun hne => ?_⟩
      obtain ⟨hres, hst⟩ := hstage' hne
      refine ⟨?_, hst⟩
      rw [hres, entered, decide_eq_true hload, Bool.true_and, Bool.or_assoc]

/-! ## The whole file -/

theorem any_entered {entry : Nat} {programs : List ElfProgram} :
    programs.any (entered entry) = true ↔ ∃ p ∈ programs, p.type = 1 ∧ p.flags &&& elfFlagExec ≠ 0 ∧
      p.virtualAddress ≤ entry ∧ entry < p.virtualAddress + p.memorySize := by
  rw [any_eq_true]
  refine exists_congr fun p => and_congr_right fun _ => ?_
  rw [entered, Bool.and_eq_true, Bool.and_eq_true, Bool.and_eq_true, bne_iff_ne]
  constructor
  · rintro ⟨ht, ⟨hx, hlo⟩, hhi⟩
    have hlo := of_decide_eq_true hlo
    have hhi := of_decide_eq_true hhi
    exact ⟨of_decide_eq_true ht, hx, hlo, by omega⟩
  · rintro ⟨ht, hx, hlo, hhi⟩
    exact ⟨decide_eq_true ht, ⟨hx, decide_eq_true hlo⟩, decide_eq_true (by omega)⟩

/-- A loadable file passes the three groups of checks. -/
theorem loadable_iff {contents : List UInt8} :
    Loadable contents ↔ HeaderOk contents ∧ Acceptable contents.length [] (elfPrograms contents) ∧
      (elfPrograms contents).any (entered (elfHeader contents).entry) = true := by
  rw [any_entered]
  constructor
  · rintro ⟨hheader, hstatic, hempty, hfits, hap, hentry⟩
    exact ⟨hheader, ⟨fun p hp => ⟨hstatic p hp, hempty p hp, hfits p hp⟩, hap⟩, hentry⟩
  · rintro ⟨hheader, ⟨hadm, hap⟩, hentry⟩
    exact ⟨hheader, fun p hp => (hadm p hp).static, fun p hp => (hadm p hp).empty,
      fun p hp => (hadm p hp).fits, hap, hentry⟩

/-- The loader starts with nothing. -/
theorem Stage.start (hst : Stocked P m rest) (hlive : liveBag m.slabs = objs) {kernelRoot : Nat}
    (hk : kernelRoot ∈ rest) (hkept : n.Kept rest)
    (hrun : addressSpaceInit kernelRoot m = (true, as', m')) :
    Stage P m' as' (fun i => entry m.mem kernelRoot i) rest objs n (n.byte m.mem) [] := by
  obtain ⟨hkeep, heq, hok, -, t, h⟩ := addressSpaceInit_spec hst hlive hk hrun
  refine ⟨⟨t, h⟩, Reserved.fresh heq, hok.mp rfl, hkept.byte_eq hkeep,
    List.Pairwise.nil, by simp, ?_, ?_⟩
  · rw [heq]
    rfl
  intro a ha
  rw [h.peek_eq_lookup ha, heq]
  rfl

/-- **`build_stack`** on top of the segments. -/
theorem Stage.stack (h : Stage P m as shared rest objs n byte segs) (arguments : ExecArguments)
    (hallocs : false ∉ buildStackAllocs as m) :
    ∃ sp as' m', buildStack as arguments m = (some sp, as', m') ∧
      (∀ p ∈ segs, ∀ a, p.Covers a →
        peek as' m' a = some (hardwareFlags (segmentFlags p.flags), p.byte byte a)) ∧
      (∀ a, stackBottom ≤ a → a < userStackTop →
      ∃ x, peek as' m' a = some (hardwareFlags stackFlags, x)) ∧
      ∀ a < 2 ^ 38, (∀ p ∈ segs, ¬ p.Covers a) → ¬(stackBottom ≤ a ∧ a < userStackTop) →
        peek as' m' a = none := by
  have hbottom : stackBottom = 4177920 := rfl
  have htop : userStackTop = 4194304 := rfl
  obtain ⟨t, hown⟩ := h.owned
  have hvac : vacant as.areas (userStackTop - (userStackPages + 1) * pageSize)
      userStackTop = true := by
    rw [h.vacant_iff]
    exact fun q hq => .inl (h.fits q hq).stop_le.2.2
  obtain ⟨as', m', hrun, hpeek⟩ := buildStack_exact hown h.reserved h.root hvac arguments hallocs
  refine ⟨_, as', m', hrun, fun p hp a ha => ?_, fun a hlo hhi => ?_, fun a hlt hseg hstack => ?_⟩
  · have hend := (h.fits p hp).stop_le.2.2
    have hlt : a < 4173824 := Nat.lt_of_lt_of_le ha.2 hend
    rw [hpeek a (by omega), initialStack_outside _ _ (by omega), h.shows a (by omega),
      segmentPicture_some h.apart hp ha]
  · rw [hpeek a (by omega)]
    exact initialStack_inside arguments _ hlo hhi
  · rw [hpeek a hlt, initialStack_outside _ _ (by omega), h.shows a hlt, segmentPicture_none hseg]

theorem failLoad_false (as : AddressSpace) (m : Machine) : (failLoad as m).1 = false := rfl

/-- **ELF loading is exact**: given its memory, `elf_load` accepts the loadable
files and no others, and the image depicts the file. -/
theorem elf_load_exact (hst : Stocked P m rest) {kernelRoot : Nat} (hk : kernelRoot ∈ rest)
    (hfile : file.Reads n) (hkept : n.Kept rest) (arguments : ExecArguments)
    (hallocs : false ∉ elfLoadAllocs kernelRoot (some file) m) {image : ExecImage}
    (hrun : elfLoad kernelRoot (some file) arguments m = (ok, image, m')) :
    (ok = true ↔ Loadable (n.contents m.mem)) ∧
      (ok = true → Depicts (n.contents m.mem) image.as m' ∧
        image.entry = (elfHeader (n.contents m.mem)).entry) := by
  have hlen := length_contents m.mem n
  have hsize := fileSize_eq hfile
  rw [elfLoad, readExact_eq hfile] at hrun
  rw [elfLoadAllocs, readExact_eq hfile] at hallocs
  by_cases hhead : elfHeaderSize ≤ n.size - 0
  case neg =>
    rw [if_neg hhead] at hrun
    cases hrun
    have hno : ¬ Loadable (n.contents m.mem) := fun hl => hhead (hlen ▸ hl.header.length)
    exact ⟨by simp [hno], by simp⟩
  rw [if_pos hhead] at hrun hallocs
  dsimp only at hrun hallocs
  rw [drop_zero, elfHeader_take, hsize] at hrun hallocs
  have hvalid : validHeader (elfHeader (n.contents m.mem)) (n.contents m.mem).length = true ↔
      HeaderOk (n.contents m.mem) := validHeader_iff (by rw [hlen]; exact hhead)
  rw [hlen] at hvalid
  by_cases hok : validHeader (elfHeader (n.contents m.mem)) n.size = true
  case neg =>
    rw [if_pos (Bool.eq_false_iff.mpr hok)] at hrun
    cases hrun
    have hno : ¬ Loadable (n.contents m.mem) := fun hl => hok (hvalid.mpr hl.header)
    exact ⟨by simp [hno], by simp⟩
  have hheader := hvalid.mp hok
  rw [if_neg (by simp [hok])] at hrun hallocs
  rcases hinit : addressSpaceInit kernelRoot m with ⟨b, as0, m0⟩
  rw [hinit] at hrun hallocs
  cases b with
  | false => simp at hallocs
  | true =>
    have hstart : Stage P m0 as0 (fun i => entry m.mem kernelRoot i) rest _ n (n.byte m.mem) [] :=
      Stage.start hst rfl hk hkept hinit
    simp only [mem_cons, Bool.false_eq_true, mem_append, false_or, not_or] at hallocs
    rcases hprog : loadPrograms file n.size (elfHeader (n.contents m.mem))
      (range (elfHeader (n.contents m.mem)).programCount) false as0 m0 with ⟨res, as₁, m₁⟩
    have hfit : ∀ i ∈ range (elfHeader (n.contents m.mem)).programCount,
        (elfHeader (n.contents m.mem)).programOffset + i * elfProgramSize + elfProgramSize ≤
          n.size := by
      intro i hi
      have := List.mem_range.mp hi
      have := hheader.inFile
      unfold elfProgramSize
      omega
    obtain ⟨hiff, hstage⟩ :=
      loadPrograms_exact hfile hkept _ _ false as0 m0 [] hstart hfit hallocs.1
      hprog
    dsimp only at hrun
    rw [hprog] at hrun hallocs
    rw [loadable_iff, hlen]
    change (res ≠ none ↔ Acceptable n.size [] (elfPrograms (n.contents m.mem))) at hiff
    change (res ≠ none → res = some (false || (elfPrograms (n.contents m.mem)).any _) ∧
      Stage P m₁ as₁ _ rest _ n _ (segments (elfPrograms (n.contents m.mem)))) at hstage
    have hfail : failLoad as₁ m₁ = (ok, image, m') → ok = false := fun hf => by
      rw [← failLoad_false as₁ m₁, hf]
    cases res with
    | none =>
      have hno := hiff.not.mp (not_not.mpr rfl)
      rw [hfail hrun]
      exact ⟨by simp [hno], by simp⟩
    | some found =>
      have hacc := hiff.mp (by simp)
      obtain ⟨hfound, hst1⟩ := hstage (by simp)
      rw [Bool.false_or, Option.some.injEq] at hfound
      cases found with
      | false =>
        rw [hfail hrun, ← hfound]
        exact ⟨by simp, by simp⟩
      | true =>
        obtain ⟨sp, as₂, m₂, hstack, hsegs, hpages, hnone⟩ := hst1.stack arguments hallocs.2
        dsimp only at hrun
        rw [hstack] at hrun
        cases hrun
        refine ⟨by simp [hheader, hacc, ← hfound], fun _ => ⟨⟨?_, ?_, ?_, ?_⟩, rfl⟩⟩
        · intro p hp a ha
          refine ⟨_, ?_, (validLeafFlags_segment (hst1.fits p hp).permitted).2.2⟩
          rw [hsegs p hp a ha, ElfProgram.byte, ElfProgram.byte]
          split
          · next hin =>
            have := (hst1.fits p hp).inFile
            rw [contents_getD (by omega)]
          · rfl
        · intro a hlo hhi
          obtain ⟨x, hx⟩ := hpages a hlo hhi
          exact ⟨_, x, hx, by decide, by decide, by decide, by decide⟩
        · intro a hlo hhi
          refine hnone a (by omega) (fun p hp ha => ?_) (fun hin => ?_)
          · have := Nat.lt_of_lt_of_le ha.2 (hst1.fits p hp).stop_le.2.2
            omega
          have := hin.1
          unfold stackBottom userStackTop userStackPages pageSize at this
          omega
        · exact fun a hlt hseg hstk => hnone a hlt hseg hstk

end Load

def tinyArguments : ExecArguments := ⟨[[0x61]], [], by decide, by decide, by decide⟩

theorem elf_load_tiny : ∃ image m',
    elfLoad 4096 (some ⟨.regular, some tinyVnode, 0⟩) tinyArguments smallMachine =
    (true, image, m') ∧
      Loadable (tinyVnode.contents smallMachine.mem) ∧
      Depicts (tinyVnode.contents smallMachine.mem) image.as m' := by
  have hallocs : false ∉ elfLoadAllocs 4096 (some ⟨.regular, some tinyVnode, 0⟩) smallMachine := by
    decide +kernel
  have hok : (elfLoad 4096 (some ⟨.regular, some tinyVnode, 0⟩) tinyArguments smallMachine).1 =
      true := by
    decide +kernel
  obtain ⟨⟨ok, image, m'⟩, hrun⟩ : ∃ r, elfLoad 4096 (some ⟨.regular, some tinyVnode, 0⟩)
    tinyArguments
    smallMachine = r := ⟨_, rfl⟩
  rw [hrun] at hok
  cases hok
  have hreads : File.Reads ⟨.regular, some tinyVnode, 0⟩ tinyVnode :=
    ⟨rfl, rfl, NodeType.noConfusion, by decide⟩
  obtain ⟨P, rest, hst, hkernel⟩ := smallMachine_boot.stocked
  have hkept : tinyVnode.Kept rest := fun hno => by
    rw [tinyVnode] at hno
    cases hno
  obtain ⟨hiff, hdepicts⟩ := elf_load_exact hst hkernel hreads hkept tinyArguments hallocs hrun
  exact ⟨image, m', hrun, hiff.mp rfl, (hdepicts rfl).1⟩

end MiniCore
