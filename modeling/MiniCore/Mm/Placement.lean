import MiniCore.Mm.Reclamation
import MiniCore.Mm.ViewCalls

/-!
# MiniCore.Mm.Placement

Where `address_space_mmap` puts a mapping, and what it puts there
(`src/mm/address_space.c`).

The window is scanned at page boundaries from its start; since reservations
begin and end at page boundaries, the first free boundary is the least free
address, and if no boundary is free then no range is (`MmapRoom.align`).
-/

namespace MiniCore

open Lib

/-- `length` bytes from `a` on lie in the window of `mmap` and meet no area. -/
def MmapRoom (areas : List VmArea) (length a : Nat) : Prop :=
  mmapBase ≤ a ∧ a + length ≤ mmapEnd ∧ ∀ b ∈ areas, b.stop ≤ a ∨ a + length ≤ b.start

section Place

variable {areas : List VmArea} {address length mapflags a : Nat}

theorem mmapRoom_iff : MmapRoom areas length a ↔
    mmapBase ≤ a ∧ a + length ≤ mmapEnd ∧ vacant areas a (a + length) = true := by
  rw [MmapRoom, vacant_iff]

/-- A free range can be moved down to the page boundary below it. -/
theorem MmapRoom.align (h : AreasOk areas) (hmul : length % 4096 = 0)
    (hroom : MmapRoom areas length a) : MmapRoom areas length (a / 4096 * 4096) := by
  obtain ⟨hlo, hhi, hall⟩ := hroom
  unfold mmapBase at hlo
  refine ⟨by unfold mmapBase; omega, by omega, fun b hb => ?_⟩
  have hok := h.area_ok b hb
  have := hok.start_aligned
  have := hok.stop_aligned
  have := hall b hb
  omega

/-- **The scan** finds the first free start. -/
theorem firstFit_least : ∀ {n address a : Nat}, firstFit areas length n address = some a →
    ∃ i < n, a = address + 4096 * i ∧ ∀ j < i, vacant areas (address + 4096 * j)
      (address + 4096 * j + length) = false
  | 0, _, _, h => by cases h
  | n + 1, address, a, h => by
    rw [firstFit] at h
    split at h
    · cases h
      exact ⟨0, Nat.succ_pos n, rfl, fun j hj => absurd hj (Nat.not_lt_zero j)⟩
    next hv =>
    obtain ⟨i, hi, rfl, hall⟩ := firstFit_least h
    refine ⟨i + 1, Nat.succ_lt_succ hi, by unfold pageSize; omega, fun j hj => ?_⟩
    cases j with
    | zero => simpa using hv
    | succ j =>
      have := hall j (Nat.lt_of_succ_lt_succ hj)
      rwa [show address + pageSize + 4096 * j = address + 4096 * (j + 1) by
        unfold pageSize; omega] at this

theorem firstFit_none : ∀ {n address : Nat}, firstFit areas length n address = none →
    ∀ i < n, vacant areas (address + 4096 * i) (address + 4096 * i + length) = false
  | 0, _, _, i, hi => absurd hi (Nat.not_lt_zero i)
  | n + 1, address, h, i, hi => by
    rw [firstFit] at h
    split at h
    · cases h
    next hv =>
    cases i with
    | zero => simpa using hv
    | succ i =>
      have := firstFit_none h i (Nat.lt_of_succ_lt_succ hi)
      rwa [show address + pageSize + 4096 * i = address + 4096 * (i + 1) by
        unfold pageSize; omega] at this

/-- Every page boundary of the window is tried. -/
theorem window_start {b : Nat} (hb : b % 4096 = 0) (hlo : mmapBase ≤ b)
    (hhi : b + length ≤ mmapEnd) :
    ∃ i < (mmapEnd - length - mmapBase) / pageSize + 1, b = mmapBase + 4096 * i := by
  have hbase : mmapBase = 0x10000000 := rfl
  have hend : mmapEnd = 0x20000000 := rfl
  refine ⟨(b - mmapBase) / 4096, ?_, by omega⟩
  unfold pageSize
  omega

/-- What `mmap` answers about the place of a mapping. -/
structure PlaceLaw (areas : List VmArea) (address length mapflags : Nat) (res : Except Errno Nat) :
    Prop where
  place : ∀ a, res = .ok a → a % 4096 = 0 ∧ MmapRoom areas length a
  requested : ∀ a, res = .ok a → MmapRoom areas length address → a = address
  least : ∀ a, res = .ok a → ¬MmapRoom areas length address →
    mapflags &&& mapFixedNoreplace = 0 ∧ ∀ b, b % 4096 = 0 → MmapRoom areas length b → a ≤ b
  exist : res = .error .exist → mapflags &&& mapFixedNoreplace ≠ 0 ∧ mmapBase ≤ address ∧
    address + length ≤ mmapEnd ∧ ¬MmapRoom areas length address
  nomem : res = .error .nomem → ∀ b, ¬MmapRoom areas length b

/-- The request itself is the place. -/
theorem PlaceLaw.granted (hal : address % 4096 = 0) (hroom : MmapRoom areas length address) :
    PlaceLaw areas address length mapflags (.ok address) := by
  refine ⟨?_, ?_, ?_, by simp, by simp⟩
  · rintro a ⟨⟩
    exact ⟨hal, hroom⟩
  · rintro a ⟨⟩ -
    rfl
  · exact fun a _ hno => absurd hroom hno

/-- **`mmapPlace`**: the request if there is room for it, and else the first room. -/
theorem mmapPlace_law (h : AreasOk areas) (hal : address % 4096 = 0) (hlen : length ≤ maxMapping)
    (hmul : length % 4096 = 0) :
    PlaceLaw areas address length mapflags (mmapPlace areas address length mapflags) := by
  have hmax : maxMapping = 0x1000000 := rfl
  have hend : mmapEnd = 0x20000000 := rfl
  have hroom : MmapRoom areas length address ↔ ¬(address < mmapBase ∨ mmapEnd - length < address ∨
      vacant areas address (address + length) = false) := by
    rw [mmapRoom_iff, not_or, not_or, Bool.not_eq_false, Nat.not_lt, Nat.not_lt,
      Nat.le_sub_iff_add_le (by omega)]
  unfold mmapPlace
  by_cases hfixed : mapflags &&& mapFixedNoreplace ≠ 0
  · rw [if_pos hfixed]
    by_cases hout : address < mmapBase ∨ mmapEnd - length < address
    · rw [if_pos hout]
      exact ⟨by simp, by simp, by simp, by simp, by simp⟩
    rw [if_neg hout]
    by_cases hv : vacant areas address (address + length) = false
    · rw [if_pos hv]
      refine ⟨by simp, by simp, by simp, fun _ => ⟨hfixed, by omega, by omega, ?_⟩, by simp⟩
      exact fun hno => hroom.mp hno (.inr (.inr hv))
    · rw [if_neg hv]
      exact .granted hal (hroom.mpr (by tauto))
  rw [if_neg hfixed]
  by_cases hbad : address < mmapBase ∨ mmapEnd - length < address ∨
      vacant areas address (address + length) = false
  · rw [if_pos hbad]
    have hno : ¬MmapRoom areas length address := fun hyes => hroom.mp hyes hbad
    cases hfit : firstFit areas length ((mmapEnd - length - mmapBase) / pageSize + 1) mmapBase with
    | none =>
      refine ⟨by simp, by simp, by simp, by simp, fun _ b hb => ?_⟩
      obtain ⟨hlo, hhi, hv⟩ := mmapRoom_iff.mp (hb.align h hmul)
      obtain ⟨i, hi, heq⟩ := window_start (Nat.mul_mod_left _ _) hlo hhi
      rw [heq, firstFit_none hfit i hi] at hv
      cases hv
    | some a =>
      obtain ⟨-, hv⟩ := firstFit_some hfit
      obtain ⟨i, hi, rfl, hleast⟩ := firstFit_least hfit
      have hbase : mmapBase = 0x10000000 := rfl
      unfold pageSize at hi
      refine ⟨?_, ?_, ?_, by simp, by simp⟩
      · rintro a ⟨⟩
        exact ⟨by omega, mmapRoom_iff.mpr ⟨by omega, by omega, hv⟩⟩
      · exact fun a _ hyes => absurd hyes hno
      rintro a ⟨⟩ -
      refine ⟨not_not.mp hfixed, fun b hb hroomb => ?_⟩
      obtain ⟨hlo, hhi, hvb⟩ := mmapRoom_iff.mp hroomb
      obtain ⟨j, -, rfl⟩ := window_start hb hlo hhi
      by_contra hlt
      rw [hleast j (by omega)] at hvb
      cases hvb
  · rw [if_neg hbad]
    exact .granted hal (hroom.mpr hbad)

end Place

/-! ## Contents -/

/-- The byte of an open file at an offset, zero behind its end. -/
def File.byteAt (mem : Memory) (f : File) (i : Nat) : UInt8 :=
  match f.node with
  | none => 0
  | some n => if i < n.size then n.byte mem i else 0

/-- The byte that a mapping gets from offset `i` of what is mapped. -/
def mappedByte (mem : Memory) (mapflags : Nat) (file : Option File) (i : Nat) : UInt8 :=
  if mapflags &&& mapAnonymous ≠ 0 then 0
  else
    match file with
    | none => 0
    | some f => f.byteAt mem i

/-- A mapping of `length` bytes at `a` has been added, and nothing else has changed.
The file is an argument that `file_pread` reads and does not return, so of the file
only its bytes in memory could change. -/
structure MmapDone (as as' : AddressSpace) (m m' : Machine) (a length prot mapflags : Nat)
    (file : Option File) (offset : Nat) : Prop where
  area : ∃ ptr, as'.areas = as.areas ++ [⟨ptr, a, a + length, protFlags prot,
    if mapflags &&& mapAnonymous ≠ 0 then .anon else .file⟩]
  pages : ∃ new, as'.pages = as.pages ++ new ∧ Run a (protFlags prot) new ∧
    4096 * new.length = length ∧
    ∀ p ∈ new, ∀ i < 4096,
      m'.mem (p.physical + i) = mappedByte m.mem mapflags file (offset + (p.virtualAddress - a) + i)
  /-- the translations of the mapping lead to its pages -/
  shown : ∀ p ∈ as'.pages, p ∉ as.pages → mapped p.flags = true → ∀ i < 4096,
    vmQuery as'.root (p.virtualAddress + i) m' = some (p.physical + i, hardwareFlags p.flags)
  others : ∀ b, ¬(a ≤ vpn b * 4096 ∧ vpn b * 4096 < a + length) →
    vmQuery as'.root b m' = vmQuery as.root b m
  contents : ∀ p ∈ as.pages, Set.EqOn m'.mem m.mem (pageBytes p.physical)
  file : ∀ f n, file = some f → f.node = some n → n.byte m'.mem = n.byte m.mem
  brk : as'.root = as.root ∧ as'.brkBase = as.brkBase ∧ as'.brkEnd = as.brkEnd

/-- What one call of `mmap` promises. -/
structure MmapLaw (as as' : AddressSpace) (m m' : Machine) (address length prot mapflags : Nat)
    (file : Option File) (offset : Nat) (res : Except Errno Nat) : Prop where
  place : ∀ a, res = .ok a → a % 4096 = 0 ∧ MmapRoom as.areas (pageUp length) a
  requested : ∀ a, res = .ok a → MmapRoom as.areas (pageUp length) address → a = address
  least : ∀ a, res = .ok a → ¬MmapRoom as.areas (pageUp length) address →
    mapflags &&& mapFixedNoreplace = 0 ∧ ∀ b, b % 4096 = 0 →
      MmapRoom as.areas (pageUp length) b → a ≤ b
  exist : res = .error .exist → mapflags &&& mapFixedNoreplace ≠ 0 ∧ mmapBase ≤ address ∧
    address + pageUp length ≤ mmapEnd ∧ ¬MmapRoom as.areas (pageUp length) address
  nomem : res = .error .nomem → false ∉ mmapAllocs as address length prot mapflags file offset m →
    ∀ b, ¬MmapRoom as.areas (pageUp length) b
  done : ∀ a, res = .ok a → MmapDone as as' m m' a (pageUp length) prot mapflags file offset

section Mmap

variable {P : PagePool} {m m' : Machine} {as as' : AddressSpace} {t t' kernel : Radix}
  {shared : Nat → Nat}
  {rest objs : Multiset Nat} {address length prot mapflags offset a : Nat} {file : Option File}

theorem mem_newPages {flags : Nat} {image : Nat → Option (Fin 4096 → UInt8)} :
    ∀ {count address : Nat} {new : List PageImage}, newPages flags image count address = some new →
    ∀ p ∈ new, image p.address = some p.bytes
  | 0, _, new, h, p, hp => by
    cases h
    cases hp
  | count + 1, address, new, h, p, hp => by
    simp only [newPages, Option.bind_eq_bind, Option.bind_eq_some_iff] at h
    obtain ⟨bytes, hbytes, rest, hrest, hnew⟩ := h
    cases hnew
    rcases List.mem_cons.mp hp with rfl | hp
    · exact hbytes
    · exact mem_newPages hrest p hp

theorem mmapImage_byte (hfile : ∀ f, file = some f → f.Kept rest)
    (hargs : MmapArgs address length prot mapflags file offset) {mem : Memory} {place at' : Nat}
    {bytes : Fin 4096 → UInt8} (h : mmapImage mem mapflags file offset place at' = some bytes)
    (i : Fin 4096) : bytes i = mappedByte mem mapflags file (offset + at' - place + i) := by
  by_cases hanon : mapflags &&& mapAnonymous = 0
  · have hmap : mappable file = true := by simpa [hanon] using hargs.mappable
    cases file with
    | none => cases hmap
    | some f =>
      obtain ⟨n, hreads, -⟩ := (hfile f rfl).reads hmap
      rw [mmapImage_file hreads hanon] at h
      cases h
      simp only [mappedByte, hanon, File.byteAt, hreads.node, Vnode.pageAt, ne_eq,
        not_true, if_false]
  · have hzero : some zeroPage = some bytes := by
      rw [← h]
      exact (if_pos hanon).symm
    cases hzero
    exact (if_pos hanon).symm

/-- Two ledgers that agree outside a range give the same translations there. -/
theorem Owned.vmQuery_outside {objs' : Multiset Nat} {start stop : Nat}
    (h : Owned P m as t shared rest objs) (h' : Owned P m' as' t' shared rest objs')
    (hk : KernelHalf kernel shared rest m) (hk' : KernelHalf kernel shared rest m')
    (hroot : as'.root = as.root)
    (hsame : ∀ p, ¬(start ≤ p.virtualAddress ∧ p.virtualAddress < stop) →
      (p ∈ as.pages ↔ p ∈ as'.pages)) {b : Nat}
    (hb : ¬(start ≤ vpn b * 4096 ∧ vpn b * 4096 < stop)) :
    vmQuery as'.root b m' = vmQuery as.root b m := by
  have hleaf : t.leaf (vpn b) = t'.leaf (vpn b) := by
    refine h.leaves.leaf_eq_of h'.leaves fun p hp => ⟨fun hin => ?_, fun hin => ?_⟩
    · have hal := (h.page_ok p hin).aligned
      exact (hsame p (by omega)).mp hin
    · have hal := (h'.page_ok p hin).aligned
      exact (hsame p (by omega)).mpr hin
  have hquery := h.tabled.vmQuery_congr h'.tabled (hk.mono (Multiset.le_add_left _ _))
    (hk'.mono (Multiset.le_add_left _ _)) h.width
    ⟨by rw [h.root_eq, h'.root_eq, hroot], by rw [h.width, h'.width]⟩ hleaf.symm
  rw [hroot, ← h.root_eq, hquery]

theorem mmapRefusal_some {e : Errno}
    (h : mmapRefusal address length prot mapflags file offset = some e) :
    e = .inval ∨ e = .badf := by
  unfold mmapRefusal at h
  split at h
  · exact .inl (Option.some.inj h).symm
  split at h
  · exact .inr (Option.some.inj h).symm
  split at h
  · exact .inl (Option.some.inj h).symm
  · cases h

/-- Every page of a mapping can be loaded. -/
theorem newPages_mmapImage (hfile : ∀ f, file = some f → f.Kept rest)
    (hargs : MmapArgs address length prot mapflags file offset) (mem : Memory) (flags place : Nat) :
    ∀ count at', ∃ new, newPages flags (mmapImage mem mapflags file offset place) count
      at' = some new
  | 0, _ => ⟨[], rfl⟩
  | count + 1, at' => by
    obtain ⟨bytes, hbytes⟩ : ∃ bytes, mmapImage mem mapflags file offset place at' =
        some bytes := by
      by_cases hanon : mapflags &&& mapAnonymous = 0
      · have hmap : mappable file = true := by simpa [hanon] using hargs.mappable
        cases file with
        | none => cases hmap
        | some f =>
          obtain ⟨n, hreads, -⟩ := (hfile f rfl).reads hmap
          exact ⟨_, mmapImage_file hreads hanon mem offset place at'⟩
      · exact ⟨_, if_pos hanon⟩
    obtain ⟨new, hnew⟩ := newPages_mmapImage hfile hargs mem flags place count (at' + pageSize)
    exact ⟨⟨at', flags, bytes⟩ :: new, by rw [newPages, hbytes, hnew]; rfl⟩

/-- The mapping that was added, from the struct and the view. -/
theorem Owned.mmapDone (h : Owned P m as t shared rest objs)
    (h' : Owned P m' as' t' shared rest objs) (hk : KernelHalf kernel shared rest m)
    (hkeep : Keeps rest m m') (hfile : ∀ f, file = some f → f.Kept rest)
    (hargs : MmapArgs address length prot mapflags file offset) {x : VmArea} {new : List UserPage}
    (hm : Mapped as as' x new) {images : List PageImage}
    (hnew : newPages (protFlags prot) (mmapImage m.mem mapflags file offset a)
      (pageCount a (a + pageUp length)) a = some images)
    (hareas : as'.areas.map VmArea.bare = as.areas.map VmArea.bare ++
      [⟨0, a, a + pageUp length, protFlags prot,
      if mapflags &&& mapAnonymous ≠ 0 then .anon else .file⟩])
    (hpages : as'.pages.map (UserPage.image m'.mem) = as.pages.map
      (UserPage.image m.mem) ++ images) :
    MmapDone as as' m m' a (pageUp length) prot mapflags file offset := by
  have heq := hm.eq
  have hpg : as'.pages = as.pages ++ new := by rw [heq]
  -- the two halves of the ledger, one by one
  rw [hpg, List.map_append] at hpages
  obtain ⟨hold, himages⟩ := List.append_inj hpages (by simp)
  have hx : x.bare = ⟨0, a, a + pageUp length, protFlags prot,
      if mapflags &&& mapAnonymous ≠ 0 then .anon else .file⟩ := by
    rw [heq, List.map_append] at hareas
    exact List.singleton_inj.mp (List.append_cancel_left hareas)
  simp only [VmArea.bare, VmArea.mk.injEq, true_and] at hx
  obtain ⟨hstart, hstop, hflags, hkind⟩ := hx
  have hbacked : x.backed = a := by
    rw [VmArea.backed, hkind, hstart]
    split <;> simp
  have hrun := hm.run
  have hlength := hm.length
  rw [hbacked, hflags] at hrun
  rw [hbacked, hstop] at hlength
  have hnotin : ∀ p ∈ as'.pages, p ∉ as.pages → p ∈ new := by
    intro p hp hno
    rw [hpg] at hp
    exact (List.mem_append.mp hp).resolve_left hno
  refine ⟨⟨x.ptr, ?_⟩, ⟨new, hpg, hrun, by omega, ?_⟩, ?_, ?_, ?_, ?_, ?_⟩
  · rw [← hstop, ← hflags, ← hkind, ← hstart, heq]
  · intro p hp i hi
    have hmem : p.image m'.mem ∈ images := himages ▸ List.mem_map_of_mem hp
    obtain ⟨k, -, hva⟩ := hrun.mem_range hp
    have hbyte := mmapImage_byte hfile hargs (mem_newPages hnew _ hmem) ⟨i, hi⟩
    simp only [UserPage.image] at hbyte
    rw [hbyte, Nat.add_sub_assoc (by omega)]
  · intro p hp hno hmap i hi
    rw [h'.vmQuery_page hp hmap ⟨Nat.le_add_right _ _, Nat.add_lt_add_left hi _⟩,
      Nat.add_sub_cancel_left]
  · intro b hb
    refine h.vmQuery_outside h' hk (hk.keep hkeep) (by rw [heq]) (fun p hp => ?_) hb
    rw [hpg, List.mem_append]
    refine ⟨.inl, fun hin => hin.resolve_right fun hin => ?_⟩
    obtain ⟨k, hkl, hva⟩ := hrun.mem_range hin
    omega
  · intro p hp x hx
    obtain ⟨hlo, hhi⟩ := hx
    have himage : p.image m'.mem = p.image m.mem := List.map_inj_left.mp hold p hp
    have hbyte := congrFun (congrArg PageImage.bytes himage) ⟨x - p.physical, by omega⟩
    simpa only [UserPage.image, Nat.add_sub_cancel' hlo] using hbyte
  · exact fun f n hf hn => ((hfile f hf).blocks n hn).byte_eq hkeep
  · rw [heq]
    exact ⟨rfl, rfl, rfl⟩

/-- **`address_space_mmap`** keeps its law on every sound space with a table. -/
theorem Owned.lawful_mmap (h : Owned P m as t shared rest objs) (hag : Agrees as.areas as.pages)
    (hroot : as.root ≠ 0) (hk : KernelHalf kernel shared rest m)
    (hfile : ∀ f, file = some f → f.Kept rest) {res : Except Errno Nat}
    (hrun : addressSpaceMmap as address length prot mapflags file offset m = (res, as', m')) :
    MmapLaw as as' m m' address length prot mapflags file offset res := by
  obtain ⟨t', hout⟩ := addressSpaceMmap_keeps h hrun
  obtain ⟨hno, hyes⟩ := mmap_view h hag hroot hfile hrun
  cases href : mmapRefusal address length prot mapflags file offset with
  | some e =>
    rw [(mmap_refused href).1] at hrun
    cases hrun
    rcases mmapRefusal_some href with rfl | rfl
    · exact ⟨by simp, by simp, by simp, by simp, by simp, by simp⟩
    · exact ⟨by simp, by simp, by simp, by simp, by simp, by simp⟩
  | none =>
    have hargs := mmapRefusal_none href
    have hlen := pageUp_of_valid hargs.valid
    by_cases hf : false ∈ mmapAllocs as address length prot mapflags file offset m
    · obtain ⟨rfl, -⟩ := hno hf
      exact ⟨by simp, by simp, by simp, by simp, fun _ hnf => absurd hf hnf, by simp⟩
    have hview := hyes hf
    have hplaces : mmapPlace (as.view m.mem).areas address (pageUp length) mapflags =
        mmapPlace as.areas address (pageUp length) mapflags := mmapPlace_bare _ _ _ _
    simp only [View.mmap, if_neg hargs.valid, if_neg hargs.mappable, if_neg hargs.offset,
      if_neg hargs.aligned, hplaces] at hview
    have hlaw : PlaceLaw as.areas address (pageUp length) mapflags
        (mmapPlace as.areas address (pageUp length) mapflags) :=
      mmapPlace_law hag.areas_ok (not_not.mp hargs.aligned) hlen.2.1 hlen.2.2
    cases hplace : mmapPlace as.areas address (pageUp length) mapflags with
    | error e =>
      rw [hplace] at hview hlaw
      obtain rfl : res = .error e := congrArg Prod.fst hview
      exact ⟨by simp, by simp, by simp, hlaw.exist, fun hnomem _ => hlaw.nomem hnomem, by simp⟩
    | ok place =>
      obtain ⟨images, hnew⟩ := newPages_mmapImage hfile hargs m.mem (protFlags prot) place
        (pageCount place (place + pageUp length)) place
      simp only [hplace, hnew] at hview
      rw [hplace] at hlaw
      obtain rfl : res = .ok place := congrArg Prod.fst hview
      have hv := congrArg Prod.snd hview
      refine ⟨hlaw.place, hlaw.requested, hlaw.least, by simp, by simp, ?_⟩
      rintro a ⟨⟩
      obtain ⟨⟨x, new, -, hm⟩, -⟩ := hout.ok place rfl
      exact h.mmapDone hout.owned hk hout.keeps hfile hargs hm hnew (congrArg View.areas hv)
        (congrArg View.pages hv)

end Mmap

end MiniCore
