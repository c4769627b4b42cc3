import MiniCore.Mm.PageInit
import MiniCore.Mm.Sv39

/-!
# MiniCore.Mm.KernelMap

The kernel's page table (`vm_build_kernel` in `src/mm/vm.c`): every page of the
ranges found in the device tree is mapped at its address in the direct map.

A successful build has mapped the pages of all ranges and nothing else (`Built`).
The table is then as it should be if and only if no range goes beyond 2³⁸
(`vm_build_kernel_sound`), where the direct map leaves the upper half.  Nothing
keeps the ranges below: the address of a page at 2³⁸ wraps around into the half
of the user programs (`wrapped_window`).  A build that fails gives all pages
back, whatever the ranges.
-/

namespace MiniCore

open Lib List

variable {k : KernelSymbols} {P : PagePool} {m : Machine} {t : Radix} {rest : Multiset Nat}

/-! ## The model -/

/-- The symbols of `linker.ld`: each section begins on a page of its own, and the
guard page of the boot stack is behind them. -/
structure KernelSymbols where
  textStart : Nat
  textEnd : Nat
  rodataStart : Nat
  rodataEnd : Nat
  bootStackGuard : Nat
  kernelEnd : Nat
  direct : kernelDirectBase ≤ textStart
  text_le : textStart ≤ textEnd
  text_end : textEnd ≤ rodataStart
  rodata_page : rodataStart % 4096 = 0
  rodata_le : rodataStart ≤ rodataEnd
  rodata_end : rodataEnd ≤ bootStackGuard
  guard_page : bootStackGuard % 4096 = 0
  guard_end : bootStackGuard + 4096 ≤ kernelEnd
  end_lt : kernelEnd < 2 ^ 64

section Model

variable (k : KernelSymbols)

def kernelPageFlags (physical : Nat) : Nat :=
  if pageDown (virtToPhys k.textStart) ≤ physical ∧ physical < pageUp (virtToPhys k.textEnd) then
    pteR ||| pteX ||| pteG
  else if pageDown (virtToPhys k.rodataStart) ≤ physical ∧
      physical < pageUp (virtToPhys k.rodataEnd) then
    pteR ||| pteG
  else pteR ||| pteW ||| pteG

def mapFlags (ram : Bool) (physical : Nat) : Nat :=
  if ram then kernelPageFlags k physical else pteR ||| pteW ||| pteG

/-- The loop of `map_physical_range`. -/
def mapPages (root : Nat) (ram : Bool) : List Nat → Machine → Bool × Machine
  | [], m => (true, m)
  | physical :: rest, m =>
    if physToVirt physical = k.bootStackGuard then mapPages root ram rest m
    else
      match vmMap root (physToVirt physical) physical (mapFlags k ram physical) m with
      | (false, m) => (false, m)
      | (true, m) => mapPages root ram rest m

/-- The values of the loop variable. -/
def physicalPages (r : PhysicalRange) : List Nat :=
  let first := pageDown r.base
  (range ((pageUp (r.base + r.size) - first) / pageSize)).map fun i => first + pageSize * i

def mapPhysicalRange (root : Nat) (r : PhysicalRange) (ram : Bool) (m : Machine) : Bool × Machine :=
  if 2 ^ 64 - 1 - r.size < r.base ∨ 2 ^ 64 - 1 - pageMask < r.base + r.size then (false, m)
  else mapPages k root ram (physicalPages r) m

/-- The ranges to be mapped, in order, and which of them are memory. -/
def kernelRanges (info : BootInfo) : List (PhysicalRange × Bool) :=
  info.memory.map (·, true) ++ [(⟨0x100000, pageSize⟩, false)] ++
    (if info.uartPresent then [(info.uart, false)] else []) ++
    (if info.plicPresent then [(info.plic, false)] else []) ++ info.virtio.map (·, false)

def mapRanges (root : Nat) : List (PhysicalRange × Bool) → Machine → Bool × Machine
  | [], m => (true, m)
  | (r, ram) :: rest, m =>
    match mapPhysicalRange k root r ram m with
    | (false, m) => (false, m)
    | (true, m) => mapRanges root rest m

/-- `vm_build_kernel`: the root of the table, if it returns true. -/
def vmBuildKernel (info : BootInfo) (m : Machine) : Option Nat × Machine :=
  match vmCreate m with
  | (0, m) => (none, m)
  | (root, m) =>
    match mapRanges k root (kernelRanges info) m with
    | (true, m) => (some root, m)
    | (false, m) => (none, vmDestroy root m)

end Model

/-! ## Pages and flags -/

theorem mem_physicalPages {r : PhysicalRange} {p : Nat} :
    p ∈ physicalPages r ↔ p % 4096 = 0 ∧ r.base < p + 4096 ∧ p < r.base + r.size := by
  simp only [physicalPages, mem_map, mem_range, pageDown_eq, pageUp_eq, pageSize]
  constructor
  · rintro ⟨i, hi, rfl⟩
    omega
  · rintro ⟨ha, hb, hc⟩
    exact ⟨(p - r.base / 4096 * 4096) / 4096, by omega, by omega⟩

/-- What all flags of the direct map have in common. -/
structure KernelFlags (flags : Nat) : Prop where
  valid : validLeafFlags flags = true
  exclusive : hardwareFlags flags &&& pteW = 0 ∨ hardwareFlags flags &&& pteX = 0
  kernel : hardwareFlags flags &&& pteU = 0

theorem kernelFlags_mapFlags (k : KernelSymbols) (ram : Bool) (p : Nat) :
    KernelFlags (mapFlags k ram p) := by
  have hrx : KernelFlags (pteR ||| pteX ||| pteG) := ⟨by decide, by decide, by decide⟩
  have hr : KernelFlags (pteR ||| pteG) := ⟨by decide, by decide, by decide⟩
  have hrw : KernelFlags (pteR ||| pteW ||| pteG) := ⟨by decide, by decide, by decide⟩
  unfold mapFlags kernelPageFlags
  split
  · split
    · exact hrx
    · split
      · exact hr
      · exact hrw
  · exact hrw

section Symbols

variable (k : KernelSymbols) {p : Nat}

theorem virtToPhys_of_le {address : Nat} (h : kernelDirectBase ≤ address) (hlt : address < 2 ^ 64) :
    virtToPhys address = address - kernelDirectBase := by
  unfold virtToPhys
  unfold kernelDirectBase at h ⊢
  omega

/-- The page at `p` has a byte between two symbols. -/
def OnPage (first last p : Nat) : Prop := virtToPhys first < p + 4096 ∧ p < virtToPhys last

theorem flags_of_text (ha : p % 4096 = 0) (h : OnPage k.textStart k.textEnd p) :
    kernelPageFlags k p = pteR ||| pteX ||| pteG := by
  obtain ⟨hlo, hhi⟩ := h
  rw [kernelPageFlags, pageDown_eq, pageUp_eq, if_pos]
  omega

theorem flags_of_rodata (ha : p % 4096 = 0) (h : OnPage k.rodataStart k.rodataEnd p) :
    kernelPageFlags k p = pteR ||| pteG := by
  obtain ⟨hlo, hhi⟩ := h
  have := k.direct
  have := k.text_le
  have := k.text_end
  have := k.rodata_page
  have := k.rodata_le
  have := k.rodata_end
  have := k.guard_end
  have := k.end_lt
  have htext : virtToPhys k.textEnd = k.textEnd - kernelDirectBase :=
    virtToPhys_of_le (by omega) (by omega)
  have hrodata : virtToPhys k.rodataStart = k.rodataStart - kernelDirectBase :=
    virtToPhys_of_le (by omega) (by omega)
  rw [kernelPageFlags, pageDown_eq, pageUp_eq, pageDown_eq, pageUp_eq, if_neg, if_pos]
  · omega
  · unfold kernelDirectBase at *
    omega

end Symbols

/-! ## Building -/

section Build

variable {done : List (Nat × Nat)}

/-- The table maps the pages of `done`, each with its flags, and nothing else. -/
structure Built (P : PagePool) (rest : Multiset Nat) (m : Machine) (t : Radix)
    (done : List (Nat × Nat)) : Prop where
  tabled : Tabled P m t (fun _ => 0) rest
  width : t.width = 512
  tight : t.Tight
  mapped : ∀ e ∈ done, t.leaf (vpn (physToVirt e.1)) = leafPte e.1 e.2
  only : ∀ v, t.leaf v ≠ 0 → ∃ e ∈ done, v = vpn (physToVirt e.1)

/-- What `map_physical_range` maps. -/
def mappings (k : KernelSymbols) (ram : Bool) (pages : List Nat) : List (Nat × Nat) :=
  (pages.filter fun p => physToVirt p ≠ k.bootStackGuard).map fun p => (p, mapFlags k ram p)

/-- What part of the build left behind, whether it went to its end or not. -/
structure BuildStep (P : PagePool) (rest : Multiset Nat) (m : Machine) (t : Radix)
    (done : List (Nat × Nat)) (r : Bool × Machine) (t' : Radix) : Prop where
  tabled : Tabled P r.2 t' (fun _ => 0) rest
  root : t'.root = t.root
  width : t'.width = 512
  slabs : r.2.slabs = m.slabs
  built : r.1 = true → Built P rest r.2 t' done

/-- A part that is done without touching the table. -/
theorem Built.stay (h : Built P rest m t done) (b : Bool) : BuildStep P rest m t done (b, m) t :=
  ⟨h.tabled, rfl, h.width, rfl, fun _ => h⟩

theorem BuildStep.trans {t' t'' : Radix} {r r' : Bool × Machine}
    {done' : List (Nat × Nat)} (h : BuildStep P rest m t done r t')
    (h' : BuildStep P rest r.2 t' done' r' t'') : BuildStep P rest m t done' r' t'' :=
  ⟨h'.tabled, h'.root.trans h.root, h'.width, h'.slabs.trans h.slabs, h'.built⟩

/-- A part that has failed, whatever was to be done. -/
theorem BuildStep.failed {m' : Machine} {t' : Radix} {done' : List (Nat × Nat)}
    (h : BuildStep P rest m t done (false, m') t') : BuildStep P rest m t done' (false, m') t' :=
  ⟨h.tabled, h.root, h.width, h.slabs, by simp⟩

theorem leafPte_ne_zero (p flags : Nat) : leafPte p flags ≠ 0 := by
  unfold leafPte hardwareFlags
  split <;> simp [Nat.or_eq_zero_iff, pteV]

variable (h : Built P rest m t done)

include h

/-- **One page.** -/
theorem vmMap_built {p : Nat} (hp : p < 2 ^ 64) (flags : Nat) :
    ∃ t', BuildStep P rest m t (done ++ [(p, flags)]) (vmMap t.root (physToVirt p) p flags m)
      t' := by
  have hv : vpn (physToVirt p) / 512 / 512 < t.width := by
    rw [h.width]
    exact vpn_lt _
  obtain ⟨t', htab, -, hslabs, htrue, hfalse⟩ := vmMap_spec h.tabled flags hv hp
  obtain ⟨b, m', hrun⟩ : ∃ b m', vmMap t.root (physToVirt p) p flags m = (b, m') := ⟨_, _, rfl⟩
  rw [hrun] at htab hslabs htrue hfalse ⊢
  cases b with
  | false =>
    have hgrows := hfalse rfl
    exact ⟨t', htab, hgrows.le.root.symm, hgrows.le.width.symm.trans h.width, hslabs, by simp⟩
  | true =>
    obtain ⟨-, -, -, hzero, htight, hle, hleaf⟩ := htrue rfl
    have hw := hle.width.symm.trans h.width
    refine ⟨t', htab, hle.root.symm, hw, hslabs, fun _ => ⟨htab, hw, htight h.tight, ?_, ?_⟩⟩
    · intro e he
      rcases List.mem_append.mp he with he | he
      · -- the slot of a page that is mapped is not empty
        have hne : vpn (physToVirt e.1) ≠ vpn (physToVirt p) := by
          intro heq
          have hold := h.mapped e he
          rw [heq, hzero] at hold
          exact leafPte_ne_zero _ _ hold.symm
        rw [hleaf, Function.update_of_ne hne, h.mapped e he]
      · rw [List.mem_singleton.mp he, hleaf, Function.update_self]
    · intro v hne
      by_cases hv : v = vpn (physToVirt p)
      · exact ⟨(p, flags), by simp, hv⟩
      rw [hleaf, Function.update_of_ne hv] at hne
      obtain ⟨e, he, heq⟩ := h.only v hne
      exact ⟨e, mem_append_left _ he, heq⟩

theorem mapPages_built {ps : List Nat} {ram : Bool} (hps : ∀ p ∈ ps, p < 2 ^ 64) :
    ∃ t', BuildStep P rest m t (done ++ mappings k ram ps) (mapPages k t.root ram ps m) t' := by
  induction ps generalizing m t done with
  | nil =>
    rw [mapPages, mappings, filter_nil, map_nil, append_nil]
    exact ⟨t, h.stay true⟩
  | cons p ps ih =>
    have hrest : ∀ q ∈ ps, q < 2 ^ 64 := fun q hq => hps q (mem_cons_of_mem _ hq)
    rw [mapPages]
    by_cases hguard : physToVirt p = k.bootStackGuard
    · have hskip : mappings k ram (p :: ps) = mappings k ram ps := by simp [mappings, hguard]
      rw [if_pos hguard, hskip]
      exact ih h hrest
    have hcons : done ++ mappings k ram (p :: ps) =
        done ++ [(p, mapFlags k ram p)] ++ mappings k ram ps := by simp [mappings, hguard]
    rw [if_neg hguard, hcons]
    obtain ⟨t1, hone⟩ := vmMap_built h (hps p mem_cons_self) (mapFlags k ram p)
    obtain ⟨b, m1, hrun⟩ : ∃ b m1, vmMap t.root (physToVirt p) p (mapFlags k ram p) m = (b, m1) :=
      ⟨_, _, rfl⟩
    rw [hrun] at hone ⊢
    cases b with
    | false => exact ⟨t1, hone.failed⟩
    | true =>
      obtain ⟨t2, hmore⟩ := ih (hone.built rfl) hrest
      rw [hone.root] at hmore
      exact ⟨t2, hone.trans hmore⟩

theorem mapPhysicalRange_built {r : PhysicalRange} {ram : Bool} :
    ∃ t', BuildStep P rest m t (done ++ mappings k ram (physicalPages r))
      (mapPhysicalRange k t.root r ram m) t' := by
  unfold mapPhysicalRange
  by_cases hbad : 2 ^ 64 - 1 - r.size < r.base ∨ 2 ^ 64 - 1 - pageMask < r.base + r.size
  · rw [if_pos hbad]
    exact ⟨t, (h.stay false).failed⟩
  rw [if_neg hbad]
  refine mapPages_built h fun p hp => ?_
  have := mem_physicalPages.mp hp
  omega

theorem mapRanges_built {ranges : List (PhysicalRange × Bool)} : ∃ t', BuildStep P rest m t
      (done ++ ranges.flatMap fun e => mappings k e.2 (physicalPages e.1))
      (mapRanges k t.root ranges m) t' := by
  induction ranges generalizing m t done with
  | nil =>
    rw [mapRanges, flatMap_nil, append_nil]
    exact ⟨t, h.stay true⟩
  | cons e ranges ih =>
    obtain ⟨r, ram⟩ := e
    obtain ⟨t1, hone⟩ := mapPhysicalRange_built (k := k) (r := r) h
    obtain ⟨b, m1, hrun⟩ : ∃ b m1, mapPhysicalRange k t.root r ram m = (b, m1) := ⟨_, _, rfl⟩
    rw [hrun] at hone
    rw [mapRanges, hrun]
    cases b with
    | false => exact ⟨t1, hone.failed⟩
    | true =>
      obtain ⟨t2, hmore⟩ := ih (hone.built rfl)
      rw [hone.root, append_assoc] at hmore
      exact ⟨t2, hone.trans hmore⟩

/-- What a complete build maps. -/
def kernelMappings (k : KernelSymbols) (info : BootInfo) : List (Nat × Nat) :=
  (kernelRanges info).flatMap fun e => mappings k e.2 (physicalPages e.1)

omit h in
theorem mem_kernelMappings {info : BootInfo} {p flags : Nat} :
    (p, flags) ∈ kernelMappings k info ↔ ∃ r ram, (r, ram) ∈ kernelRanges info ∧
      p % 4096 = 0 ∧ r.base < p + 4096 ∧ p < r.base + r.size ∧
      physToVirt p ≠ k.bootStackGuard ∧ flags = mapFlags k ram p := by
  simp only [kernelMappings, mappings, mem_flatMap, mem_map, mem_filter,
    decide_eq_true_eq, mem_physicalPages, Prod.exists, Prod.mk.injEq]
  constructor
  · rintro ⟨r, ram, hr, q, ⟨⟨ha, hlo, hhi⟩, hg⟩, rfl, rfl⟩
    exact ⟨r, ram, hr, ha, hlo, hhi, hg, rfl⟩
  · rintro ⟨r, ram, hr, ha, hlo, hhi, hg, rfl⟩
    exact ⟨r, ram, hr, p, ⟨⟨ha, hlo, hhi⟩, hg⟩, rfl, rfl⟩

omit h in
theorem built_bare {root : Nat} (h : Tabled P m (Radix.bare root 512) (fun _ => 0) rest) :
    Built P rest m (Radix.bare root 512) [] :=
  ⟨h, rfl, Radix.tight_bare _ _, by simp, fun v hv => absurd rfl hv⟩

omit h in
/-- **The whole build**: a table with the mappings of all ranges, or none and the
free pages it found. -/
theorem vmBuildKernel_spec (hst : Stocked P m rest) (k : KernelSymbols) (info : BootInfo) :
    (∃ root m' t, vmBuildKernel k info m = (some root, m') ∧ root ≠ 0 ∧ t.root = root ∧
      Built P rest m' t (kernelMappings k info)) ∨
    ∃ m', vmBuildKernel k info m = (none, m') ∧ Stocked P m' rest ∧ m'.slabs = m.slabs := by
  obtain ⟨root, m1, hcreate⟩ : ∃ root m1, vmCreate m = (root, m1) := ⟨_, _, rfl⟩
  have hspec := vmCreate_spec hst
  rw [hcreate] at hspec
  rcases hspec with ⟨rfl, hsame⟩ | ⟨htab, hne, -, hslabs⟩
  · right
    exact ⟨m1, by simp only [vmBuildKernel, hcreate], hst.of_same hsame, hsame.slabs⟩
  obtain ⟨n, rfl⟩ := Nat.exists_eq_succ_of_ne_zero hne
  obtain ⟨t, hall⟩ := mapRanges_built (k := k)  (built_bare htab)
  obtain ⟨b, m2, hrun⟩ : ∃ b m2, mapRanges k (n + 1) (kernelRanges info) m1 = (b, m2) := ⟨_, _, rfl⟩
  have hroot : (Radix.bare (n + 1) 512).root = n + 1 := rfl
  rw [hroot, hrun] at hall
  cases b with
  | true =>
    left
    refine ⟨n + 1, m2, t, by simp only [vmBuildKernel, hcreate, hrun], hne, hall.root, ?_⟩
    exact hall.built rfl
  | false =>
    right
    have hrel := vmDestroy_spec hall.tabled hall.width
    rw [hall.root] at hrel
    exact ⟨vmDestroy (n + 1) m2, by simp only [vmBuildKernel, hcreate, hrun], hrel.stock,
      hrel.slabs.trans (hall.slabs.trans hslabs)⟩

/-- A page that is mapped is found where the direct map has it. -/
theorem Built.query {p flags : Nat} (he : (p, flags) ∈ done)
    (ha : p % 4096 = 0) (hp : p < 2 ^ 38) (hf : validLeafFlags flags = true) :
    vmQuery t.root (kernelDirectBase + p) m = some (p, hardwareFlags flags) := by
  have hs : sv39 (kernelDirectBase + p) = true := by
    refine sv39_iff.mpr ?_
    unfold kernelDirectBase
    omega
  have hoff : pageOffset (kernelDirectBase + p) = 0 := by
    rw [pageOffset_eq, kernelDirectBase]
    omega
  have hleaf := h.mapped _ he
  rw [physToVirt_of_lt hp] at hleaf
  rw [vmQuery_eq_decodeLeaf h.tabled h.width hs, hleaf,
    decodeLeaf_leafPte ha (hp.trans (by decide)) hf, hoff, Nat.add_zero]

/-- Whatever is found anywhere is a page that was mapped. -/
theorem Built.of_query {v q found : Nat} (hquery : vmQuery t.root v m = some (q, found)) :
    ∃ e ∈ done, found = leafPte e.1 e.2 &&& 0x3ff := by
  have hc : canonical v = true := by
    have hsome : (vmMap t.root v 0 0 m).1 = true ∨ (vmQuery t.root v m).isSome := by
      rw [hquery]
      exact .inr rfl
    simpa [canonical] using canonical_of_accepted hsome
  have hv : vpn v / 512 / 512 < t.width := by
    rw [h.width]
    exact vpn_lt _
  rw [vmQuery_spec h.tabled hc hv] at hquery
  split at hquery
  · cases hquery
  next hne =>
  obtain ⟨e, he, hslot⟩ := h.only _ hne
  have hleaf := h.mapped e he
  rw [← hslot] at hleaf
  cases hquery
  exact ⟨e, he, by rw [hleaf]⟩

/-- The root has entries only where pages are mapped. -/
theorem Built.root_entry (hroot : t.root ≠ 0) {i : Nat} (hi : i < 512)
    (hfree : ∀ e ∈ done, vpn (physToVirt e.1) / 512 / 512 ≠ i) : entry m.mem t.root i = 0 := by
  rw [h.tabled.rep.root_entry hroot i (by rw [h.width]; exact hi)]
  cases hm : t.mid i with
  | none => rfl
  | some q =>
    obtain ⟨j, hj, r, hr⟩ := h.tight.mid_used hm
    obtain ⟨k, hk, hleaf⟩ := h.tight.low_used hr
    obtain ⟨e, he, heq⟩ := h.only _ hleaf
    have := hfree e he
    omega

end Build

/-! ## The direct map -/

/-- What the kernel expects of its page table. -/
structure DirectMap (k : KernelSymbols) (info : BootInfo) (root : Nat) (m : Machine) : Prop where
  maps : ∀ p r ram, p % 4096 = 0 → (r, ram) ∈ kernelRanges info → r.base < p + 4096 →
    p < r.base + r.size → kernelDirectBase + p ≠ k.bootStackGuard →
    kernelDirectBase + p < 2 ^ 64 ∧ ∃ flags, vmQuery root (kernelDirectBase + p) m = some (p, flags)
  text : ∀ p, p % 4096 = 0 → OnPage k.textStart k.textEnd p → ∃ flags,
    vmQuery root (kernelDirectBase + p) m = some (p, flags) ∧ flags &&& pteR ≠ 0 ∧
      flags &&& pteX ≠ 0 ∧ flags &&& pteW = 0
  rodata : ∀ p, p % 4096 = 0 → OnPage k.rodataStart k.rodataEnd p → ∃ flags,
    vmQuery root (kernelDirectBase + p) m = some (p, flags) ∧ flags &&& pteR ≠ 0 ∧
      flags &&& pteX = 0 ∧ flags &&& pteW = 0
  exclusive : ∀ v p flags, vmQuery root v m = some (p, flags) →
    flags &&& pteW = 0 ∨ flags &&& pteX = 0
  kernel : ∀ v p flags, vmQuery root v m = some (p, flags) → flags &&& pteU = 0
  lower : ∀ i < 256, entry m.mem root i = 0

section Direct

variable {info : BootInfo}

/-- The image of the kernel is in one of the memory ranges. -/
def KernelSymbols.Inside (k : KernelSymbols) (info : BootInfo) : Prop :=
  ∃ r ∈ info.memory, r.base ≤ virtToPhys k.textStart ∧ virtToPhys k.kernelEnd ≤ r.base + r.size

/-- A page of a section before the guard page is mapped as memory. -/
theorem mem_kernelMappings_of_section {first last p : Nat} (hin : k.Inside info) (ha : p % 4096 = 0)
    (hp : OnPage first last p) (hfirst : k.textStart ≤ first) (hle : first ≤ last)
    (hlast : last ≤ k.bootStackGuard) :
    p < 2 ^ 38 ∧ (p, kernelPageFlags k p) ∈ kernelMappings k info := by
  obtain ⟨r, hr, hbase, hend⟩ := hin
  obtain ⟨hlo, hhi⟩ := hp
  have hdirect := k.direct
  have hguard := k.guard_page
  have hgend := k.guard_end
  have hlt := k.end_lt
  rw [virtToPhys_of_le (by omega) (by omega)] at hlo hhi hbase hend
  have hp38 : p < 2 ^ 38 := by
    unfold kernelDirectBase at *
    omega
  refine ⟨hp38, mem_kernelMappings.mpr ⟨r, true, ?_, ha, ?_, ?_, ?_, ?_⟩⟩
  · simp [kernelRanges, hr]
  · unfold kernelDirectBase at *
    omega
  · unfold kernelDirectBase at *
    omega
  · rw [physToVirt_of_lt hp38]
    unfold kernelDirectBase at *
    omega
  · rw [mapFlags, if_pos rfl]

/-- A complete build below 2³⁸ is a direct map. -/
theorem Built.directMap (h : Built P rest m t (kernelMappings k info)) (hroot : t.root ≠ 0)
    (hin : k.Inside info) (hreach : ∀ e ∈ kernelRanges info, e.1.base + e.1.size ≤ 2 ^ 38) :
    DirectMap k info t.root m := by
  have hpages : ∀ e ∈ kernelMappings k info, e.1 % 4096 = 0 ∧ e.1 < 2 ^ 38 ∧ KernelFlags e.2 := by
    rintro ⟨p, flags⟩ he
    obtain ⟨r, ram, hr, ha, -, hhi, -, rfl⟩ := mem_kernelMappings.mp he
    have := hreach _ hr
    refine ⟨ha, ?_, kernelFlags_mapFlags k ram p⟩
    simp only at this ⊢
    omega
  have hfound : ∀ v p flags, vmQuery t.root v m = some (p, flags) →
      ∃ f, KernelFlags f ∧ flags = hardwareFlags f := by
    intro v p flags hquery
    obtain ⟨e, he, rfl⟩ := h.of_query hquery
    obtain ⟨ha, hp, hf⟩ := hpages e he
    exact ⟨e.2, hf, leafPte_and_flags ha (hp.trans (by decide)) hf.valid⟩
  constructor
  · intro p r ram ha hr hlo hhi hguard
    have hp : p < 2 ^ 38 := by
      have := hreach _ hr
      simp only at this
      omega
    have hmem : (p, mapFlags k ram p) ∈ kernelMappings k info := by
      refine mem_kernelMappings.mpr ⟨r, ram, hr, ha, hlo, hhi, ?_, rfl⟩
      rwa [physToVirt_of_lt hp]
    have hlt : kernelDirectBase + p < 2 ^ 64 := by
      unfold kernelDirectBase
      omega
    exact ⟨hlt, _, h.query hmem ha hp (kernelFlags_mapFlags k ram p).valid⟩
  · intro p ha hon
    have hle := k.text_end.trans (k.rodata_le.trans k.rodata_end)
    obtain ⟨hp, hmem⟩ := mem_kernelMappings_of_section hin ha hon le_rfl k.text_le hle
    rw [flags_of_text k ha hon] at hmem
    exact ⟨_, h.query hmem ha hp (by decide), by decide, by decide, by decide⟩
  · intro p ha hon
    have hle := k.text_le.trans k.text_end
    obtain ⟨hp, hmem⟩ := mem_kernelMappings_of_section hin ha hon hle k.rodata_le k.rodata_end
    rw [flags_of_rodata k ha hon] at hmem
    exact ⟨_, h.query hmem ha hp (by decide), by decide, by decide, by decide⟩
  · intro v p flags hquery
    obtain ⟨f, hf, rfl⟩ := hfound v p flags hquery
    exact hf.exclusive
  · intro v p flags hquery
    obtain ⟨f, hf, rfl⟩ := hfound v p flags hquery
    exact hf.kernel
  · intro i hi
    refine h.root_entry hroot (by omega) fun e he => ?_
    rw [physToVirt_of_lt (hpages e he).2.1, vpn, kernelDirectBase]
    have := (hpages e he).2.1
    omega

/-- The ranges of a parsed tree, and that of the test device, are not empty. -/
theorem BootInfo.Ok.kernelRanges (h : info.Ok) {e : PhysicalRange × Bool}
    (he : e ∈ kernelRanges info) : e.1.size ≠ 0 := by
  simp only [MiniCore.kernelRanges, mem_append, mem_map, mem_singleton, mem_ite_nil_right] at he
  rcases he with (((⟨r, hr, rfl⟩ | rfl) | ⟨hp, rfl⟩) | ⟨hp, rfl⟩) | ⟨r, hr, rfl⟩
  · exact (h.memory.ok r hr).size_ne
  · decide
  · exact (h.uart hp).size_ne
  · exact (h.plic hp).size_ne
  · exact (h.virtio.ok r hr).size_ne

/-- The page with the last byte of a range has a direct address below 2⁶⁴. -/
theorem DirectMap.range_le {root : Nat} (h : DirectMap k info root m) {e : PhysicalRange × Bool}
    (he : e ∈ kernelRanges info) (hne : e.1.size ≠ 0) : e.1.base + e.1.size ≤ 2 ^ 38 := by
  by_contra hbeyond
  have hguard := k.guard_end
  have hlt := k.end_lt
  have hp :=
    (h.maps ((e.1.base + e.1.size - 1) / 4096 * 4096) e.1 e.2 (by omega) he (by omega) (by omega)
      (by unfold kernelDirectBase; omega)).1
  unfold kernelDirectBase at hp
  omega

end Direct

/-- **The kernel's page table.**  A build that succeeds is a direct map of the
ranges if and only if they all end at 2³⁸ or below; one that fails has freed
every page it allocated. -/
theorem vm_build_kernel_sound {address : Nat} {blob : List UInt8} {P : PagePool}
    {rest : Multiset Nat} {m : Machine} {k : KernelSymbols} {info : BootInfo}
    (hparse : dtbParse address blob = .ok info) (hst : Stocked P m rest) (hin : k.Inside info) :
    (∀ root m', vmBuildKernel k info m = (some root, m') → (DirectMap k info root m' ↔
      ∀ e ∈ kernelRanges info, e.1.base + e.1.size ≤ 2 ^ 38)) ∧
    ∀ m', vmBuildKernel k info m = (none, m') → m'.freeList.Perm m.freeList := by
  constructor
  · intro root m' hrun
    refine ⟨fun h e he => h.range_le he ((dtbParse_ok hparse).kernelRanges he), fun hreach => ?_⟩
    rcases vmBuildKernel_spec hst k info with ⟨root', m1, t, heq, hne, hroot, hbuilt⟩ | ⟨m1, heq, -⟩
    · rw [hrun] at heq
      cases heq
      subst hroot
      exact hbuilt.directMap hne hin hreach
    · rw [hrun] at heq
      cases heq
  intro m' hrun
  rcases vmBuildKernel_spec hst k info with ⟨root', m1, t, heq, -⟩ | ⟨m1, heq, hst', hslabs⟩
  · rw [hrun] at heq
    cases heq
  rw [hrun] at heq
  cases heq
  have hpool := hst'.pool.trans hst.pool.symm
  rw [Machine.stock, Machine.stock, hslabs] at hpool
  exact Multiset.coe_eq_coe.mp (add_right_cancel (add_right_cancel hpool))

/-! ## Two boards -/

/-- A kernel of six pages from 0x80000000 on. -/
def smallKernel : KernelSymbols where
  textStart := kernelDirectBase + 0x80000000
  textEnd := kernelDirectBase + 0x80000ff0
  rodataStart := kernelDirectBase + 0x80001000
  rodataEnd := kernelDirectBase + 0x80001010
  bootStackGuard := kernelDirectBase + 0x80002000
  kernelEnd := kernelDirectBase + 0x80006000
  direct := by decide
  text_le := by decide
  text_end := by decide
  rodata_page := by decide
  rodata_le := by decide
  rodata_end := by decide
  guard_page := by decide
  guard_end := by decide
  end_lt := by decide

/-- Seven free pages behind the kernel. -/
def kernelMachine : Machine :=
  ⟨fun _ => 0, (range 7).map fun i => 0x80006000 + 4096 * i, [], [], []⟩

def kernelPool : PagePool where
  pages := kernelMachine.freeList
  nodup := by decide
  isPage := by
    have hall : ∀ p ∈ kernelMachine.freeList, p % 4096 = 0 ∧ p ≠ 0 ∧ p < 2 ^ 56 := by decide
    intro p hp
    obtain ⟨ha, hne, hlt⟩ := hall p hp
    exact ⟨ha, hne, hlt⟩

theorem stocked_kernelMachine : Stocked kernelPool kernelMachine 0 :=
  ⟨by simp [HeapOk, kernelMachine], rfl, by simp [kernelMachine]⟩

theorem smallKernel_inside {info : BootInfo} (h : ⟨0x80000000, 0xd000⟩ ∈ info.memory) :
    smallKernel.Inside info :=
  ⟨_, h, by decide, by decide⟩

/-- A build that succeeds on a board with nothing but memory. -/
theorem small_direct_map :
    ∃ root m, vmBuildKernel smallKernel (memoryInfo [⟨0x80000000, 0xd000⟩]) kernelMachine =
      (some root, m) ∧ DirectMap smallKernel (memoryInfo [⟨0x80000000, 0xd000⟩]) root m := by
  have hrun : (vmBuildKernel smallKernel (memoryInfo [⟨0x80000000, 0xd000⟩]) kernelMachine).1 =
      some 0x80006000 := by decide +kernel
  obtain ⟨r, m, heq⟩ : ∃ r m, vmBuildKernel smallKernel (memoryInfo [⟨0x80000000, 0xd000⟩])
      kernelMachine = (r, m) := ⟨_, _, rfl⟩
  rw [heq] at hrun
  cases hrun
  have hin : smallKernel.Inside (memoryInfo [⟨0x80000000, 0xd000⟩]) :=
    smallKernel_inside (by simp [memoryInfo])
  have hparse : dtbParse 0x1000 (fdtBlob (fdtMemory [⟨0x80000000, 0xd000⟩]) fdtNames) =
      .ok (memoryInfo [⟨0x80000000, 0xd000⟩]) := by decide +kernel
  have hsound := vm_build_kernel_sound hparse stocked_kernelMachine hin
  exact ⟨_, m, heq, (hsound.1 _ m heq).mpr (by decide)⟩

/-- A board with memory and a UART at 2³⁸. -/
def farUart : List UInt8 :=
  fdtBlob (fdtMemory [⟨0x80000000, 0xd000⟩] ++
    fdtNode "uart" (fdtProperty 16 (bytesOf "ns16550a" ++ [0]) ++ fdtReg [⟨2 ^ 38, 0x1000⟩]))
    fdtNames

/-- **A window at 2³⁸** is mapped at address 0, through the first entry of the
root, and not where its unwrapped sum points. -/
theorem wrapped_window : ∃ info root m,
    dtbParse 0x1000 farUart = .ok info ∧ smallKernel.Inside info ∧
    vmBuildKernel smallKernel info kernelMachine = (some root, m) ∧
    info.uartPresent = true ∧ info.uart = ⟨2 ^ 38, 0x1000⟩ ∧
    kernelDirectBase + 2 ^ 38 = 2 ^ 64 ∧ vmQuery root (kernelDirectBase + 2 ^ 38) m = none ∧
    vmQuery root 0 m = some (2 ^ 38, pteV ||| pteR ||| pteW ||| pteG ||| pteA ||| pteD) ∧
    entry m.mem root 0 ≠ 0 := by
  have hparse : dtbParse 0x1000 farUart =
      .ok { memoryInfo [⟨0x80000000, 0xd000⟩] with
        uart := ⟨2 ^ 38, 0x1000⟩, uartPresent := true, dtbSize :=
        farUart.length } := by decide +kernel
  refine ⟨_, 0x80006000, _, hparse, smallKernel_inside (by simp [memoryInfo]),
    Prod.ext (by decide +kernel) rfl, rfl, rfl, rfl, ?_, ?_, ?_⟩
  · decide +kernel
  · decide +kernel
  · decide +kernel

end MiniCore
