import MiniCore.Kernel.Agreement
import MiniCore.Mm.Reclamation

/-!
# MiniCore.Kernel.Conservation

Where the physical pages are, and what a failed call leaves.

In every reachable world the pages are shared out without overlap or loss
(`Boot.conserved`).  A call that fails gives back everything it took
(`Boot.failure_neutral`): the same struct, the same translations at every
address, the same bytes, and the same free pages, because slabs of the heap
exist only for live objects.
-/

namespace MiniCore

open Lib List

variable {P : PagePool} {shared : Nat → Nat} {strict : Prop} {kept objs held : Multiset Nat}
  {m₀ m : Machine} {l : List (AddressSpace × Radix)} {kernelRoot : Nat} {kernel : Radix} {w : World}

/-! ## Conservation -/

/-- Every page of the machine is in one place: free, in a table of one struct,
on the ledger of one struct, in the heap, or with the kernel (`kept`). -/
structure Conserved (kept : Multiset Nat) (m₀ : Machine) (w : World) : Prop where
  partition : (w.machine.freeList : Multiset Nat) +
    (w.spaces.map fun as => (tablePages w.machine.mem as.root 256 : Multiset Nat)).sum +
    (w.spaces.map fun as => (as.pages.map UserPage.physical : Multiset Nat)).sum +
    slabBag w.machine.slabs + kept = m₀.freeList + slabBag m₀.slabs + kept
  nodup : ((w.machine.freeList : Multiset Nat) +
    (w.spaces.map fun as => (tablePages w.machine.mem as.root 256 : Multiset Nat)).sum +
    (w.spaces.map fun as => (as.pages.map UserPage.physical : Multiset Nat)).sum +
    slabBag w.machine.slabs + kept).Nodup
  /-- No page was on the free list when it was freed. -/
  freed_once : ∀ e ∈ w.machine.frees, e.2 = false
  kept_kept : ∀ e ∈ w.machine.frees, e.1 ∉ kept
  restored : (∀ as ∈ w.spaces, as.root = 0 ∧ as.pages = [] ∧ as.areas = []) →
    ∀ p, p ∈ w.machine.freeList ↔ p ∈ m₀.freeList

/-- The shares, split into tables read from memory and ledgers. -/
theorem Sound.shares_eq (h : Sound P shared strict kept objs m₀ m l) :
    shares l = ((l.map Prod.fst).map fun as => (tablePages m.mem as.root 256 : Multiset Nat)).sum +
      ((l.map Prod.fst).map fun as => (as.pages.map UserPage.physical : Multiset Nat)).sum := by
  have hmap : l.map share = l.map fun x =>
      (tablePages m.mem x.1.root 256 : Multiset Nat) +
        (x.1.pages.map UserPage.physical : Multiset Nat) := by
    refine map_congr_left fun x hx => ?_
    obtain ⟨i, hi⟩ := getElem?_of_mem hx
    rw [h.tablePages_eq hi]
    rfl
  rw [shares, hmap, sum_map_add, map_map, map_map]
  rfl

/-- Structs that own nothing have no shares. -/
theorem Sound.shares_dead (h : Sound P shared strict kept objs m₀ m l)
    (hdead : ∀ x ∈ l, x.1.Dead) : shares l = 0 ∧ recordsOf l = 0 := by
  constructor
  · refine sum_eq_zero fun s hs => ?_
    obtain ⟨x, hx, rfl⟩ := List.mem_map.mp hs
    exact ((h.space x hx).share_dead (hdead x hx)).1
  · refine sum_eq_zero fun s hs => ?_
    obtain ⟨x, hx, rfl⟩ := List.mem_map.mp hs
    exact ((h.space x hx).share_dead (hdead x hx)).2

/-- **Physical pages are conserved** by every sequence of calls, with any
allocation failing. -/
theorem Boot.conserved (hb : Boot kernelRoot kernel held m₀)
    (hr : Reach (step kernelRoot) Always ⟨m₀, []⟩ w) :
    Conserved (kernel.frames + held) m₀ w := by
  obtain ⟨l, hl, hs⟩ : w.Sound hb.pool kernelRoot False (kernel.frames + held)
    (liveBag m₀.slabs) m₀ :=
    hb.reach (by simp) hr
  have hpart : (w.machine.freeList : Multiset Nat) +
      (w.spaces.map fun as => (tablePages w.machine.mem as.root 256 : Multiset Nat)).sum +
      (w.spaces.map fun as => (as.pages.map UserPage.physical : Multiset Nat)).sum +
      slabBag w.machine.slabs + (kernel.frames + held) = hb.pool.pages := by
    rw [← hs.stock.pool, hs.shares_eq, hl, Machine.stock]
    abel
  refine ⟨hpart.trans rfl, hpart ▸ hb.pool.nodup, hs.stock.clean, ?_, ?_⟩
  · intro e he
    rcases hs.keeps.frees e he with hold | hnot
    · rw [hb.frees] at hold
      cases hold
    · exact hnot
  intro hdead p
  have hdead' : ∀ x ∈ l, x.1.Dead := by
    intro x hx
    obtain ⟨h1, h2, h3⟩ := hdead x.1 (hl ▸ mem_map_of_mem hx)
    exact ⟨h1, h2, h3⟩
  obtain ⟨hshares, hrecords⟩ := hs.shares_dead hdead'
  have hst := hs.stock
  have hlive := hs.live
  rw [hshares, zero_add] at hst
  rw [hrecords, zero_add] at hlive
  exact Stocked.mem_freeList_iff ⟨hb.heap, rfl, by simp [hb.frees]⟩ hst hlive

theorem smallRun_conserved : ∃ w,
    runSteps (step 4096) ⟨smallMachine, []⟩ (smallRun ++ [.destroy 0, .destroy 1]) = some w ∧
    Conserved ((Radix.bare 4096 512).frames + 0) smallMachine w ∧
    ∀ p, p ∈ w.machine.freeList ↔ p ∈ smallMachine.freeList := by
  have hdead : (runSteps (step 4096) ⟨smallMachine, []⟩ (smallRun ++ [.destroy 0, .destroy 1])).map
      (fun w => w.spaces.all fun as => as.root = 0 ∧ as.pages = [] ∧ as.areas = []) =
        some true := by
    decide +kernel
  obtain ⟨w, hrun, hall⟩ := Option.map_eq_some_iff.mp hdead
  have hcons := smallMachine_boot.conserved (Reach.of_runSteps hrun fun _ _ _ => trivial)
  exact ⟨w, hrun, hcons, hcons.restored (by simpa using hall)⟩

/-! ## Failed calls -/

/-- The calls that report an error. -/
inductive MemCall where
  | mmap (address length prot mapflags : Nat) (file : Option File) (offset : Nat)
  | munmap (start length : Nat)
  | brk (requested : Nat)

def MemCall.run (as : AddressSpace) (m : Machine) :
    MemCall → Except Errno Nat × AddressSpace × Machine
  | .mmap address length prot mapflags file offset =>
    addressSpaceMmap as address length prot mapflags file offset m
  | .munmap start length => addressSpaceMunmap as start length m
  | .brk requested => addressSpaceBrk as requested m

/-- Nothing that can be observed of the space `as`, and no resource, has changed. -/
structure Unchanged (as as' : AddressSpace) (m m' : Machine) : Prop where
  space : as' = as
  translations : ∀ address, vmQuery as.root address m' = vmQuery as.root address m
  contents : ∀ p ∈ as.pages, Set.EqOn m'.mem m.mem (pageBytes p.physical)
  free : ∀ p, p ∈ m'.freeList ↔ p ∈ m.freeList
  objects : liveBag m'.slabs = liveBag m.slabs

section

variable {m' : Machine}

theorem Sound.of_same (h : Sound P shared strict kept objs m₀ m l) (hs : m.Same m') :
    Sound P shared strict kept objs m₀ m' l :=
  h.rest (h.stock.of_same hs) (hs.slabs ▸ h.live) (Keeps.of_same hs)

variable {i : Nat} {as : AddressSpace} {t : Radix}

/-- The upper half of every struct is the kernel's. -/
theorem Boot.kernelHalf (hb : Boot kernelRoot kernel held m₀)
    (hs : Sound P (fun i => entry m₀.mem kernelRoot i) strict (kernel.frames + held) objs m₀ m l)
    (rest : Multiset Nat) :
    KernelHalf kernel (fun i => entry m₀.mem kernelRoot i) (rest + (kernel.frames + held)) m where
  rep := hb.table.congr fun p hp => hs.keeps.bytes p (Multiset.mem_add.mpr (.inl hp))
  width := hb.width
  root_ne := hb.root_eq ▸ hb.root_ne
  le := (Multiset.le_add_right _ _).trans (Multiset.le_add_left _ _)
  shared_eq n hn := by
    rw [hb.root_eq]
    exact (hs.upper hb.mem_kernel n hn).symm

/-- Two sound states with the same structs differ at most in bytes. -/
theorem Boot.unchanged (hb : Boot kernelRoot kernel held m₀)
    (hs : Sound P (fun i => entry m₀.mem kernelRoot i) strict (kernel.frames + held) objs m₀ m l)
    (hs' : Sound P (fun i => entry m₀.mem kernelRoot i) strict (kernel.frames + held) objs m₀ m' l)
    (hi : l[i]? = some (as, t))
    (hbytes : ∀ p ∈ as.pages, Set.EqOn m'.mem m.mem (pageBytes p.physical)) :
    Unchanged as as m m' := by
  refine ⟨rfl, fun address => ?_, hbytes, ?_, hs'.live.trans hs.live.symm⟩
  · have h := hs.focus hi
    have h' := hs'.focus hi
    have htab := h.tabled
    have htab' := h'.tabled
    rw [← add_assoc] at htab htab'
    rw [← h.root_eq]
    exact htab.vmQuery_congr htab' (hb.kernelHalf hs _) (hb.kernelHalf hs' _) h.width ⟨rfl, rfl⟩ rfl
  · exact fun p => Stocked.mem_freeList_iff hs.stock hs'.stock (hs'.live.trans hs.live.symm)

end

/-- The specification shared by the three calls. -/
theorem MemCall.run_error {P : PagePool} {m m' : Machine} {as as' : AddressSpace} {t : Radix}
    {shared : Nat → Nat} {rest objs : Multiset Nat} (h : Owned P m as t shared rest objs)
    (hr : Reserved as) {c : MemCall} {e : Errno} (hrun : c.run as m = (.error e, as', m')) :
    as' = as ∧ Owned P m' as t shared rest objs ∧ Keeps (as.physicals + rest) m m' := by
  have hout : ∀ {Done : Nat → Prop} {t'},
      Outcome P m m' as as' t shared rest objs (.error e) Done t' →
      as' = as ∧ Owned P m' as t shared rest objs ∧ Keeps (as.physicals + rest) m m' := by
    intro Done t' hout
    obtain ⟨rfl, rfl, hk⟩ := hout.error e rfl hr.agrees
    exact ⟨rfl, hout.owned, hk⟩
  cases c with
  | mmap address length prot mapflags file offset =>
    obtain ⟨t', h'⟩ := addressSpaceMmap_keeps h hrun
    exact hout h'
  | munmap start length =>
    obtain ⟨t', h'⟩ := addressSpaceMunmap_keeps h hr.laid.areas_ok.apart hrun
    exact hout h'
  | brk requested =>
    obtain ⟨t', h'⟩ := addressSpaceBrk_keeps h hr.laid hrun
    exact hout h'

/-- **Failed calls are atomic and resource-neutral**, on every struct of every
reachable world and whichever allocations fail. -/
theorem Boot.failure_neutral (hb : Boot kernelRoot kernel held m₀)
    (hr : Reach (step kernelRoot) (fun _ op => op.raw = false) ⟨m₀, []⟩ w) {i : Nat}
    {as : AddressSpace} (hi : w.spaces[i]? = some as) (outcomes : List Bool) :
    (∀ (c : MemCall) (e : Errno) (as' : AddressSpace) (m' : Machine),
      c.run as { w.machine with outcomes := outcomes } = (.error e, as', m') →
      Unchanged as as' { w.machine with outcomes := outcomes } m') ∧
    (∀ (copy : AddressSpace) (m' : Machine),
      addressSpaceClone as kernelRoot { w.machine with outcomes := outcomes } = (false, copy, m') →
      Unchanged as as { w.machine with outcomes := outcomes } m' ∧
        copy.root = 0 ∧ copy.pages = [] ∧ copy.areas = []) := by
  obtain ⟨l, t, _, hx, hres, hs0⟩ := hb.focus hr hi
  have hsame : w.machine.Same { w.machine with outcomes := outcomes } := ⟨rfl, rfl, rfl, rfl⟩
  have hs := hs0.of_same hsame
  generalize ({ w.machine with outcomes := outcomes } : Machine) = m at hs
  constructor
  · intro c e as' m' hrun
    obtain ⟨rfl, hown, hk⟩ := MemCall.run_error (hs.focus hx) hres hrun
    have hs' := hs.refocus hx hown hk.part hres.laid fun _ => hres.agrees
    have hself : l.set i (as', t) = l := by
      obtain ⟨hlt, heq⟩ := List.getElem?_eq_some_iff.mp hx
      rw [← heq, set_getElem_self]
    rw [hself] at hs'
    refine hb.unchanged hs hs' hx fun p hp => hk.bytes _ ?_
    exact Multiset.mem_add.mpr (.inl (mem_map_of_mem hp))
  · intro copy m' hrun
    obtain ⟨hk, ⟨_, hdead, hst, hlive, _⟩ | ⟨hfalse, _⟩⟩ := addressSpaceClone_spec hs.stock hs.live
      (Multiset.mem_add.mpr (.inr hb.mem_kernel)) hrun
    · refine ⟨?_, hdead.root, hdead.pages, hdead.areas⟩
      refine hb.unchanged hs (hs.rest hst hlive hk) hx fun p hp => hk.bytes _ ?_
      refine Multiset.mem_add.mpr (.inl (Multiset.mem_of_le (mem_shares (mem_of_getElem? hx)) ?_))
      exact Multiset.mem_add.mpr (.inr (mem_map_of_mem hp))
    · cases hfalse

/-- The second page of a growing heap cannot be allocated. -/
theorem failedBrk_neutral : ∃ w as as' m',
    runSteps (step 4096) ⟨smallMachine, []⟩ [.init] = some w ∧ w.spaces[0]? = some as ∧
    (MemCall.brk (heapBase + 4097)).run as
      { w.machine with outcomes := replicate 7 true ++ [false] } = (.error .nomem, as', m') ∧
    Unchanged as as' { w.machine with outcomes := replicate 7 true ++ [false] } m' := by
  let r := addressSpaceInit 4096 smallMachine
  have hrun : runSteps (step 4096) ⟨smallMachine, []⟩ [.init] = some ⟨r.2.2, [r.2.1]⟩ := rfl
  have hfail : ((MemCall.brk (heapBase + 4097)).run r.2.1
      { r.2.2 with outcomes := replicate 7 true ++ [false] }).1 = .error .nomem := by
    decide +kernel
  rcases hcall : (MemCall.brk (heapBase + 4097)).run r.2.1
      { r.2.2 with outcomes := replicate 7 true ++ [false] } with ⟨res, as', m'⟩
  rw [hcall] at hfail
  subst hfail
  have hneutral := smallMachine_boot.failure_neutral
    (Reach.of_runSteps hrun (by simp [Op.raw])) (i := 0) rfl (replicate 7 true ++ [false])
  exact ⟨_, _, as', m', hrun, rfl, hcall, hneutral.1 _ _ _ _ hcall⟩

end MiniCore
