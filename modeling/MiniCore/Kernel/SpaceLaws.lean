import MiniCore.Kernel.Conservation
import MiniCore.Mm.Unmapping
import MiniCore.Mm.UserCopy

/-!
# MiniCore.Kernel.SpaceLaws

What the calls on an address space promise in every reachable world.
-/

namespace MiniCore

open Lib

section

variable {kernelRoot : Nat} {kernel : Radix} {held : Multiset Nat} {m₀ : Machine} {w : World}
  {as : AddressSpace}

/-- **User copies**: in every world that any calls lead to, `address_space_copy`
and `address_space_validate` keep their laws on every struct. -/
theorem Boot.copyLaws (hb : Boot kernelRoot kernel held m₀)
    (hr : Reach (step kernelRoot) Always ⟨m₀, []⟩ w) (has : as ∈ w.spaces) :
    CopyLaws as w.machine := by
  obtain ⟨l, hl, hs⟩ : w.Sound hb.pool kernelRoot False (kernel.frames + held)
    (liveBag m₀.slabs) m₀ :=
    hb.reach False.elim hr
  obtain ⟨i, hi⟩ := List.getElem?_of_mem has
  obtain ⟨t, hx⟩ := exists_entry hl hi
  exact (hs.focus hx).lawful_copies

theorem smallRun_copyLaws : ∃ w, runSteps (step 4096) ⟨smallMachine, []⟩ smallRun = some w ∧
    w.spaces.map (fun as => (as.areas.length, as.pages.length)) = [(2, 5), (2, 5)] ∧
    ∀ as ∈ w.spaces, CopyLaws as w.machine := by
  obtain ⟨w, hrun, hsize⟩ := smallRun_reaches
  refine ⟨w, hrun, hsize, fun as has => ?_⟩
  exact smallMachine_boot.copyLaws (Reach.of_runSteps hrun fun _ _ _ => trivial) has

/-- **Table pages**: under every live root no table is empty, and tables come and
go exactly with the translations below them. -/
theorem Boot.reclaimLaws (hb : Boot kernelRoot kernel held m₀)
    (hr : Reach (step kernelRoot) Always ⟨m₀, []⟩ w) (has : as ∈ w.spaces) (hroot : as.root ≠ 0) :
    ReclaimLaws as.root w.machine := by
  obtain ⟨l, hl, hs⟩ : w.Sound hb.pool kernelRoot False (kernel.frames + held)
    (liveBag m₀.slabs) m₀ :=
    hb.reach False.elim hr
  obtain ⟨i, hi⟩ := List.getElem?_of_mem has
  obtain ⟨t, hx⟩ := exists_entry hl hi
  have h := hs.focus hx
  have htab := h.tabled
  rw [← add_assoc] at htab
  have hlaws := htab.lawful_tables (h.root_eq ▸ hroot) h.width h.tight (hb.kernelHalf hs _)
  rwa [h.root_eq] at hlaws

theorem smallRun_reclaimLaws : ∃ w, runSteps (step 4096) ⟨smallMachine, []⟩ smallRun = some w ∧
    w.spaces.length = 2 ∧ ∀ as ∈ w.spaces, as.root ≠ 0 ∧ ReclaimLaws as.root w.machine := by
  have hlive : (runSteps (step 4096) ⟨smallMachine, []⟩ smallRun).map
      (fun w => (w.spaces.length, w.spaces.all fun as => as.root ≠ 0)) = some (2, true) := by
    decide +kernel
  obtain ⟨w, hrun, heq⟩ := Option.map_eq_some_iff.mp hlive
  obtain ⟨hlen, hroots⟩ := Prod.mk.inj heq
  refine ⟨w, hrun, hlen, fun as has => ?_⟩
  have hroot : as.root ≠ 0 := of_decide_eq_true (List.all_eq_true.mp hroots as has)
  exact ⟨hroot, smallMachine_boot.reclaimLaws (Reach.of_runSteps hrun fun _ _ _ => trivial) has
    hroot⟩

/-- A struct of a world that was reached through the reservations. -/
theorem Boot.space (hb : Boot kernelRoot kernel held m₀)
    (hr : Reach (step kernelRoot) (fun _ op => op.raw = false) ⟨m₀, []⟩ w) (has : as ∈ w.spaces) :
    ∃ P shared t rest objs, Owned P w.machine as t shared (rest + (kernel.frames + held)) objs ∧
      Reserved as ∧
      KernelHalf kernel shared (rest + (kernel.frames + held)) w.machine := by
  obtain ⟨i, hi⟩ := List.getElem?_of_mem has
  obtain ⟨l, t, -, hx, hres, hs⟩ := hb.focus hr hi
  exact ⟨_, _, t, _, _, hs.focus hx, hres, hb.kernelHalf hs _⟩

/-- **`mmap`**: in every world reached through the reservations, a call on a live
struct, of a file whose pages are not the process's, keeps its law. -/
theorem Boot.mmapLaw (hb : Boot kernelRoot kernel held m₀)
    (hr : Reach (step kernelRoot) (fun _ op => op.raw = false) ⟨m₀, []⟩ w) (has : as ∈ w.spaces)
    (hroot : as.root ≠ 0) {file : Option File}
    (hfile : ∀ f, file = some f → f.Kept (kernel.frames + held))
    {address length prot mapflags offset : Nat} {res : Except Errno Nat} {as' : AddressSpace}
    {m' : Machine} (hrun : addressSpaceMmap as address length prot mapflags file offset w.machine =
      (res, as', m')) :
    MmapLaw as as' w.machine m' address length prot mapflags file offset res := by
  obtain ⟨P, shared, t, rest, objs, h, hres, hk⟩ := hb.space hr has
  exact h.lawful_mmap hres.agrees hroot hk (fun f hf => (hfile f hf).mono
    (Multiset.le_add_left _ _)) hrun

/-- The next mapping in each space of the small run, of a file or of none, goes
behind the first one. -/
theorem smallRun_mmapLaw : ∃ w, runSteps (step 4096) ⟨smallMachine, []⟩ smallRun = some w ∧
    w.spaces.length = 2 ∧ ∀ as ∈ w.spaces, ∀ c ∈ [(mapPrivate ||| mapAnonymous, none),
      (mapPrivate, some (⟨.regular, some tinyVnode, 0⟩ : File))], ∃ as' m',
      addressSpaceMmap as 0 16384 protRead c.1 c.2 0 w.machine = (.ok 0x10003000, as', m') ∧
      MmapLaw as as' w.machine m' 0 16384 protRead c.1 c.2 0 (.ok 0x10003000) := by
  have hfacts : (runSteps (step 4096) ⟨smallMachine, []⟩ smallRun).map (fun w =>
      (w.spaces.length, w.spaces.all fun as => [(mapPrivate ||| mapAnonymous, none),
        (mapPrivate, some (⟨.regular, some tinyVnode, 0⟩ : File))].all fun c => as.root ≠ 0 ∧
          (addressSpaceMmap as 0 16384 protRead c.1 c.2 0 w.machine).1 = .ok 0x10003000)) =
      some (2, true) := by decide +kernel
  obtain ⟨w, hrun, heq⟩ := Option.map_eq_some_iff.mp hfacts
  obtain ⟨hlen, hall⟩ := Prod.mk.inj heq
  refine ⟨w, hrun, hlen, fun as has c hc => ?_⟩
  obtain ⟨hroot, hres⟩ :=
    of_decide_eq_true (List.all_eq_true.mp (List.all_eq_true.mp hall as has) c hc)
  have hkept : ∀ f, c.2 = some f → f.Kept ((Radix.bare 4096 512).frames + 0) := by
    intro f hf
    rcases List.mem_pair.mp hc with rfl | rfl <;> cases hf
    refine ⟨fun n _ _ => rfl, fun n hn hno => ?_⟩
    cases hn
    cases hno
  rcases hmmap : addressSpaceMmap as 0 16384 protRead c.1 c.2 0 w.machine with ⟨res, as', m'⟩
  rw [hmmap] at hres
  cases hres
  exact ⟨as', m', rfl, smallMachine_boot.mmapLaw
    (Reach.of_runSteps hrun (by simp [smallRun, Op.raw])) has hroot hkept hmmap⟩

/-- **`munmap`**: in every world reached through the reservations, the calls on a
struct keep their laws. -/
theorem Boot.munmapLaws (hb : Boot kernelRoot kernel held m₀)
    (hr : Reach (step kernelRoot) (fun _ op => op.raw = false) ⟨m₀, []⟩ w) (has : as ∈ w.spaces) :
    MunmapLaws as w.machine := by
  obtain ⟨P, shared, t, rest, objs, h, hres, hk⟩ := hb.space hr has
  exact h.lawful_munmaps hres.agrees hk

/-- The mappings of the small run can be cut in the middle. -/
theorem smallRun_munmapLaws : ∃ w, runSteps (step 4096) ⟨smallMachine, []⟩ smallRun = some w ∧
    w.spaces.length = 2 ∧ ∀ as ∈ w.spaces,
      (addressSpaceMunmap as 0x10001000 1 w.machine).1 = .ok 0 ∧ MunmapLaws as w.machine := by
  have hfacts : (runSteps (step 4096) ⟨smallMachine, []⟩ smallRun).map (fun w =>
      (w.spaces.length, w.spaces.all fun as => (addressSpaceMunmap as 0x10001000 1 w.machine).1 =
      .ok 0)) =
        some (2, true) := by
    decide +kernel
  obtain ⟨w, hrun, heq⟩ := Option.map_eq_some_iff.mp hfacts
  obtain ⟨hlen, hall⟩ := Prod.mk.inj heq
  refine ⟨w, hrun, hlen, fun as has => ⟨of_decide_eq_true (List.all_eq_true.mp hall as has), ?_⟩⟩
  exact smallMachine_boot.munmapLaws (Reach.of_runSteps hrun (by simp [smallRun, Op.raw])) has

end

end MiniCore
