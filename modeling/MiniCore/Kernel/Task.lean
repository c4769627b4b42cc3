import MiniCore.Fs.VfsRuns
import MiniCore.Kernel.Agreement
import MiniCore.Kernel.Process

/-!
# MiniCore.Kernel.Task

A process with all it owns (`struct process`), beside the file system.

`Task.Ok` says that its address space and the file system are sound together:
the pages and heap records of the one are among what the other leaves alone.
-/

namespace MiniCore

open Lib

variable {P : PagePool} {rest objs : Multiset Nat} {shared : Nat → Nat} {t : Radix}

/-- `struct process` -/
structure Task where
  space : AddressSpace
  fds : Vector (Option Nat) fdCount
  root : Nat
  cwd : Nat
  pid : Nat
  parent : Option Nat
  children : List Nat
  state : ProcessState

/-- A sound process with the table `t`, whose upper half is `shared`, in a sound
file system; `rest` and `objs` are the pages and records of everybody else. -/
structure Task.Ok (P : PagePool) (rest objs : Multiset Nat) (shared : Nat → Nat)
    (t : Radix) (p : Task) (s : FileSys) : Prop where
  files : s.Ok P (share (p.space, t) + rest) (p.space.records + objs)
  space : SpaceOk s.machine.mem shared (p.space, t)
  root : p.root ∈ s.vfs.nodes
  cwd : p.cwd ∈ s.vfs.nodes
  fds : ∀ f, some f ∈ p.fds.toList → f ∈ s.files

section

variable {rest' objs' : Multiset Nat} {as : AddressSpace} {m m' : Machine}

/-- A sound struct whose pages and records are set apart. -/
theorem SpaceOk.owned (h : SpaceOk m.mem shared (as, t)) (hst : Stocked P m (share (as, t) + rest))
    (hlive : liveBag m.slabs = as.records + objs) : Owned P m as t shared rest objs := by
  refine ⟨⟨?_, h.rep⟩, h.root_eq, h.width, h.tight, h.leaves, h.page_ok, hlive⟩
  rw [← add_assoc]
  exact hst

variable (h : Owned P m as t shared rest objs)

include h

theorem Owned.stocked : Stocked P m (share (as, t) + rest) := by
  have hst := h.tabled.stock
  rw [← add_assoc] at hst
  exact hst

/-- The translations and the pages of an address space are the same. -/
structure SpaceKept (as : AddressSpace) (m m' : Machine) : Prop where
  query : ∀ a < 2 ^ 38, vmQuery as.root a m' = vmQuery as.root a m
  bytes : ∀ p ∈ as.pages, Set.EqOn m'.mem m.mem (pageBytes p.physical)

omit h in
theorem SpaceKept.trans {m'' : Machine} (h : SpaceKept as m m') (h' : SpaceKept as m' m'') :
    SpaceKept as m m'' :=
  ⟨fun a ha => (h'.query a ha).trans (h.query a ha), fun p hp => (h'.bytes p hp).trans
    (h.bytes p hp)⟩

/-- A step that keeps the pages of an address space. -/
theorem Owned.kept (h' : Owned P m' as t shared rest' objs')
    {held : Multiset Nat} (hk : Keeps held m m') (hle : share (as, t) ≤ held) :
    SpaceKept as m m' := by
  refine ⟨fun a ha => h.vmQuery_congr h' ha, fun p hp => ?_⟩
  have hmem : p.physical ∈ share (as, t) :=
    Multiset.mem_add.mpr (.inr (Multiset.mem_coe.mpr (List.mem_map_of_mem hp)))
  exact hk.bytes _ (Multiset.mem_of_le hle hmem)

/-- The pages of a sound struct: its tables and its user pages. -/
theorem Owned.mem_share {q : Nat} :
    q ∈ share (as, t) ↔ q ∈ tablePages m.mem as.root 256 ++ as.pages.map UserPage.physical := by
  have htables := h.tabled.rep.tablePages_eq fun p hp => h.tabled.isPage hp
  rw [h.root_eq, h.width] at htables
  rw [share, Multiset.mem_add, ← htables, Multiset.mem_coe, AddressSpace.physicals,
    Multiset.mem_coe, List.mem_append]

end

namespace Task

variable {p : Task} {s s' : FileSys}

/-- The address space of a process, with the file system among the rest. -/
theorem Ok.owned (h : p.Ok P rest objs shared t s) :
    Owned P s.machine p.space t shared (s.vfs.blockBag + rest)
      ((s.vfs.nodes : Multiset Nat) + s.records + objs) := by
  refine h.space.owned ?_ ?_
  · rw [add_left_comm]
    exact h.files.vfs.stock
  · rw [h.files.vfs.live]
    abel

/-- **A call on its address space keeps a process sound.** -/
theorem Ok.spaceCall (h : p.Ok P rest objs shared t s)
    {call : AddressSpace → Machine → AddressSpace × Machine} (hcall : Preserves False call) :
    ∃ t', Task.Ok P rest objs shared t' { p with space := (call p.space s.machine).1 }
      { s with machine := (call p.space s.machine).2 } := by
  obtain ⟨t', hown, -, hlaid, -⟩ := hcall h.owned h.space.laid (fun hf => hf.elim)
  have hst := hown.stocked
  rw [add_left_comm] at hst
  refine ⟨t', ⟨⟨⟨hst, ?_⟩, h.files.vfs.closed⟩, h.files.references, h.files.node⟩,
    hown.spaceOk hlaid, h.root, h.cwd, h.fds⟩
  show liveBag (call p.space s.machine).2.slabs =
    (s.vfs.nodes : Multiset Nat) + (s.records + ((call p.space s.machine).1.records + objs))
  rw [hown.live]
  abel

/-- A process with an empty address space and no files, as `process_create` makes
it. -/
theorem Ok.create (h : s.Ok P rest objs) {kernelRoot : Nat} (hk : kernelRoot ∈ rest)
    (hroot : p.root ∈ s.vfs.nodes) (hcwd : p.cwd ∈ s.vfs.nodes) (hfds : ∀ f, some f ∉ p.fds.toList)
    {m : Machine} (hrun : addressSpaceInit kernelRoot s.machine = (true, p.space, m)) :
    ∃ shared t, p.Ok P rest objs shared t { s with machine := m } := by
  have hkernel : kernelRoot ∈ s.vfs.blockBag + rest := Multiset.mem_add.mpr (.inr hk)
  obtain ⟨hkeep, heq, -, -, t, hown⟩ := addressSpaceInit_spec h.vfs.stock h.vfs.live hkernel hrun
  have hst := hown.stocked
  rw [add_left_comm] at hst
  have hlive : liveBag m.slabs = (s.vfs.nodes : Multiset Nat) +
      (s.records + (p.space.records + objs)) := by
    rw [hown.live]
    abel
  have hok : FileSys.Ok P (share (p.space, t) + rest) (p.space.records + objs)
    { s with machine := m } :=
    ⟨⟨⟨hst, hlive⟩, h.vfs.closed⟩, h.references, h.node⟩
  exact ⟨_, t, hok, hown.spaceOk (Reserved.fresh heq).laid, hroot, hcwd,
    fun f hf => absurd hf (hfds f)⟩

/-- A process that has mapped its first pages, with files that are open. -/
theorem Ok.createMapped (h : s.Ok P rest objs) {kernelRoot : Nat} (hk : kernelRoot ∈ rest)
    (hroot : p.root ∈ s.vfs.nodes) (hcwd : p.cwd ∈ s.vfs.nodes)
    (hfds : ∀ f, some f ∈ p.fds.toList → f ∈ s.files) {as : AddressSpace} {m : Machine}
    (hinit : addressSpaceInit kernelRoot s.machine = (true, as, m)) {length prot mapflags : Nat}
    (hspace : p.space = (addressSpaceMmap as 0 length prot mapflags none 0 m).2.1) :
    ∃ shared t, p.Ok P rest objs shared t
      { s with machine := (addressSpaceMmap as 0 length prot mapflags none 0 m).2.2 } := by
  have hnone : ∀ f, some f ∉ (Vector.replicate fdCount (none : Option Nat)).toList := by
    intro f
    rw [Vector.toList_replicate, List.mem_replicate]
    simp
  obtain ⟨shared, t, htask⟩ :=
    Ok.create (p := { p with space := as, fds := Vector.replicate fdCount none })
    h hk hroot hcwd hnone hinit
  obtain ⟨t', htask'⟩ := htask.spaceCall (preserves_mmap 0 length prot mapflags none 0)
  refine ⟨shared, t', ?_, ?_, hroot, hcwd, hfds⟩
  · rw [hspace]
    exact htask'.files
  · rw [hspace]
    exact htask'.space

end Task

end MiniCore
