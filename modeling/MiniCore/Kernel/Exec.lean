import MiniCore.Fs.Initramfs
import MiniCore.Kernel.ElfExact
import MiniCore.Kernel.Task

/-!
# MiniCore.Kernel.Exec

`process_exec` (`src/kernel/process.c`) with `elf_load` from the path on
(`src/kernel/elf.c`): opening the executable, loading it, and the exchange of the
address spaces.
-/

namespace MiniCore

open Lib

/-! ## The call -/

/-- `elf_load` with its `vfs_openat` and `file_put`. -/
def elfLoadPath (kernelRoot : Nat) (p : Task) (path : List UInt8) (arguments : ExecArguments)
    (s : FileSys) :
    Bool × ExecImage × FileSys :=
  match s.vfsOpenat p.root p.cwd path oRdonly with
  | (.error _, s) => (false, ExecImage.zero, s)
  | (.ok f, s) =>
    let (ok, image, m) := elfLoad kernelRoot (some (s.asFile f)) arguments s.machine
    (ok, image, FileSys.filePut { s with machine := m } f)

/-- The registers after a successful `process_exec`: where the program starts,
its stack, and the active table. -/
structure ExecFrame where
  sepc : Nat
  sp : Nat
  satp : Nat
deriving DecidableEq, Repr

/-- `process_exec`; the source returns -2, the code of `E_NOENT`. -/
def processExec (kernelRoot : Nat) (path : List UInt8) (arguments : ExecArguments) (p : Task)
    (s : FileSys) : Except Errno ExecFrame × Task × FileSys :=
  match elfLoadPath kernelRoot p path arguments s with
  | (false, _, s) => (.error .noent, p, s)
  | (true, image, s) =>
    let old := (addressSpaceMove p.space).1
    let as := (addressSpaceMove image.as).1
    let (_, m) := addressSpaceDestroy old s.machine
    (.ok ⟨image.entry, image.stackPointer, as.root⟩, { p with space := as },
      { s with machine := m })

/-! ## Loading leaves the file system alone -/

section

variable {P : PagePool} {rest objs : Multiset Nat} {shared : Nat → Nat} {t : Radix} {p p' : Task}
  {s s' s₁ : FileSys} {kernelRoot f n : Nat} {path : List UInt8} {arguments : ExecArguments}

/-- The last `file_put` of a file that is not a pipe's. -/
theorem FileSys.filePut_last (hops : (s.file f).ops ≠ .pipe) (href : (s.file f).references = 1) :
    s.filePut f = { s with
      file := Function.update s.file f { s.file f with references := 0 }
      liveFiles := s.liveFiles - 1
      machine := kfree f s.machine
      files := s.files.erase f } := by
  simp [FileSys.filePut, FileSys.setFile, hops, href]

/-- A file that is opened for reading and put again leaves no trace. -/
theorem FileSys.Opened.same_filePut (ho : Opened P rest objs oRdonly s f n s₁) {m : Machine}
    (hk : Keeps (s.vfs.blockBag + rest) s₁.machine (kfree f m)) :
    s.Same (FileSys.filePut { s₁ with machine := m } f) ∧
      (FileSys.filePut { s₁ with machine := m } f).vfs = s.vfs ∧
      (FileSys.filePut { s₁ with machine := m } f).machine = kfree f m := by
  obtain ⟨hvfs, hquiet⟩ := ho.quiet (by decide) (by decide)
  obtain ⟨ops, hops, heq⟩ := ho.eq
  have hout := ho.fresh.2
  have hput :=
    FileSys.filePut_last (s := { s₁ with machine := m }) (f := f) (by rw [heq]; simpa using hops)
    (by rw [heq]; simp)
  have herase : (s.files ++ [f]).erase f = s.files := by
    rw [List.erase_append_right _ hout, List.erase_cons_head, List.append_nil]
  rw [hput]
  refine ⟨⟨?_, fun q hq => ?_, ?_, fun g hg => ?_, ?_, fun q _ => ?_, ?_, ?_, ?_⟩, hvfs, rfl⟩
  · rw [hvfs]
    exact .refl _
  · have hin : q ∈ s.vfs.blockBag + rest := Multiset.mem_add.mpr (.inl hq)
    exact (hk.bytes q hin).trans (hquiet.bytes q hin)
  · rw [heq]
    exact herase
  · rw [heq]
    show Function.update (Function.update s.file f _) f _ g = s.file g
    rw [Function.update_idem, Function.update_of_ne (ne_of_mem_of_not_mem hg hout)]
  · rw [heq]
  · rw [heq]
  · rw [heq]
    exact Nat.add_sub_cancel _ _
  · rw [heq]
  · rw [heq]

/-- What `elf_load` leaves: the file system as it was, and a sound image beside
it if it succeeds. -/
theorem elfLoadPath_spec (h : p.Ok P rest objs shared t s) (hk : kernelRoot ∈ rest) {ok : Bool}
    {image : ExecImage} (hrun : elfLoadPath kernelRoot p path arguments s = (ok, image, s')) :
    (ok = false ∧ FileSys.Restored P (share (p.space, t) + rest) (p.space.records + objs) s s') ∨
    (ok = true ∧ s.Same s' ∧ s'.vfs = s.vfs ∧ Reserved image.as ∧
      Keeps (s.vfs.blockBag + (share (p.space, t) + rest)) s.machine s'.machine ∧
      ∃ f s₁ m, s.vfsOpenat p.root p.cwd path oRdonly = (.ok f, s₁) ∧
        elfLoad kernelRoot (some (s₁.asFile f)) arguments s₁.machine = (true, image, m) ∧
      ∃ t', SpaceOk s'.machine.mem (fun i => entry s₁.machine.mem kernelRoot i) (image.as, t') ∧
        SpaceKept image.as m s'.machine ∧
        VfsOk P (share (image.as, t') + (share (p.space, t) + rest))
          (s.records + (image.as.records + (p.space.records + objs))) s.vfs s'.machine) := by
  unfold elfLoadPath at hrun
  rcases hopen : s.vfsOpenat p.root p.cwd path oRdonly with ⟨r, s₁⟩
  rw [hopen] at hrun
  rcases h.files.vfsOpenat h.root h.cwd hopen with ⟨e, rfl, hr⟩ | ⟨f, n, rfl, ho⟩
  · cases hrun
    exact .inl ⟨rfl, hr⟩
  obtain ⟨hvfs, hquiet⟩ := ho.quiet (by decide) (by decide)
  have hok1 := ho.vfs
  rw [hvfs] at hok1
  rcases hload : elfLoad kernelRoot (some (s₁.asFile f)) arguments s₁.machine with ⟨b, image', m⟩
  simp only [hload] at hrun
  cases hrun
  have hkernel : kernelRoot ∈ s.vfs.blockBag + (share (p.space, t) + rest) := by
    simp [Multiset.mem_add, hk]
  obtain ⟨hkeep, ⟨rfl, hst, hlive⟩ | ⟨rfl, -, hres, t', hown⟩⟩ :=
    elfLoad_spec hok1.stock hok1.live hkernel hload
  · -- the load fails: the record of the file goes back
    have hok2 : VfsOk P (share (p.space, t) + rest)
      (f ::ₘ (s.records + (p.space.records + objs))) s.vfs m :=
      ⟨⟨hst, hlive⟩, hok1.closed⟩
    obtain ⟨hok3, hk3⟩ := hok2.kfree
    obtain ⟨hsame, hvfs', hm⟩ := ho.same_filePut (hkeep.trans hk3)
    refine .inl ⟨rfl, hsame, ?_, ?_⟩
    · rw [hvfs', hm]
      exact hok3
    · rw [hm]
      exact hquiet.trans (hkeep.trans hk3)
  -- the load succeeds: the image is set apart before the record goes back
  have hok2 : VfsOk P (share (image.as, t') + (share (p.space, t) + rest))
      (f ::ₘ (s.records + (image.as.records + (p.space.records + objs)))) s.vfs m := by
    refine ⟨⟨?_, ?_⟩, hok1.closed⟩
    · rw [add_left_comm]
      exact hown.stocked
    · rw [hown.live, ← Multiset.singleton_add, ← Multiset.singleton_add]
      abel
  obtain ⟨hok3, hk3⟩ := hok2.kfree
  have hk3' : Keeps (s.vfs.blockBag + (share (p.space, t) + rest)) m (kfree f m) :=
    hk3.mono (add_le_add le_rfl (Multiset.le_add_left _ _))
  obtain ⟨hsame, hvfs', hm⟩ := ho.same_filePut (hkeep.trans hk3')
  have hspace : SpaceOk m.mem _ (image.as, t') := hown.spaceOk hres.laid
  have hle : share (image.as, t') ≤
      s.vfs.blockBag + (share (image.as, t') + (share (p.space, t) + rest)) :=
    (Multiset.le_add_right _ _).trans (Multiset.le_add_left _ _)
  have hspace' : SpaceOk (kfree f m).mem _ (image.as, t') := hspace.keep hk3 hle
  refine .inr ⟨rfl, hsame, hvfs', hres, ?_, f, s₁, m, rfl, hload, t', ?_, ?_, ?_⟩
  · rw [hm]
    exact hquiet.trans (hkeep.trans hk3')
  · rw [hm]
    exact hspace'
  · rw [hm]
    have hst : Stocked P (kfree f m)
        (share (image.as, t') + (s.vfs.blockBag + (share (p.space, t) + rest))) := by
      rw [add_left_comm]
      exact hok3.stock
    have hlive : liveBag (kfree f m).slabs = image.as.records +
        ((s.vfs.nodes : Multiset Nat) + (s.records + (p.space.records + objs))) := by
      rw [hok3.live]
      abel
    exact hown.kept (hspace'.owned hst hlive) hk3 hle
  · rw [hm]
    exact hok3

/-! ## Exec is a transaction -/

/-- What a failed `process_exec` leaves. -/
structure ExecFailed (p p' : Task) (s s' : FileSys) : Prop where
  task : p' = p
  files : s.Same s'
  space : SpaceKept p.space s.machine s'.machine
  free : ∀ q, q ∈ s'.machine.freeList ↔ q ∈ s.machine.freeList

/-- What a successful `process_exec` leaves: the image that `elf_load` made, in
place of the old address space. -/
structure ExecDone (kernelRoot : Nat) (path : List UInt8) (arguments : ExecArguments)
    (r : ExecFrame) (p p' : Task) (s s' : FileSys) : Prop where
  image : ∃ f s₁ image m, s.vfsOpenat p.root p.cwd path oRdonly = (.ok f, s₁) ∧
    elfLoad kernelRoot (some (s₁.asFile f)) arguments s₁.machine = (true, image, m) ∧
    p' = { p with space := image.as } ∧ r = ⟨image.entry, image.stackPointer, image.as.root⟩ ∧
    SpaceKept image.as m s'.machine
  files : s.Same s'
  /-- The old tables and pages are free, and none of them is in the new space. -/
  freed : ∀ q ∈ tablePages s.machine.mem p.space.root 256 ++ p.space.pages.map UserPage.physical,
    q ∈ s'.machine.freeList
  held : ∀ q ∈ tablePages s'.machine.mem p'.space.root 256 ++ p'.space.pages.map UserPage.physical,
    q ∉ s'.machine.freeList

/-- **`process_exec` is a transaction**: whatever fails, it changes nothing, or it
commits the complete image.  The process is sound again either way. -/
theorem exec_transactional (h : p.Ok P rest objs shared t s) (hk : kernelRoot ∈ rest)
    {r : Except Errno ExecFrame}
    (hrun : processExec kernelRoot path arguments p s = (r, p', s')) :
    (∃ shared' t', p'.Ok P rest objs shared' t' s') ∧
      ((r = .error .noent ∧ ExecFailed p p' s s') ∨
        ∃ frame, r = .ok frame ∧ ExecDone kernelRoot path arguments frame p p' s s') := by
  unfold processExec at hrun
  rcases hpath : elfLoadPath kernelRoot p path arguments s with ⟨ok, image, s2⟩
  rw [hpath] at hrun
  rcases elfLoadPath_spec h hk hpath with
    ⟨rfl, hr⟩ | ⟨rfl, hsame, hvfs, hres, hkeep, f, s₁, m, hopen, hload, t', hspace, hkept, hok⟩
  · cases hrun
    have hspace : SpaceOk s'.machine.mem shared (p.space, t) :=
      h.space.keep hr.keeps ((Multiset.le_add_right _ _).trans (Multiset.le_add_left _ _))
    have hp : p.Ok P rest objs shared t s' :=
      ⟨hr.ok h.files, hspace, hr.same.vfs.nodes ▸ h.root, hr.same.vfs.nodes ▸ h.cwd,
        hr.same.files ▸ h.fds⟩
    refine ⟨⟨shared, t, hp⟩, .inl ⟨rfl, rfl, hr.same, ?_, hr.free h.files⟩⟩
    exact h.owned.kept hp.owned hr.keeps
      ((Multiset.le_add_right _ _).trans (Multiset.le_add_left _ _))
  -- the old space, with the image among the rest
  have hold : SpaceOk s2.machine.mem shared (p.space, t) :=
    h.space.keep hkeep ((Multiset.le_add_right _ _).trans (Multiset.le_add_left _ _))
  have hst2 : Stocked P s2.machine
      (share (p.space, t) + (s.vfs.blockBag + (share (image.as, t') + rest))) := by
    have hst := hok.stock
    rwa [add_left_comm (share (image.as, t')), add_left_comm s.vfs.blockBag] at hst
  have hlive2 : liveBag s2.machine.slabs = p.space.records +
      ((s.vfs.nodes : Multiset Nat) + (s.records + (image.as.records + objs))) := by
    rw [hok.live]
    abel
  rcases hdestroy : addressSpaceDestroy p.space s2.machine with ⟨dead, m4⟩
  obtain ⟨-, -, -, hst, hlive, hk4⟩ :=
    addressSpaceDestroy_spec (hold.owned hst2 hlive2) hdestroy
  simp only [addressSpaceMove, hdestroy] at hrun
  cases hrun
  have hle : share (image.as, t') ≤ s.vfs.blockBag + (share (image.as, t') + rest) :=
    (Multiset.le_add_right _ _).trans (Multiset.le_add_left _ _)
  have hspace' := hspace.keep hk4 hle
  have hsame' := hsame.of_machine hk4
  have hok' : FileSys.Ok P (share (image.as, t') + rest) (image.as.records + objs)
      { s2 with machine := m4 } := by
    refine h.files.of_same hsame' ?_
    show VfsOk P _ _ s2.vfs m4
    rw [hvfs]
    exact ⟨⟨hst, hlive⟩, hok.closed⟩
  have hp' : Task.Ok P rest objs _ t' { p with space := image.as } { s2 with machine := m4 } :=
    ⟨hok', hspace', hsame.vfs.nodes ▸ h.root, hsame.vfs.nodes ▸ h.cwd, hsame.files ▸ h.fds⟩
  have hst3 : Stocked P s2.machine
      (share (image.as, t') + (s.vfs.blockBag + (share (p.space, t) + rest))) := by
    rw [add_left_comm]
    exact hok.stock
  have hlive3 : liveBag s2.machine.slabs = image.as.records +
      ((s.vfs.nodes : Multiset Nat) + (s.records + (p.space.records + objs))) := by
    rw [hok.live]
    abel
  have hfewer : liveBag m4.slabs ≤ liveBag s2.machine.slabs := by
    rw [hlive2, hlive]
    exact Multiset.le_add_left _ _
  refine ⟨⟨_, t', hp'⟩, .inr ⟨_, rfl, ⟨f, s₁, image, m, hopen, hload, rfl, rfl, hkept.trans ?_⟩,
    hsame', fun q hq => ?_, fun q hq => ?_⟩⟩
  · exact (hspace.owned hst3 hlive3).kept hp'.owned hk4 hle
  · exact hst2.mem_freeList_of_given hst hfewer (h.owned.mem_share.mpr hq)
  · exact hst.not_free (Multiset.mem_of_le hle (hp'.owned.mem_share.mpr hq))

end

/-! ## The first program -/

/-- A file system with one program, and the process that is to run it. -/
def bootFiles : FileSys :=
  (FileSys.init { bareFileSys with machine := smallMachine }
    (some (mkinitramfs [⟨bytesOf "init", tinyProgram, 0o100755⟩]))).2

def firstTask : Task where
  space := (addressSpaceInit 4096 bootFiles.machine).2.1
  fds := Vector.replicate fdCount none
  root := bootFiles.vfs.root
  cwd := bootFiles.vfs.root
  pid := 1
  parent := none
  children := []
  state := .running

def firstFiles : FileSys :=
  { bootFiles with machine := (addressSpaceInit 4096 bootFiles.machine).2.2 }

/-- The process and its file system are sound. -/
theorem firstTask_ok : ∃ P rest objs shared t, 4096 ∈ rest ∧
    firstTask.Ok P rest objs shared t firstFiles := by
  obtain ⟨P, rest, hst, hkernel⟩ := smallMachine_boot.stocked
  have hinit : (FileSys.init { bareFileSys with machine := smallMachine }
      (some (mkinitramfs [⟨bytesOf "init", tinyProgram, 0o100755⟩]))).1 = true := by decide +kernel
  have hspace : (addressSpaceInit 4096 bootFiles.machine).1 = true := by decide +kernel
  have hpair : ∀ {α : Type} (x : Bool × α), x.1 = true → x = (true, x.2) := by
    rintro α ⟨b, a⟩ rfl
    rfl
  obtain ⟨hok, -, -, htree⟩ :=
    FileSys.init_spec ⟨rfl, fun _ => rfl, fun _ => rfl⟩ rfl rfl hst (hpair _ hinit)
  have hroot := htree.root
  have hfiles : (FileSys.init { bareFileSys with machine := smallMachine }
      (some (mkinitramfs [⟨bytesOf "init", tinyProgram, 0o100755⟩]))).2 = bootFiles := rfl
  rw [hfiles] at hok hroot
  have hfds : ∀ f, some f ∉ firstTask.fds.toList := by
    intro f
    rw [firstTask, Vector.toList_replicate, List.mem_replicate]
    simp
  have hroot' : firstTask.root ∈ bootFiles.vfs.nodes := by
    simp only [firstTask]
    exact hroot
  have hcwd' : firstTask.cwd ∈ bootFiles.vfs.nodes := by
    simp only [firstTask]
    exact hroot
  have hrun : addressSpaceInit 4096 bootFiles.machine =
      (true, firstTask.space, (addressSpaceInit 4096 bootFiles.machine).2.2) := by
    simp only [firstTask]
    rw [← hspace]
  obtain ⟨shared, t, htask⟩ := Task.Ok.create hok hkernel hroot' hcwd' hfds hrun
  exact ⟨P, rest, _, shared, t, hkernel, htask⟩

theorem exec_first_program : ∃ p' s',
    processExec 4096 (bytesOf "/init") tinyArguments firstTask firstFiles =
      (.ok ⟨65656, 4194256, 24576⟩, p', s') ∧
    ExecDone 4096 (bytesOf "/init") tinyArguments ⟨65656, 4194256, 24576⟩ firstTask p'
      firstFiles s' := by
  obtain ⟨P, rest, objs, shared, t, hkernel, htask⟩ := firstTask_ok
  have hresult : (processExec 4096 (bytesOf "/init") tinyArguments firstTask firstFiles).1 =
      .ok ⟨65656, 4194256, 24576⟩ := by decide +kernel
  rcases hrun : processExec 4096 (bytesOf "/init") tinyArguments firstTask firstFiles with
    ⟨r, p', s'⟩
  rw [hrun] at hresult
  dsimp only at hresult
  subst hresult
  obtain ⟨-, ⟨hr, -⟩ | ⟨frame, hr, hdone⟩⟩ := exec_transactional htask hkernel hrun
  · cases hr
  · cases hr
    exact ⟨p', s', rfl, hdone⟩

end MiniCore
