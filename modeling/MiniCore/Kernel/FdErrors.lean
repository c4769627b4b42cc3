import MiniCore.Kernel.FdCalls

/-!
# MiniCore.Kernel.FdErrors

What a failed file system call leaves behind.

Most errors are found before anything is changed; `vfs_openat` and `pipe_create`
undo what they did.  The exception is a write to a file that was opened with
`O_APPEND`: it moves the offset to the end of the file before it finds that the
file is full, or that there is no page for it.
-/

namespace MiniCore

open Lib Multiset Function

variable {e : Errno} {rest objs : Multiset Nat} {P : PagePool} {s s' : FileSys} {f size : Nat}

/-! ## Sleepers -/

section Sleeping

variable {α : Type} {call : FileSys → Option (α × FileSys)}

/-- A call that returns does so in a state that the others brought about. -/
theorem awake_spec : ∀ {others left : Others} {s s' : FileSys} {a : α},
    awake call others s = some (a, s', left) →
      ∃ used : Others, others = used ++ left ∧ call (used.after s) = some (a, s') := by
  intro others
  induction others with
  | nil =>
    intro left s s' a h
    obtain ⟨⟨b, s1⟩, hcall, heq⟩ := Option.map_eq_some_iff.mp h
    cases heq
    exact ⟨[], rfl, hcall⟩
  | cons move others ih =>
    intro left s s' a h
    rw [awake] at h
    cases hcall : call s with
    | some r =>
      simp only [hcall] at h
      cases h
      exact ⟨[], rfl, hcall⟩
    | none =>
      simp only [hcall] at h
      obtain ⟨used, rfl, hused⟩ := ih h
      exact ⟨move :: used, rfl, hused⟩

end Sleeping

/-! ## Failed reads and writes -/

section

variable {w w' : Writing}

/-- The loop never fails once it has written something. -/
theorem writeLoop_ok : ∀ (rounds : Nat) {buffer : List UInt8} {done : Nat} {w w' : Writing}
    {r : Except Errno Nat}, 0 < done → writeLoop rounds buffer done w = (r, w') → ∃ n,
      r = .ok n := by
  intro rounds
  induction rounds with
  | zero =>
    rintro buffer done w w' r - h
    cases h
    exact ⟨done, rfl⟩
  | succ rounds ih =>
    intro buffer done w w' r hdone h
    rw [writeLoop] at h
    split at h
    · cases h
      exact ⟨done, rfl⟩
    split at h
    · rw [if_neg (Nat.ne_of_gt hdone)] at h
      cases h
      exact ⟨done, rfl⟩
    · exact ih (Nat.add_pos_left hdone _) h

theorem Writing.part_pos {size : Nat} (h : 0 < size) : 0 < w.part size := by
  have hoff : pageOffset w.offset < pageSize := Nat.mod_lt _ (by decide)
  rw [part]
  omega

/-- No page for the block at the offset. -/
theorem Writing.provide_false (h : Stocked P w.machine rest) (hrun : w.provide = (false, w')) :
    ∃ m, w.machine.Same m ∧ w' = { w with machine := m } := by
  unfold Writing.provide at hrun
  split at hrun
  · cases hrun
  have hspec := pageAlloc_spec h
  split at hrun
  · next m heq =>
    cases hrun
    rw [heq] at hspec
    exact ⟨m, hspec.elim (fun hfail => hfail.2) fun hgot => absurd rfl hgot.1.ne_zero, rfl⟩
  · cases hrun

/-- A loop that fails has not found a page for the first byte. -/
theorem writeLoop_error (hst : Stocked P w.machine rest) {rounds : Nat} {buffer : List UInt8}
    (h : writeLoop rounds buffer 0 w = (.error e, w')) :
    ∃ m, w.machine.Same m ∧ w' = { w with machine := m } := by
  cases rounds with
  | zero => cases h
  | succ rounds =>
    rw [writeLoop] at h
    split at h
    · cases h
    next hne =>
    split at h
    · next w1 hprovide =>
      cases h
      exact Writing.provide_false hst hprovide
    next w1 hprovide =>
    have hpos : 0 < buffer.length := List.length_pos_iff.mpr fun hb => hne (.inl hb)
    obtain ⟨n, hn⟩ := writeLoop_ok rounds (Nat.add_pos_right 0 (Writing.part_pos hpos)) h
    cases hn

/-- A write that fails has moved the offset of an appending file to its end,
unless it found that nothing can be written to the file at all. -/
theorem regularWrite_error (hst : Stocked P w.machine rest) {readonly append : Bool}
    {buffer : List UInt8} (h : regularWrite readonly append buffer w = (.error e, w')) :
    ∃ m, w.machine.Same m ∧ w' = { w with
      machine := m
      offset := if append ∧ readonly = false ∧ w.node.type ≠ .dir then w.node.size
      else w.offset } := by
  have hrefl : w.machine.Same w.machine := ⟨rfl, rfl, rfl, rfl⟩
  unfold regularWrite at h
  split at h
  · next hro =>
    cases h
    exact ⟨_, hrefl, by simp [hro]⟩
  split at h
  · next hdir =>
    cases h
    exact ⟨_, hrefl, by simp [hdir]⟩
  next hro hdir =>
  have hstart : (if append then { w with offset := w.node.size } else w) = { w with
      offset := if append ∧ readonly = false ∧ w.node.type ≠ .dir then w.node.size
      else w.offset } := by
    cases append <;> simp [hro, hdir]
  rw [hstart] at h
  generalize (if append ∧ readonly = false ∧ w.node.type ≠ .dir then w.node.size else w.offset) =
    offset
    at h ⊢
  dsimp only at h
  split at h
  · cases (Prod.mk.inj h).2
    exact ⟨_, hrefl, rfl⟩
  · exact writeLoop_error (w := { w with offset := offset }) hst h

end

/-- A write to the file that fails moves its offset. -/
def FileSys.Moves (s : FileSys) (f : Nat) : Prop :=
  (s.file f).ops = .regular ∧ (s.file f).flags &&& oAccmode ≠ 0 ∧ (s.file f).flags &&& oAppend ≠ 0 ∧
    (s.vfs.mountOf (s.file f).node).readonly = false ∧ (s.nodeOf f).type ≠ .dir ∧
    (s.file f).offset ≠ (s.nodeOf f).size

/-- What a failed transfer leaves: the offset at the end of the file, if it
`moves`, and otherwise all as it was, or as the others made it. -/
inductive FailedTransfer (moves : Prop) (f : Nat) (s : FileSys) (others : Others) :
    FileSys → Others → Prop
  | moved {m : Machine} (hm : moves) (hsame : s.machine.Same m) : FailedTransfer moves f s others
      { s.setFile f { s.file f with offset := (s.nodeOf f).size } with machine := m } others
  | still {m : Machine} (hm : ¬moves) (hsame : s.machine.Same m) :
      FailedTransfer moves f s others { s with machine := m } others
  | slept {used left : Others} (hm : ¬moves) (hothers : others = used ++ left) :
      FailedTransfer moves f s others (used.after s) left

section Files

variable {buffer : List UInt8} {others left : Others}

namespace FileSys

theorem pipeWrite_error (h : s.pipeWrite f buffer = some (.error e, s')) : s' = s := by
  unfold pipeWrite at h
  dsimp only at h
  split at h
  · cases h
  split at h
  · cases h
  split at h
  · cases h
    rfl
  · cases h

theorem written_offset {m : Machine} {offset : Nat} :
    s.written f { s.writing f with machine := m, offset := offset } =
      { s.setFile f { s.file f with offset := offset } with machine := m } := by
  simp [written, writing, Vfs.setNode, nodeOf, setFile]

theorem fileWrite_error (hst : Stocked P s.machine rest)
    (h : s.fileWrite f buffer = some (.error e, s')) :
    FailedTransfer (s.Moves f) f s others s' others := by
  have hrefl : s.machine.Same s.machine := ⟨rfl, rfl, rfl, rfl⟩
  unfold fileWrite at h
  split at h
  · next hmode =>
    cases h
    exact .still (fun hm => hm.2.1 hmode) hrefl
  split at h
  · cases h
  · next hops =>
    obtain rfl := pipeWrite_error h
    exact .still (fun hm => nomatch hops.symm.trans hm.1) hrefl
  next hmode _ hops =>
  obtain ⟨n, w, hw⟩ : ∃ n w, regularWrite (s.vfs.mountOf (s.file f).node).readonly
    ((s.file f).flags &&& oAppend ≠ 0) buffer (s.writing f) = (n, w) := ⟨_, _, rfl⟩
  rw [hw] at h
  cases h
  obtain ⟨m, hm, rfl⟩ := regularWrite_error hst hw
  rw [written_offset]
  have hsame : s.setFile f { s.file f with offset := (s.writing f).offset } = s := by
    simp [setFile, writing]
  split
  · next hc =>
    by_cases hoffset : (s.file f).offset = (s.nodeOf f).size
    · have hsize : (s.writing f).node.size = (s.writing f).offset := hoffset.symm
      rw [hsize, hsame]
      exact .still (fun hmoves => hmoves.2.2.2.2.2 hoffset) hm
    · exact .moved ⟨hops, hmode, of_decide_eq_true hc.1, hc.2.1, hc.2.2, hoffset⟩ hm
  · next hc =>
    rw [hsame]
    exact .still (fun hmoves => hc ⟨decide_eq_true hmoves.2.2.1, hmoves.2.2.2.1, hmoves.2.2.2.2.1⟩)
      hm

/-- A write that finds no room in a pipe is not to a regular file. -/
theorem ops_of_fileWrite_none (h : s.fileWrite f buffer = none) : (s.file f).ops ≠ .regular := by
  intro hops
  unfold fileWrite at h
  simp only [hops] at h
  split at h <;> cases h

theorem fileRead_error (h : s.fileRead f size = some (.error e, s')) : s' = s := by
  unfold fileRead at h
  split at h
  · cases h
    rfl
  split at h
  · obtain ⟨r, -, hr⟩ := Option.map_eq_some_iff.mp h
    cases hr
  · obtain ⟨r, -, hr⟩ := Option.map_eq_some_iff.mp h
    cases hr
  · split at h
    · cases h
      rfl
    · cases h

/-- A read that sleeps does not fail. -/
theorem readAwake_error (h : s.readAwake f size others = some (.error e, s', left)) :
    left = others ∧ s' = s := by
  unfold readAwake at h
  split at h
  · next heq =>
    cases h
    exact ⟨rfl, fileRead_error heq⟩
  split at h
  · obtain ⟨r, -, hr⟩ := Option.map_eq_some_iff.mp h
    cases hr
  · obtain ⟨r, -, hr⟩ := Option.map_eq_some_iff.mp h
    cases hr

theorem writeAwake_error (hst : Stocked P s.machine rest)
    (h : s.writeAwake f buffer others = some (.error e, s', left)) :
    FailedTransfer (s.Moves f) f s others s' left := by
  unfold writeAwake at h
  split at h
  · next heq =>
    cases h
    exact fileWrite_error hst heq
  · next hnone =>
    obtain ⟨used, hothers, hcall⟩ := awake_spec h
    obtain rfl := pipeWrite_error hcall
    exact .slept (fun hm => ops_of_fileWrite_none hnone hm.1) hothers

theorem moves_fileGet : (s.fileGet f).Moves f ↔ s.Moves f := by
  simp [Moves, fileGet, setFile, nodeOf]

end FileSys

namespace TransferCall

variable {c : TransferCall}

/-- The loop never fails once it has moved something. -/
theorem loop_ok :
    ∀ (rounds : Nat) {done : Nat} {bytes : Nat → UInt8} {others : Others} {s : FileSys}
      {r : Except Errno Nat}, 0 < done → c.loop rounds done bytes others s = some (r, s', left) →
      ∃ n, r = .ok n := by
  intro rounds
  induction rounds with
  | zero =>
    rintro done bytes others s r - h
    cases h
    exact ⟨done, rfl⟩
  | succ rounds ih =>
    intro done bytes others s r hdone h
    rw [loop] at h
    split at h
    · cases h
      exact ⟨done, rfl⟩
    dsimp only at h
    split at h
    · cases h
    · rw [if_neg (Nat.ne_of_gt hdone)] at h
      cases h
      exact ⟨done, rfl⟩
    split at h
    · cases h
      exact ⟨done, rfl⟩
    split at h
    · cases h
      exact ⟨_, rfl⟩
    · exact ih (Nat.add_pos_left hdone _) h

/-- What a failed chunk leaves. -/
theorem chunk_error {done : Nat} {bytes bytes' : Nat → UInt8} (hst : Stocked P s.machine rest)
    (h : c.chunk done size bytes others s = some (.error e, bytes', s', left)) :
    FailedTransfer (c.writing = true ∧ s.Moves c.file) c.file s others s' left := by
  unfold chunk at h
  split at h
  · next hw =>
    obtain ⟨⟨n, s1, others1⟩, hrun, heq⟩ := Option.map_eq_some_iff.mp h
    cases heq
    rw [and_iff_right hw]
    exact FileSys.writeAwake_error hst hrun
  next hw =>
  obtain ⟨⟨r, s1, others1⟩, hrun, heq⟩ := Option.map_eq_some_iff.mp h
  cases r with
  | error e1 =>
    cases heq
    obtain ⟨rfl, rfl⟩ := FileSys.readAwake_error hrun
    exact .slept (fun hm => hw hm.1) (List.nil_append _).symm
  | ok read => cases heq

/-- **The loop of `transfer`** fails with its first chunk only. -/
theorem loop_error {rounds : Nat} {bytes : Nat → UInt8} (hst : Stocked P s.machine rest)
    (h : c.loop rounds 0 bytes others s = some (.error e, s', left)) :
    FailedTransfer (c.writing = true ∧ s.Moves c.file) c.file s others s' left := by
  cases rounds with
  | zero => cases h
  | succ rounds =>
    rw [loop] at h
    split at h
    · cases h
    dsimp only at h
    split at h
    · cases h
    · next hchunk =>
      cases h
      exact chunk_error hst hchunk
    split at h
    · cases h
    next hn =>
    split at h
    · cases h
    · obtain ⟨n, hok⟩ := loop_ok rounds (Nat.add_pos_right 0 (Nat.pos_of_ne_zero hn)) h
      cases hok

end TransferCall

/-! ## The calls -/

namespace FileSys

/-- A reference that is taken and given back. -/
theorem filePut_fileGet (h : 0 < (s.file f).references) : (s.fileGet f).filePut f = s := by
  have hne : ¬(s.file f).references = 0 := Nat.ne_of_gt h
  simp [filePut, fileGet, setFile, hne]

/-- A reference that is not the last one. -/
theorem filePut_shared (h : 1 < (s.file f).references) :
    s.filePut f = s.setFile f { s.file f with references := (s.file f).references - 1 } := by
  have hne : ¬(s.file f).references - 1 = 0 := by omega
  simp [filePut, setFile, hne]

/-- The last reference to the only end of a pipe. -/
theorem filePut_reader {r q : Nat} (href : (s.file r).references = 1)
    (hops : (s.file r).ops = .pipe) (hpipe : (s.file r).pipe = some q)
    (hflags : (s.file r).flags = oRdonly) (hwriter : (s.pipe q).writer = false) :
    s.filePut r = { s with
      machine := kfree r (kfree q s.machine)
      files := s.files.erase r
      file := update s.file r { s.file r with references := 0 }
      pipes := s.pipes.erase q
      pipe := update s.pipe q { s.pipe q with reader := false }
      liveFiles := s.liveFiles - 1 } := by
  simp [filePut, pipeRelease, setFile, setPipe, Pipe.close, href, hops, hpipe, hflags,
    hwriter, oRdonly]

/-- A record that was added last and is taken out again. -/
theorem erase_append_new {l : List Nat} {a : Nat} (h : a ∉ l) : (l ++ [a]).erase a = l := by
  rw [List.erase_append_right _ h, List.erase_cons_head, List.append_nil]

/-- `pipe_create` before it makes the writer: the pipe `q` and its reader `r`. -/
def halfPipe (s : FileSys) (q r : Nat) (m : Machine) : FileSys :=
  { s with
    machine := m
    files := s.files ++ [r]
    file := update s.file r ⟨⟨.pipe, oRdonly, some q, 1⟩, 0, 0⟩
    pipes := s.pipes ++ [q]
    pipe := update s.pipe q { Pipe.fresh with writer := false }
    liveFiles := s.liveFiles + 1 }

section HalfPipe

variable {q r : Nat} {m : Machine}

theorem records_halfPipe : (s.halfPipe q r m).records + objs = r ::ₘ q ::ₘ (s.records + objs) := by
  rw [records, records, halfPipe, ← coe_add, ← coe_add, coe_singleton,
    coe_singleton, ← singleton_add, ← singleton_add]
  abel

theorem Ok.halfPipe (h : s.Ok P rest objs)
    (hvfs : VfsOk P rest (r ::ₘ q ::ₘ (s.records + objs)) s.vfs m) :
    (s.halfPipe q r m).Ok P rest objs := by
  have hnode : ∀ n ∈ s.vfs.nodes, n ∈ s.vfs.nodes := fun _ hn => hn
  have hvfs' := hvfs
  rw [← add_cons] at hvfs'
  have hadd : Ok P rest (q ::ₘ objs) { s with
      machine := m
      files := s.files ++ [r]
      file := update s.file r ⟨⟨.pipe, oRdonly, some q, 1⟩, 0, 0⟩
      liveFiles := s.liveFiles + 1 } := h.addFile hvfs' hnode Nat.one_pos fun hp => absurd rfl hp
  exact ⟨records_halfPipe ▸ hvfs, hadd.references, hadd.node⟩

/-- The reader goes and takes the pipe along. -/
theorem filePut_halfPipe (hq : q ∉ s.pipes) (hr : r ∉ s.files)
    (hvfs : VfsOk P rest (r ::ₘ q ::ₘ (s.records + objs)) s.vfs m)
    (hk : Keeps (s.vfs.blockBag + rest) s.machine m) :
    Restored P rest objs s ((s.halfPipe q r m).filePut r) := by
  have hself : (s.halfPipe q r m).file r = ⟨⟨.pipe, oRdonly, some q, 1⟩, 0, 0⟩ := update_self ..
  have hpipe : ((s.halfPipe q r m).pipe q).writer = false := by simp [FileSys.halfPipe]
  rw [filePut_reader (by rw [hself]) (by rw [hself]) (by rw [hself]) (by rw [hself]) hpipe]
  rw [cons_swap] at hvfs
  obtain ⟨hvfs1, hk1⟩ := hvfs.kfree
  obtain ⟨hvfs2, hk2⟩ := hvfs1.kfree
  have hall := hk.trans (hk1.trans hk2)
  refine ⟨⟨.refl _, fun p hp => hall.bytes p (Multiset.mem_add.mpr (.inl hp)),
    erase_append_new hr, ?_, erase_append_new hq, ?_, rfl, rfl, rfl⟩, hvfs2, hall⟩
  · intro g hg
    have hne : g ≠ r := fun heq => hr (heq ▸ hg)
    simp [FileSys.halfPipe, update_of_ne hne]
  · intro x hx
    have hne : x ≠ q := fun heq => hq (heq ▸ hx)
    simp [FileSys.halfPipe, update_of_ne hne]

end HalfPipe

/-- **`pipe_create`** undoes all it did. -/
theorem Ok.pipeCreate_error (h : s.Ok P rest objs) (hrun : s.pipeCreate = (.error e, s')) :
    Restored P rest objs s s' := by
  unfold FileSys.pipeCreate at hrun
  obtain ⟨q, m, hk⟩ : ∃ q m, kmalloc pipeRecordSize s.machine = (q, m) := ⟨_, _, rfl⟩
  rw [hk] at hrun
  rcases h.vfs.kmalloc hk with ⟨rfl, hsame⟩ | ⟨hq, -, hout, hok, hkeep⟩
  · cases hrun
    exact .of_same h hsame
  split at hrun
  · next heq =>
    cases heq
    exact absurd rfl hq
  next heq =>
  cases heq
  simp only [records, mem_add, mem_coe, not_or] at hout
  -- the pipe is there, nobody uses it yet
  have hrec : records { s with machine := m, pipes := s.pipes ++ [q] } + objs =
      q ::ₘ (s.records + objs) := by
    rw [records, records, ← coe_add, coe_singleton, ← singleton_add]
    abel
  have h1 : Ok P rest objs { s with machine := m, pipes := s.pipes ++ [q] } :=
    ⟨hrec ▸ hok, h.references, h.node⟩
  dsimp only at hrun
  split at hrun
  · next s2 hnew =>
    cases hrun
    rcases h1.fileNew hnew with ⟨-, m2, hsame, rfl⟩ | ⟨hne, -⟩
    · obtain ⟨hfree, hkeep3⟩ := (hok.congr hsame).kfree
      have hall := hkeep.trans ((Keeps.of_same hsame).trans hkeep3)
      exact ⟨⟨.refl _, fun p hp => hall.bytes p (Multiset.mem_add.mpr (.inl hp)), rfl,
        fun _ _ => rfl, erase_append_new hout.1.2, fun _ _ => rfl, rfl, rfl, rfl⟩, hfree, hall⟩
    · exact absurd rfl hne
  next r s2 hne hnew =>
  rcases h1.fileNew hnew with ⟨h0, -⟩ | ⟨-, hr, -, m2, hvfs, hkeep2, rfl⟩
  · exact absurd h0 hne
  rw [hrec] at hvfs
  -- the reader is there as well
  split at hrun
  · next s3 hnew2 =>
    cases hrun
    have hnew3 : (s.halfPipe q r m2).fileNew .pipe oWronly = (0, s3) := by
      simpa [FileSys.halfPipe, FileSys.setPipe, FileSys.setFile] using hnew2
    rcases (h.halfPipe hvfs).fileNew hnew3 with ⟨-, m3, hsame, rfl⟩ | ⟨hne3, -⟩
    · exact filePut_halfPipe hout.1.2 hr (hvfs.congr hsame)
        (hkeep.trans (hkeep2.trans (Keeps.of_same hsame)))
    · exact absurd rfl hne3
  · cases hrun

theorem fileGetdents_error (h : s.fileGetdents f size = (.error e, s')) : s' = s := by
  unfold fileGetdents at h
  split at h
  · cases h
    rfl
  split at h
  · cases h
    rfl
  · cases h

theorem fileSeek_error {offset : Int} {whence : Nat}
    (h : s.fileSeek f offset whence = (.error e, s')) : s' = s := by
  unfold fileSeek at h
  split at h
  · cases h
    rfl
  dsimp only at h
  split at h
  · cases h
    rfl
  · cases h

end FileSys

end Files

namespace Task

variable {shared : Nat → Nat} {t : Radix} {p p' : Task} {fd address : Nat}

theorem mem_fds_of_lookup (h : p.lookup fd = some f) : some f ∈ p.fds.toList := by
  have hjoin : p.fds[fd]? = some (some f) := Option.join_eq_some_iff.mp h
  obtain ⟨hlt, hget⟩ := Vector.getElem?_eq_some_iff.mp hjoin
  exact hget ▸ Vector.mem_toList_iff.mpr (Vector.getElem_mem hlt)

/-- A copy to the memory of the process. -/
theorem Ok.same_copyToUser (h : p.Ok P rest objs shared t s) (bytes : List UInt8) :
    s.Same { s with machine := (copyToUser p.space address bytes s.machine).2 } := by
  obtain ⟨-, -, hk⟩ :=
    addressSpaceCopy_spec h.owned (some fun i => bytes.getD i 0) address bytes.length true
  exact .of_vfs (.refl _) hk

theorem close_error (h : p.close fd s = (.error e, p', s')) : p' = p ∧ s' = s := by
  unfold close at h
  split at h
  · cases h
    exact ⟨rfl, rfl⟩
  · cases h

theorem dup_error {target : Option Nat} (h : p.dup fd target s = (.error e, p', s')) :
    p' = p ∧ s' = s := by
  unfold dup at h
  split at h
  · cases h
    exact ⟨rfl, rfl⟩
  split at h
  · cases h
    exact ⟨rfl, rfl⟩
  split at h
  · cases h
  · cases h

section

variable (h : p.Ok P rest objs shared t s)

include h

/-- A path is relative to a node that is there. -/
theorem Ok.openBase
    (hpipes : ∀ f ∈ s.files, (s.file f).ops = .pipe → (s.file f).node = 0) {path : List UInt8}
    {base : Nat} (hrun : p.openBase fd path s = .ok base) : base ∈ s.vfs.nodes := by
  unfold Task.openBase at hrun
  split at hrun
  · split at hrun
    · cases hrun
    next f hf =>
    have hfile := h.fds f (mem_fds_of_lookup hf)
    split at hrun
    · cases hrun
    next hnode =>
    cases hrun
    exact h.files.node f hfile fun hops => hnode (.inl (hpipes f hfile hops))
  · cases hrun
    exact h.cwd

theorem Ok.openat_error
    (hpipes : ∀ f ∈ s.files, (s.file f).ops = .pipe → (s.file f).node = 0) {flags : Nat}
    (hrun : p.openat fd address flags s = (.error e, p', s')) : p' = p ∧ s.Same s' := by
  unfold Task.openat at hrun
  split at hrun
  · cases hrun
    exact ⟨rfl, .refl _⟩
  split at hrun
  · cases hrun
    exact ⟨rfl, .refl _⟩
  next base hbase =>
  split at hrun
  · cases hrun
    exact ⟨rfl, .refl _⟩
  split at hrun
  · cases hrun
    exact ⟨rfl, .refl _⟩
  split at hrun
  · next hopen =>
    cases hrun
    rcases h.files.vfsOpenat h.root (h.openBase hpipes hbase) hopen with ⟨e1, -, hr⟩ | ⟨f, n, hf, -⟩
    · exact ⟨rfl, hr.same⟩
    · cases hf
  · cases hrun

theorem Ok.pipe_error (hrun : p.pipe address s = (.error e, p', s')) : p' = p ∧ s.Same s' := by
  unfold Task.pipe at hrun
  split at hrun
  · cases hrun
    exact ⟨rfl, .refl _⟩
  split at hrun
  · cases hrun
    exact ⟨rfl, .refl _⟩
  split at hrun
  · cases hrun
    exact ⟨rfl, .refl _⟩
  split at hrun
  · next hcreate =>
    cases hrun
    exact ⟨rfl, (h.files.pipeCreate_error hcreate).same⟩
  · cases hrun

end

/-- The loop never fails once it has stored an entry. -/
theorem getdentsLoop_ok : ∀ (rounds : Nat) {done : Nat} {s : FileSys} {r : Except Errno Nat},
    0 < done →
    p.getdentsLoop f address size rounds done s = (r, s') → ∃ n, r = .ok n := by
  intro rounds
  induction rounds with
  | zero =>
    rintro done s r - h
    cases h
    exact ⟨done, rfl⟩
  | succ rounds ih =>
    intro done s r hdone h
    rw [getdentsLoop] at h
    split at h
    · cases h
      exact ⟨done, rfl⟩
    split at h
    · rw [if_neg (Nat.ne_of_gt hdone)] at h
      cases h
      exact ⟨done, rfl⟩
    · cases h
      exact ⟨done, rfl⟩
    · exact ih (Nat.add_pos_left hdone _) h

theorem getdents_error (h : p.getdents fd address size s = (.error e, p', s')) :
    p' = p ∧ s' = s := by
  unfold getdents at h
  split at h
  · cases h
    exact ⟨rfl, rfl⟩
  split at h
  · cases h
    exact ⟨rfl, rfl⟩
  split at h
  · cases h
    exact ⟨rfl, rfl⟩
  next f _ _ _ =>
  obtain ⟨r, s1, hloop⟩ : ∃ r s1, p.getdentsLoop f address size (size / directoryEntrySize) 0
    s = (r, s1) :=
    ⟨_, _, rfl⟩
  rw [hloop] at h
  cases h
  refine ⟨rfl, ?_⟩
  cases hrounds : size / directoryEntrySize with
  | zero =>
    rw [hrounds] at hloop
    cases hloop
  | succ rounds =>
    rw [hrounds, getdentsLoop] at hloop
    split at hloop
    · cases hloop
    split at hloop
    · next hget =>
      cases hloop
      exact FileSys.fileGetdents_error hget
    · cases hloop
    · obtain ⟨n, hn⟩ := getdentsLoop_ok rounds (Nat.add_pos_right 0 (by decide)) hloop
      cases hn

theorem chdir_error (h : p.chdir address s = (.error e, p', s')) : p' = p ∧ s' = s := by
  unfold chdir at h
  split at h
  · cases h
    exact ⟨rfl, rfl⟩
  split at h
  · cases h
    exact ⟨rfl, rfl⟩
  split at h
  · cases h
    exact ⟨rfl, rfl⟩
  · cases h

theorem Ok.getcwd_error (h : p.Ok P rest objs shared t s)
    (hrun : p.getcwd address size s = (.error e, p', s')) : p' = p ∧ s.Same s' := by
  unfold Task.getcwd at hrun
  split at hrun
  · cases hrun
    exact ⟨rfl, .refl _⟩
  split at hrun
  · cases hrun
    exact ⟨rfl, .refl _⟩
  simp only [Prod.mk.injEq] at hrun
  obtain ⟨-, rfl, rfl⟩ := hrun
  exact ⟨rfl, h.same_copyToUser _⟩

theorem lseek_error {offset whence : Nat} (h : p.lseek fd offset whence s = (.error e, p', s')) :
    p' = p ∧ s' = s := by
  unfold lseek at h
  split at h
  · cases h
    exact ⟨rfl, rfl⟩
  split at h
  · cases h
    exact ⟨rfl, rfl⟩
  next f _ _ =>
  rcases hseek : s.fileSeek f (FileSys.toInt64 offset) whence with ⟨r, s1⟩
  simp only [hseek] at h
  cases r with
  | error e1 =>
    cases h
    exact ⟨rfl, FileSys.fileSeek_error hseek⟩
  | ok n => cases h

/-- **`transfer`** has moved the offset of the file to its end, or it fails at once
or after it slept and gives its reference back. -/
theorem Ok.transfer_error (h : p.Ok P rest objs shared t s) {writing : Bool} {buffer : Nat → UInt8}
    {others left : Others}
    (hrun : p.transfer fd address size writing buffer others s = some (.error e, s', left)) :
    (∃ f, writing = true ∧ p.Reaches fd address size writing s f ∧ s.Moves f ∧ left = others ∧
      (s'.file f).offset = (s.nodeOf f).size) ∨
    (∀ f, writing = true → p.Reaches fd address size writing s f → ¬s.Moves f) ∧
      (left = others ∧ s.Same s' ∨ ∃ (f : Nat) (used : Others), p.lookup fd = some f ∧
        others = used ++ left ∧ s' = (used.after (s.fileGet f)).filePut f) := by
  rcases transfer_cases hrun with ⟨rfl, rfl, hnot, -⟩ | ⟨f, s1, hf, hloop, rfl⟩
  · exact .inr ⟨fun f _ hf => absurd hf (hnot f), .inl ⟨rfl, .refl _⟩⟩
  have href := h.files.references f (h.fds f (mem_fds_of_lookup hf.lookup))
  have hst : Stocked P (s.fileGet f).machine _ := h.files.vfs.stock
  have hstays : ¬(writing = true ∧ (s.fileGet f).Moves f) →
      ∀ g, writing = true → p.Reaches fd address size writing s g → ¬s.Moves g := by
    intro hnot g hw hg hmoves
    obtain rfl : f = g := Option.some.inj (hf.lookup.symm.trans hg.lookup)
    exact hnot ⟨hw, FileSys.moves_fileGet.mpr hmoves⟩
  cases TransferCall.loop_error hst hloop with
  | moved hm hsame =>
    refine .inl ⟨f, hm.1, hf, FileSys.moves_fileGet.mp hm.2, rfl, ?_⟩
    have hne : ¬(s.file f).references = 0 := Nat.ne_of_gt href
    simp [FileSys.filePut, FileSys.fileGet, FileSys.setFile, FileSys.nodeOf, hne]
  | @still m hm hsame =>
    have hput : FileSys.filePut { s.fileGet f with machine := m } f = { s with machine := m } :=
      FileSys.filePut_fileGet (s := { s with machine := m }) href
    rw [hput]
    exact .inr ⟨hstays hm, .inl ⟨rfl,
      .of_vfs (.refl _) (Keeps.of_same hsame : Keeps (s.vfs.blockBag + rest) _ _)⟩⟩
  | slept hm hothers => exact .inr ⟨hstays hm, .inr ⟨f, _, hf.lookup, hothers, rfl⟩⟩

end Task

/-- What a failed call leaves of the file system, if the others made the moves
`used` while it slept: what it was, or what they found with one more reference to
the file of the call, which is then given back. -/
structure Unaffected (used : Others) (file : Option Nat) (s s' : FileSys) : Prop where
  awake : used = [] → s.Same s'
  asleep : used ≠ [] → ∃ f s₁, file = some f ∧ s₁ = used.after (s.fileGet f) ∧ s' = s₁.filePut f ∧
    (1 < (s₁.file f).references →
      s' = s₁.setFile f { s₁.file f with references := (s₁.file f).references - 1 })

/-- **A failed call has no effects**, unless it is a write that gets to the backend
of an appending file whose offset is not at the end. -/
theorem failed_fd_call {P : PagePool} {rest objs : Multiset Nat} {shared : Nat → Nat} {t : Radix}
    {p p' : Task} {s s' : FileSys} {number : FdNumber} {a b c : Nat} {buffer : Nat → UInt8}
    {others left : Others} {e : Errno} (h : p.Ok P rest objs shared t s)
    (hpipes : ∀ f ∈ s.files, (s.file f).ops = .pipe → (s.file f).node = 0)
    (hrun : fdSyscall number a b c buffer others p s = some (.error e, p', s', left)) :
    (p' = p ∧ ∃ used : Others, others = used ++ left ∧ Unaffected used (p.lookup a) s s') ↔
      ¬(number = .write ∧ ∃ f, p.Reaches a b c true s f ∧ s.Moves f) := by
  have hstill : ∀ {r : Except Errno Nat × Task × FileSys},
    (r = (.error e, p', s') → p' = p ∧ s.Same s') →
      atOnce others r = some (.error e, p', s', left) →
      p' = p ∧ ∃ used : Others, others = used ++ left ∧ Unaffected used (p.lookup a) s s' := by
    rintro ⟨r, q, u⟩ hr hat
    cases hat
    obtain ⟨hp, hs⟩ := hr rfl
    exact ⟨hp, [], rfl, fun _ => hs, fun hne => absurd rfl hne⟩
  have hsame : p' = p ∧ s' = s → p' = p ∧ s.Same s' := by
    rintro ⟨rfl, rfl⟩
    exact ⟨rfl, .refl _⟩
  have htransfer : ∀ {writing : Bool} {r : Except Errno Nat × FileSys × Others},
      p.transfer a b c writing buffer others s = some r →
        (r.1, p, r.2.1, r.2.2) = (.error e, p', s', left) →
      ((p' = p ∧ ∃ used : Others, others = used ++ left ∧ Unaffected used (p.lookup a) s s') ↔
        ¬(writing = true ∧ ∃ f, p.Reaches a b c writing s f ∧ s.Moves f)) := by
    rintro writing ⟨r, s1, left1⟩ htr heq
    cases heq
    rcases h.transfer_error htr with ⟨f, hw, hf, hmoves, rfl, hoffset⟩ | ⟨hnot, hleft⟩
    · refine ⟨?_, fun hno => absurd ⟨hw, f, hf, hmoves⟩ hno⟩
      rintro ⟨-, used, hused, hun⟩
      have hs := hun.awake (List.self_eq_append_left.mp hused)
      rw [hs.file f (h.fds f (Task.mem_fds_of_lookup hf.lookup))] at hoffset
      exact absurd hoffset hmoves.2.2.2.2.2
    refine ⟨fun _ ⟨hw, f, hf, hmoves⟩ => hnot f hw hf hmoves, fun _ => ?_⟩
    rcases hleft with ⟨rfl, hs⟩ | ⟨f, used, hf, rfl, rfl⟩
    · exact ⟨rfl, [], rfl, fun _ => hs, fun hne => absurd rfl hne⟩
    refine ⟨rfl, used, rfl, ?_, fun _ => ⟨f, _, hf, rfl, rfl, fun href => ?_⟩⟩
    · rintro rfl
      have href := h.files.references f (h.fds f (Task.mem_fds_of_lookup hf))
      show s.Same ((s.fileGet f).filePut f)
      rw [FileSys.filePut_fileGet href]
      exact .refl _
    · exact FileSys.filePut_shared href
  by_cases hwrite : number = .write
  · subst hwrite
    obtain ⟨r, hr, heq⟩ := Option.map_eq_some_iff.mp hrun
    exact (htransfer hr heq).trans (by simp only [true_and])
  refine iff_of_true ?_ fun hc => hwrite hc.1
  cases number with
  | read =>
    obtain ⟨r, hr, heq⟩ := Option.map_eq_some_iff.mp hrun
    exact (htransfer hr heq).mpr fun hw => nomatch hw.1
  | write => exact absurd rfl hwrite
  | close => exact hstill (fun hr => hsame (Task.close_error hr)) hrun
  | dup => exact hstill (fun hr => hsame (Task.dup_error hr)) hrun
  | dup2 => exact hstill (fun hr => hsame (Task.dup_error hr)) hrun
  | openat => exact hstill (h.openat_error hpipes) hrun
  | pipe => exact hstill h.pipe_error hrun
  | getdents => exact hstill (fun hr => hsame (Task.getdents_error hr)) hrun
  | chdir => exact hstill (fun hr => hsame (Task.chdir_error hr)) hrun
  | getcwd => exact hstill h.getcwd_error hrun
  | lseek => exact hstill (fun hr => hsame (Task.lseek_error hr)) hrun

/-! ## A full file -/

/-- Fill a file with its last byte, and open it once more to append to it. -/
def fullFileCalls (v : Vfs) : List FsCall :=
  [.openat v.root v.root (bytesOf "/tmp/a") (oCreat ||| oWronly), .seek 0x4fc0 65535 seekSet,
    .write 0x4fc0 [7], .openat v.root v.root (bytesOf "/tmp/a") (oWronly ||| oAppend)]

def emptyFiles : FileSys :=
  (FileSys.init { bareFileSys with machine := smallMachine } (some emptyArchive)).2

theorem emptyFiles_ok : ∃ P rest objs, 4096 ∈ rest ∧ emptyFiles.Ok P rest objs ∧
    emptyFiles.NoPipes ∧
    emptyFiles.vfs.Tree := by
  obtain ⟨P, rest, hst, hkernel⟩ := smallMachine_boot.stocked
  have hok : (FileSys.init { bareFileSys with machine := smallMachine } (some emptyArchive)).1 =
      true := by
    decide +kernel
  rw [emptyFiles]
  rcases hinit : FileSys.init { bareFileSys with machine := smallMachine } (some emptyArchive) with
    ⟨ok, s⟩
  rw [hinit] at hok
  dsimp only at hok ⊢
  subst hok
  obtain ⟨hok, hnone, -, htree⟩ :=
    FileSys.init_spec ⟨rfl, fun _ => rfl, fun _ => rfl⟩ rfl rfl hst hinit
  exact ⟨P, rest, _, hkernel, hok, hnone, htree⟩

def fullFiles : FileSys :=
  (runSteps fsStep emptyFiles (fullFileCalls emptyFiles.vfs)).getD emptyFiles

/-- A process that has not opened anything yet. -/
def emptyTask : Task where
  space := (addressSpaceInit 4096 fullFiles.machine).2.1
  fds := Vector.replicate fdCount none
  root := fullFiles.vfs.root
  cwd := fullFiles.vfs.root
  pid := 1
  parent := none
  children := []
  state := .running

def fullMmap : Except Errno Nat × AddressSpace × Machine :=
  addressSpaceMmap emptyTask.space 0 4096 protRead (mapPrivate ||| mapAnonymous) none 0
    (addressSpaceInit 4096 fullFiles.machine).2.2

/-- The process with a page of its own and both files open. -/
def fullTask : Task :=
  { emptyTask with
    space := fullMmap.2.1
    fds := ((Vector.replicate fdCount none).set 0 (some 0x4f80)).set 1 (some 0x4fc0) }

def fullTaskFiles : FileSys := { fullFiles with machine := fullMmap.2.2 }

theorem fullTask_ok : ∃ P rest objs shared t, fullTask.Ok P rest objs shared t fullTaskFiles := by
  obtain ⟨P, rest, objs, hkernel, hok, hnone, -⟩ := emptyFiles_ok
  have hsome : (runSteps fsStep emptyFiles (fullFileCalls emptyFiles.vfs)).isSome = true := by
    decide +kernel
  have hspace : (addressSpaceInit 4096 fullFiles.machine).1 = true := by decide +kernel
  have hroot : fullFiles.vfs.root ∈ fullFiles.vfs.nodes := by decide +kernel
  have hfiles : 0x4f80 ∈ fullFiles.files ∧ 0x4fc0 ∈ fullFiles.files := by decide +kernel
  obtain ⟨s, hs⟩ := Option.isSome_iff_exists.mp hsome
  have hfull : fullFiles = s := by rw [fullFiles, hs, Option.getD_some]
  rw [← hfull] at hs
  obtain ⟨hok', -⟩ := hok.reach hnone (Reach.of_runSteps hs fun _ _ _ => trivial)
  have hrun : addressSpaceInit 4096 fullFiles.machine =
      (true, emptyTask.space, (addressSpaceInit 4096 fullFiles.machine).2.2) := by
    simp only [emptyTask]
    rw [← hspace]
  have hroot' : fullTask.root ∈ fullFiles.vfs.nodes := by
    simp only [fullTask, emptyTask]
    exact hroot
  have hopen : ∀ f, some f ∈ fullTask.fds.toList → f ∈ fullFiles.files := by
    have hlist : fullTask.fds.toList = some 0x4f80 :: some 0x4fc0 :: List.replicate 30 none := by
      decide
    intro f hf
    rw [hlist] at hf
    obtain rfl | rfl : f = 0x4f80 ∨ f = 0x4fc0 := by simpa using hf
    · exact hfiles.1
    · exact hfiles.2
  have hspace' : fullTask.space = (addressSpaceMmap emptyTask.space 0 4096 protRead
      (mapPrivate ||| mapAnonymous) none 0 (addressSpaceInit 4096 fullFiles.machine).2.2).2.1 := by
    simp only [fullTask, fullMmap]
  obtain ⟨shared, t, htask⟩ := Task.Ok.createMapped hok' hkernel hroot' hroot' hopen hrun hspace'
  rw [fullTaskFiles, fullMmap]
  exact ⟨P, rest, _, shared, t, htask⟩

/-- The call fails, and the offset has moved. -/
theorem failed_append_moves_offset :
    (∃ P rest objs shared t, fullTask.Ok P rest objs shared t fullTaskFiles) ∧
    fullTask.lookup 0 = some 0x4f80 ∧ (fullTaskFiles.file 0x4f80).offset = 0 ∧
    (fdSyscall .write 0 0x10000000 1 (fun _ => 0) [] fullTask fullTaskFiles).map
      (fun r => (r.1, (r.2.2.1.file 0x4f80).offset)) = some (.error .fbig, 65536) :=
  ⟨fullTask_ok, by decide +kernel, by decide +kernel, by decide +kernel⟩

/-- Through the other file, whose offset is at the end, the call leaves all as it
was. -/
theorem failed_fd_call_full :
    ∃ s', fdSyscall .write 1 0x10000000 1 (fun _ => 0) [] fullTask fullTaskFiles =
      some (.error .fbig, fullTask, s', []) ∧ fullTaskFiles.Same s' := by
  obtain ⟨P, rest, objs, shared, t, hok⟩ := fullTask_ok
  have hresult : (fdSyscall .write 1 0x10000000 1 (fun _ => 0) [] fullTask fullTaskFiles).map
      (fun r => (r.1, r.2.2.2.length)) = some (.error .fbig, 0) := by decide +kernel
  have hpipes : ∀ f ∈ fullTaskFiles.files, (fullTaskFiles.file f).ops = .pipe →
      (fullTaskFiles.file f).node = 0 := by decide +kernel
  have hlookup : fullTask.lookup 1 = some 0x4fc0 := by decide +kernel
  have hflags : (fullTaskFiles.file 0x4fc0).flags &&& oAppend = 0 := by decide +kernel
  obtain ⟨⟨r, p', s', left⟩, hrun, heq⟩ := Option.map_eq_some_iff.mp hresult
  obtain ⟨rfl, hleft⟩ := Prod.mk.inj heq
  obtain rfl : left = [] := List.length_eq_zero_iff.mp hleft
  have hstays : ¬(FdNumber.write = .write ∧ ∃ f,
      fullTask.Reaches 1 0x10000000 1 true fullTaskFiles f ∧ fullTaskFiles.Moves f) := by
    rintro ⟨-, f, hf, hmoves⟩
    obtain rfl : 0x4fc0 = f := Option.some.inj (hlookup.symm.trans hf.lookup)
    exact hmoves.2.2.1 hflags
  obtain ⟨rfl, used, hused, hunaffected⟩ := (failed_fd_call hok hpipes hrun).mpr hstays
  have hnone : used = [] := (List.append_eq_nil_iff.mp hused.symm).1
  exact ⟨s', hrun, hunaffected.awake hnone⟩

end MiniCore
