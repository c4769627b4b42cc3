import MiniCore.Fs.OpenFiles
import MiniCore.Kernel.Process
import Mathlib.Tactic.Abel

/-!
# MiniCore.Kernel.Fd

File descriptor tables (`src/kernel/fd.c`) under any interleaving of the fd
calls with `fork`, `exec`, exit and reaping.

A process is its table, its state and the `transfer` its thread is inside of,
running or asleep.  `transfer` is entered in one step and goes round its loop
once a step; between two rounds, and while a pipe makes it sleep, any other
process may run.  Calls on a pipe read and write the pipe; what a regular file or
a device answers, and what user memory holds, comes with the action.  Paths,
nodes and offsets play no part.
-/

namespace MiniCore

open Lib Multiset

variable {t : FileTable} {s s' : FdSystem} {q q' : FdProcess}

/-! ## Tables -/

structure Transfer where
  file : Nat
  writing : Bool
  size : Nat
  done : Nat
deriving DecidableEq, Repr

structure FdProcess where
  fds : Vector (Option Nat) fdCount
  state : ProcessState
  transfer : Option Transfer

namespace FdProcess

variable (p : FdProcess)

def lookup (fd : Nat) : Option Nat := p.fds[fd]?.join

def setFd (fd : Nat) (v : Option Nat) : FdProcess := { p with fds := p.fds.setIfInBounds fd v }

/-- `empty_slot` with `start = 0`; `SYS_PIPE` looks for its second slot from
behind the first. -/
def emptySlot (start : Nat) : Option Nat :=
  (List.range fdCount).find? fun i => start ≤ i && (p.lookup i).isNone

end FdProcess

/-! ## Calls -/

/-- Result, files and table after a call. -/
abbrev FdResult : Type := Except Errno Nat × FileTable × FdProcess

/-- `SYS_CLOSE` -/
def closeFd (t : FileTable) (p : FdProcess) (fd : Nat) : FdResult :=
  match p.lookup fd with
  | none => (.error .badf, t, p)
  | some f => (.ok 0, t.filePut (some f), p.setFd fd none)

/-- The slot that `SYS_DUP`, or with a target `SYS_DUP2`, fills. -/
def dupSlot (p : FdProcess) : Option Nat → Except Errno Nat
  | none => (p.emptySlot 0).elim (.error .mfile) .ok
  | some b => if b < fdCount then .ok b else .error .badf

/-- `SYS_DUP` and `SYS_DUP2` -/
def dupFd (t : FileTable) (p : FdProcess) (fd : Nat) (target : Option Nat) : FdResult :=
  match p.lookup fd with
  | none => (.error .badf, t, p)
  | some f =>
    match dupSlot p target with
    | .error e => (.error e, t, p)
    | .ok slot =>
      if slot = fd then (.ok slot, t, p)
      else
        let t := t.fileGet (some f)
        let t := t.filePut (p.lookup slot)
        (.ok slot, t, p.setFd slot (some f))

/-- `SYS_OPENAT`: `early` is an error found before the table is looked at, `wide`
says that the flags do not fit 32 bits, `opened` is what `vfs_openat` answers (a
character device or not, and the flags). -/
def openFd (t : FileTable) (p : FdProcess) (early : Option Errno) (wide : Bool)
    (opened : Except Errno (Bool × Nat)) : FdResult :=
  match early with
  | some e => (.error e, t, p)
  | none =>
    match p.emptySlot 0 with
    | none => (.error .mfile, t, p)
    | some slot =>
      if wide then (.error .inval, t, p)
      else
        match opened with
        | .error e => (.error e, t, p)
        | .ok (device, flags) =>
          let (f, t) := t.fileNew (if device then .device else .regular) flags none
          (.ok slot, t, p.setFd slot (some f))

/-- `SYS_PIPE`: `valid` is the answer of `address_space_validate`. -/
def pipeFd (t : FileTable) (p : FdProcess) (valid : Bool) (outcome : FileTable.PipeOutcome) :
    FdResult :=
  if valid = false then (.error .fault, t, p)
  else
    match p.emptySlot 0 with
    | none => (.error .mfile, t, p)
    | some a =>
      match p.emptySlot (a + 1) with
      | none => (.error .mfile, t, p)
      | some b =>
        match t.pipeCreate outcome with
        | (.error e, t) => (.error e, t, p)
        | (.ok (r, w), t) => (.ok 0, t, (p.setFd a (some r)).setFd b (some w))

/-! ## Transfers -/

/-- `INT64_MAX` -/
def int64Max : Nat := 2 ^ 63 - 1

/-- `transfer` up to its loop: it returns, or the process is inside. -/
def transferBegin (t : FileTable) (p : FdProcess) (fd size : Nat) (writing valid : Bool) :
    Option (Except Errno Nat) × FileTable × FdProcess :=
  match p.lookup fd with
  | none => (some (.error .badf), t, p)
  | some f =>
    match t.file? f with
    | none => (some (.error .badf), t, p)
    | some file =>
      if file.flags &&& oAccmode = (if writing then oRdonly else oWronly) then
        (some (.error .badf), t, p)
      else if int64Max < size ∨ valid = false then (some (.error .fault), t, p)
      else
        let t := t.fileGet (some f)
        if size = 0 then (some (.ok 0), t.filePut (some f), p)
        else (none, t, { p with transfer := some ⟨f, writing, size, 0⟩ })

/-- What the outside gives a round of `transfer`: the answer of a regular file or
a device, and the bytes to write. -/
structure Io where
  answer : Except Errno Nat
  buffer : Nat → UInt8

/-- `file_read` or `file_write` of one chunk; none while a pipe makes it sleep. -/
def backend (t : FileTable) (file : OpenFile) (writing : Bool) (chunk : Nat) (io : Io) :
    Option (Except Errno Nat × FileTable) :=
  match file.ops with
  | .regular | .device => some (io.answer.map (min · chunk), t)
  | .pipe =>
    match file.pipe with
    | none => none
    | some k =>
      match t.pipes[k]? with
      | none => none
      | some slot =>
        match slot.pipe with
        | none => none
        | some pipe =>
          if writing then
            if pipe.used = pipeCapacity ∧ pipe.reader = true then none
            else if pipe.reader = false then some (.error .pipe, t)
            else
              let (n, pipe) := pipe.put ((List.range chunk).map io.buffer)
              some (.ok n, { t with pipes := t.pipes.set k ⟨some pipe, slot.ends⟩ })
          else if pipe.used = 0 ∧ pipe.writer = true then none
          else
            let (n, _, pipe) := pipe.take chunk
            some (.ok n, { t with pipes := t.pipes.set k ⟨some pipe, slot.ends⟩ })

/-- One round of the loop in `transfer`, with what follows the loop. -/
def transferRound (t : FileTable) (p : FdProcess) (io : Io) :
    Option (Option (Except Errno Nat) × FileTable × FdProcess) :=
  match p.transfer with
  | none => none
  | some tr =>
    match t.file? tr.file with
    | none => none
    | some file =>
      let chunk := min (tr.size - tr.done) 256
      match backend t file tr.writing chunk io with
      | none => none
      | some (n, t) =>
        let leave (r : Except Errno Nat) :=
          some (some r, t.filePut (some tr.file), { p with transfer := none })
        match n with
        | .error e => leave (if tr.done = 0 then .error e else .ok tr.done)
        | .ok n =>
          let done := tr.done + n
          if n = 0 ∨ n < chunk ∨ (tr.writing = false ∧ file.ops ≠ .regular) ∨
              tr.size ≤ done then leave (.ok done)
          else some (none, t, { p with transfer := some { tr with done := done } })

/-! ## Processes -/

/-- `file_get` of every slot. -/
def getAll (t : FileTable) (fds : Vector (Option Nat) fdCount) : FileTable :=
  fds.toList.foldl FileTable.fileGet t

/-- `file_put` of every slot. -/
def putAll (t : FileTable) (fds : Vector (Option Nat) fdCount) : FileTable :=
  fds.toList.foldl FileTable.filePut t

structure FdSystem where
  table : FileTable
  procs : List FdProcess

inductive FdCall where
  | close (fd : Nat)
  | dup (fd : Nat) (target : Option Nat)
  | openat (early : Option Errno) (wide : Bool) (opened : Except Errno (Bool × Nat))
  | pipe (valid : Bool) (outcome : FileTable.PipeOutcome)

def FdCall.run (t : FileTable) (p : FdProcess) : FdCall → FdResult
  | .close fd => closeFd t p fd
  | .dup fd target => dupFd t p fd target
  | .openat early wide opened => openFd t p early wide opened
  | .pipe valid outcome => pipeFd t p valid outcome

inductive FdAction where
  | call (p : Nat) (c : FdCall)
  /-- `SYS_READ` and `SYS_WRITE` -/
  | transfer (p fd size : Nat) (writing valid : Bool)
  | round (p : Nat) (io : Io)
  | fork (p : Nat) (outcome : ForkOutcome)
  /-- `process_exec`; `opened` describes the executable if it can be opened. -/
  | exec (p : Nat) (opened : Option (Bool × Nat))
  | exit (p : Nat)
  | reap (p : Nat)

namespace FdSystem

/-- The process is running and not inside a call. -/
def ready (s : FdSystem) (p : Nat) : Option FdProcess :=
  match s.procs[p]? with
  | some q => if q.state = .running ∧ q.transfer = none then some q else none
  | none => none

def put (s : FdSystem) (p : Nat) (t : FileTable) (q : FdProcess) : FdSystem :=
  ⟨t, s.procs.set p q⟩

def step (s : FdSystem) : FdAction → Option FdSystem
  | .call p c => (s.ready p).map fun q => s.put p (c.run s.table q).2.1 (c.run s.table q).2.2
  | .transfer p fd size writing valid => (s.ready p).map fun q =>
    let (_, t, q) := transferBegin s.table q fd size writing valid
    s.put p t q
  | .round p io =>
    match s.procs[p]? with
    | none => none
    | some q => (transferRound s.table q io).map fun r => s.put p r.2.1 r.2.2
  | .fork p outcome => (s.ready p).map fun q =>
    match outcome with
    | .noRecord | .noCopy => s
    -- `process_destroy` of the child that could not be started
    | .noThread => { s with table := putAll (getAll s.table q.fds) q.fds }
    | .done => ⟨getAll s.table q.fds, s.procs ++ [⟨q.fds, .running, none⟩]⟩
  | .exec p opened => (s.ready p).map fun _ =>
    match opened with
    | none => s
    | some (device, flags) =>
      let (f, t) := s.table.fileNew (if device then .device else .regular) flags none
      { s with table := t.filePut (some f) }
  | .exit p => (s.ready p).map fun q => s.put p s.table { q with state := .zombie }
  | .reap p =>
    match s.procs[p]? with
    | none => none
    | some q =>
      if q.state = .zombie then
        some (s.put p (putAll s.table q.fds)
          ⟨Vector.replicate fdCount none, .reapable, q.transfer⟩)
      else none

end FdSystem

/-- `fd_install_stdio`, when nothing fails. -/
def fdInstallStdio (t : FileTable) (p : FdProcess) : FileTable × FdProcess :=
  (List.range 3).foldl (fun x i =>
    let (f, t) := x.1.fileNew .device (if i = 0 then oRdonly else oWronly) none
    (t, x.2.setFd i (some f))) (t, p)

/-- The first process with its console, as `start_init` makes it. -/
def FdSystem.start : FdSystem :=
  let (t, p) := fdInstallStdio ⟨[], [], 0⟩ ⟨Vector.replicate fdCount none, .running, none⟩
  ⟨t, [p]⟩

/-! ## References held -/

namespace FdProcess

/-- The references of a process: its slots, and the one of a transfer. -/
def refs (p : FdProcess) : Multiset Nat :=
  (p.fds.toList.map bag).sum + bag (p.transfer.map Transfer.file)

variable {p : FdProcess} {fd f : Nat} {v : Option Nat}

theorem lt_of_lookup (h : p.lookup fd = some f) : fd < fdCount := by
  by_contra hlt
  simp [lookup, hlt] at h

/-- Overwriting a slot trades one reference for another. -/
theorem refs_setFd (h : fd < fdCount) (v : Option Nat) :
    (p.setFd fd v).refs + bag (p.lookup fd) = p.refs + bag v := by
  have hlen : fd < p.fds.toList.length := by simpa using h
  have hget : p.fds.toList[fd]? = some p.fds[fd] := by simp [h]
  have hlookup : p.lookup fd = p.fds[fd] := by simp [lookup, h]
  have hset : (p.setFd fd v).fds.toList = p.fds.toList.set fd v := by simp [setFd]
  rw [refs, hset, sum_set bag hlen, hlookup, refs, sum_eraseIdx bag hget]
  simp only [setFd]
  abel

/-- Closing a slot gives one reference up. -/
theorem refs_of_lookup (h : p.lookup fd = some f) : p.refs = {f} + (p.setFd fd none).refs := by
  have hswap := refs_setFd (p := p) (lt_of_lookup h) none
  rw [h, bag_none, bag_some, add_zero] at hswap
  rw [← hswap, add_comm]

theorem refs_of_empty (hlt : fd < fdCount) (h : p.lookup fd = none) (f : Nat) :
    (p.setFd fd (some f)).refs = {f} + p.refs := by
  have hswap := refs_setFd (p := p) hlt (some f)
  rw [h, bag_none, bag_some, add_zero] at hswap
  rw [hswap, add_comm]

/-- The slot found is free. -/
theorem emptySlot_spec {start i : Nat} (h : p.emptySlot start = some i) :
    i < fdCount ∧ start ≤ i ∧ p.lookup i = none := by
  have hmem := List.mem_of_find?_eq_some h
  have hprop := List.find?_some h
  simp only [Bool.and_eq_true, decide_eq_true_eq, Option.isNone_iff_eq_none] at hprop
  exact ⟨List.mem_range.mp hmem, hprop⟩

theorem lookup_setFd_ne {j : Nat} (h : j ≠ fd) : (p.setFd fd v).lookup j = p.lookup j := by
  simp [lookup, setFd, Vector.getElem?_setIfInBounds_ne (Ne.symm h)]

end FdProcess

section Calls

variable {p : FdProcess}

/-- What a call makes of the files and of its process: the references stay counted,
whatever the other processes hold. -/
structure Conserves (t : FileTable) (p : FdProcess) (r : FileTable × FdProcess) : Prop where
  counted : ∀ {rest}, TableOk t (p.refs + rest) → TableOk r.1 (r.2.refs + rest)
  state : r.2.state = p.state

theorem Conserves.refl : Conserves t p (t, p) := ⟨id, rfl⟩

/-- `close` gives the slot's reference back. -/
theorem closeFd_ok (fd : Nat) : Conserves t p (closeFd t p fd).2 := by
  unfold closeFd
  cases hf : p.lookup fd with
  | none => exact .refl
  | some f =>
    refine ⟨fun h => ?_, rfl⟩
    rw [FdProcess.refs_of_lookup hf, add_assoc] at h
    exact h.filePut (o := some f)

theorem dupSlot_lt {target : Option Nat} {slot : Nat} (h : dupSlot p target = .ok slot) :
    slot < fdCount := by
  cases target with
  | none =>
    cases he : p.emptySlot 0 with
    | none => simp [dupSlot, he] at h
    | some i =>
      obtain rfl : i = slot := by simpa [dupSlot, he] using h
      exact (FdProcess.emptySlot_spec he).1
  | some b =>
    by_cases hb : b < fdCount
    · obtain rfl : b = slot := by simpa [dupSlot, hb] using h
      exact hb
    · simp [dupSlot, hb] at h

/-- `dup2` takes a reference before it drops the old file. -/
theorem dupFd_ok (fd : Nat) (target : Option Nat) : Conserves t p (dupFd t p fd target).2 := by
  unfold dupFd
  cases hf : p.lookup fd with
  | none => exact .refl
  | some f =>
    cases hs : dupSlot p target with
    | error e => exact .refl
    | ok slot =>
      by_cases hsame : slot = fd
      · simpa [hsame] using .refl
      simp only [hsame, ↓reduceIte]
      refine ⟨fun h => TableOk.filePut (o := p.lookup slot) ?_, rfl⟩
      have hget := h.fileGet (o := some f) fun g hg => by
        cases hg
        simp [FdProcess.refs_of_lookup hf]
      have hswap := FdProcess.refs_setFd (p := p) (dupSlot_lt hs) (some f)
      convert hget using 1
      rw [← add_assoc, add_comm (bag (p.lookup slot)), hswap]
      abel

theorem openFd_ok (early : Option Errno) (wide : Bool) (opened : Except Errno (Bool × Nat)) :
    Conserves t p (openFd t p early wide opened).2 := by
  unfold openFd
  split
  · exact .refl
  split
  · exact .refl
  next slot hslot =>
  split
  · exact .refl
  split
  · exact .refl
  next device flags =>
  obtain ⟨hlt, -, hempty⟩ := FdProcess.emptySlot_spec hslot
  have hops : (if device then FileOps.device else .regular) ≠ .pipe := by
    cases device <;> simp
  refine ⟨fun h => ?_, rfl⟩
  simpa [FdProcess.refs_of_empty hlt hempty, add_assoc] using h.fileNew hops flags none

/-- `pipe` fills two slots, or neither. -/
theorem pipeFd_ok (valid : Bool) (outcome : FileTable.PipeOutcome) :
    Conserves t p (pipeFd t p valid outcome).2 := by
  unfold pipeFd
  split
  · exact .refl
  split
  · exact .refl
  next a ha =>
  split
  · exact .refl
  next b hb =>
  obtain ⟨hal, -, hae⟩ := FdProcess.emptySlot_spec ha
  obtain ⟨hbl, hab, hbe⟩ := FdProcess.emptySlot_spec hb
  split
  · next e t' heq => exact ⟨fun h => by simpa [heq] using h.pipeCreate outcome, rfl⟩
  next r w t' heq =>
  refine ⟨fun h => ?_, rfl⟩
  have hcreate := h.pipeCreate outcome
  rw [heq] at hcreate
  have hbe' : (p.setFd a (some r)).lookup b = none := by
    rw [FdProcess.lookup_setFd_ne (by omega), hbe]
  rw [FdProcess.refs_of_empty hbl hbe', FdProcess.refs_of_empty hal hae]
  convert hcreate using 1
  simp only [← singleton_add]
  abel

theorem FdCall.run_ok (c : FdCall) : Conserves t p (c.run t p).2 := by
  cases c with
  | close fd => exact closeFd_ok fd
  | dup fd target => exact dupFd_ok fd target
  | openat early wide opened => exact openFd_ok early wide opened
  | pipe valid outcome => exact pipeFd_ok valid outcome

/-! ### Transfers -/

theorem FdProcess.refs_transfer (hp : p.transfer = none) (tr : Transfer) :
    FdProcess.refs { p with transfer := some tr } = {tr.file} + p.refs := by
  simp [FdProcess.refs, hp, add_comm]

theorem FdProcess.refs_of_transfer {tr : Transfer} (hp : p.transfer = some tr) :
    p.refs = {tr.file} + FdProcess.refs { p with transfer := none } := by
  simp [FdProcess.refs, hp, add_comm]

theorem transferBegin_ok (hp : p.transfer = none) (fd size : Nat) (writing valid : Bool) :
    Conserves t p (transferBegin t p fd size writing valid).2 := by
  unfold transferBegin
  cases hf : p.lookup fd with
  | none => exact .refl
  | some f =>
    have hget {rest} (h : TableOk t (p.refs + rest)) :
        TableOk (t.fileGet (some f)) ({f} + (p.refs + rest)) :=
      h.fileGet (o := some f) fun g hg => by
        cases hg
        simp [FdProcess.refs_of_lookup hf]
    generalize (if writing then oRdonly else oWronly) = mode
    simp only
    split
    · exact .refl
    split
    · exact .refl
    split
    · exact .refl
    · split
      · exact ⟨fun h => (hget h).filePut (o := some f), rfl⟩
      · exact ⟨fun h => by simpa [FdProcess.refs_transfer hp, add_assoc] using hget h, rfl⟩

/-- A round of the backend moves bytes, not references. -/
theorem backend_ok {held : Multiset Nat} (h : TableOk t held) {file : OpenFile} {writing : Bool}
    {chunk : Nat} {io : Io} {n : Except Errno Nat} {t' : FileTable}
    (hb : backend t file writing chunk io = some (n, t')) : TableOk t' held := by
  unfold backend at hb
  split at hb
  · cases hb
    exact h
  · cases hb
    exact h
  split at hb
  · cases hb
  split at hb
  · cases hb
  · next k slot hslot =>
    split at hb
    · cases hb
    next pipe hpipe =>
    split at hb
    · split at hb
      · cases hb
      · split at hb
        · cases hb
          exact h
        · cases hb
          exact h.setPipe hslot hpipe rfl rfl
    · split at hb
      · cases hb
      · cases hb
        exact h.setPipe hslot hpipe rfl rfl

/-- The reference of a transfer is put when it leaves the loop. -/
theorem transferRound_ok {io : Io} {r : Option (Except Errno Nat) × FileTable × FdProcess}
    (hr : transferRound t p io = some r) : p.transfer ≠ none ∧ Conserves t p r.2 := by
  unfold transferRound at hr
  cases htr : p.transfer with
  | none => simp [htr] at hr
  | some tr =>
    refine ⟨by simp, ?_⟩
    simp only [htr] at hr
    split at hr
    · cases hr
    next file hfile =>
    split at hr
    · cases hr
    next n t' hb =>
    have hleave : Conserves t p (t'.filePut (some tr.file), { p with transfer := none }) := by
      refine ⟨fun h => ?_, rfl⟩
      have hnext := backend_ok h hb
      rw [FdProcess.refs_of_transfer htr, add_assoc] at hnext
      exact hnext.filePut (o := some tr.file)
    split at hr
    · cases hr
      exact hleave
    split at hr
    · cases hr
      exact hleave
    · cases hr
      exact ⟨fun h => by simpa [FdProcess.refs, htr] using backend_ok h hb, rfl⟩

end Calls

section Processes

variable {held : Multiset Nat}

/-- Copying a table whose references are all held. -/
theorem foldl_fileGet_ok {l : List (Option Nat)} (h : TableOk t held)
    (hl : ∀ f, some f ∈ l → f ∈ held) :
    TableOk (l.foldl FileTable.fileGet t) ((l.map bag).sum + held) := by
  induction l generalizing t held with
  | nil => simpa using h
  | cons o l ih =>
    have hget := h.fileGet (o := o) fun f hf => hl f (by simp [hf])
    have hrest := ih hget fun f hf =>
      Multiset.mem_add.mpr (.inr (hl f (List.mem_cons_of_mem _ hf)))
    rw [List.map_cons, List.sum_cons, List.foldl_cons]
    convert hrest using 1
    abel

theorem foldl_filePut_ok {l : List (Option Nat)} (h : TableOk t ((l.map bag).sum + held)) :
    TableOk (l.foldl FileTable.filePut t) held := by
  induction l generalizing t with
  | nil => simpa using h
  | cons o l ih =>
    rw [List.map_cons, List.sum_cons, add_assoc] at h
    exact ih h.filePut

end Processes

/-! ## The system -/

namespace FdSystem

/-- All references of all processes. -/
def held (s : FdSystem) : Multiset Nat := (s.procs.map FdProcess.refs).sum

/-- The files count the references of all processes, and a process that has been
torn down has none. -/
structure Inv (s : FdSystem) : Prop where
  table : TableOk s.table s.held
  gone : ∀ q ∈ s.procs, q.state = .reapable → q.refs = 0
  idle : ∀ q ∈ s.procs, q.state ≠ .running → q.transfer = none

variable {p : Nat}

/-- Looking at one process: what it holds and what the others hold. -/
theorem held_focus (hq : s.procs[p]? = some q) :
    ∃ rest, s.held = q.refs + rest ∧ ∀ t q', (s.put p t q').held = q'.refs + rest := by
  have hlt := (List.getElem?_eq_some_iff.mp hq).1
  exact ⟨_, sum_eraseIdx FdProcess.refs hq, fun t q' => sum_set FdProcess.refs hlt q'⟩

/-- A step of one process that keeps the count right for whatever the others hold. -/
theorem Inv.put (h : Inv s) (hq : s.procs[p]? = some q)
    (hok : ∀ rest, TableOk s.table (q.refs + rest) → TableOk t (q'.refs + rest))
    (hgone : q'.state = .reapable → q'.refs = 0)
    (hidle : q'.state ≠ .running → q'.transfer = none) : Inv (s.put p t q') := by
  obtain ⟨rest, hheld, hput⟩ := held_focus hq
  have hmem : ∀ x ∈ (s.put p t q').procs, x = q' ∨ x ∈ s.procs := fun x hx =>
    (List.mem_or_eq_of_mem_set hx).symm
  refine ⟨?_, fun x hx hst => ?_, fun x hx hst => ?_⟩
  · rw [hput t q']
    exact hok rest (hheld ▸ h.table)
  · rcases hmem x hx with rfl | hx
    · exact hgone hst
    · exact h.gone x hx hst
  · rcases hmem x hx with rfl | hx
    · exact hidle hst
    · exact h.idle x hx hst

theorem ready_eq_some (h : s.ready p = some q) :
    s.procs[p]? = some q ∧ q.state = .running ∧ q.transfer = none := by
  unfold ready at h
  cases hp : s.procs[p]? with
  | none => simp [hp] at h
  | some x =>
    simp only [hp, Option.ite_none_right_eq_some, Option.some.injEq] at h
    obtain ⟨⟨hst, htr⟩, rfl⟩ := h
    exact ⟨rfl, hst, htr⟩

end FdSystem

/-- Opening the console once per slot. -/
theorem foldl_install_ok {l : List Nat} {t : FileTable} {p : FdProcess} {rest : Multiset Nat}
    (hnd : l.Nodup) (hl : ∀ i ∈ l, i < fdCount ∧ p.lookup i = none)
    (h : TableOk t (p.refs + rest)) :
    let r := l.foldl (fun (x : FileTable × FdProcess) i =>
      let (f, t) := x.1.fileNew .device (if i = 0 then oRdonly else oWronly) none
      (t, x.2.setFd i (some f))) (t, p)
    TableOk r.1 (r.2.refs + rest) ∧ r.2.state = p.state ∧ r.2.transfer = p.transfer := by
  induction l generalizing t p with
  | nil => exact ⟨h, rfl, rfl⟩
  | cons i l ih =>
    obtain ⟨hi, hnd⟩ := List.nodup_cons.mp hnd
    obtain ⟨hlt, hempty⟩ := hl i List.mem_cons_self
    have hnew :=
      h.fileNew (by decide : FileOps.device ≠ .pipe) (if i = 0 then oRdonly else oWronly) none
    rw [← singleton_add, ← add_assoc, ← FdProcess.refs_of_empty hlt hempty] at hnew
    refine ih hnd (fun j hj => ?_) hnew
    have hji : j ≠ i := fun e => hi (e ▸ hj)
    rw [FdProcess.lookup_setFd_ne hji]
    exact hl j (List.mem_cons_of_mem _ hj)

namespace FdSystem

variable {p : Nat}

/-- What a step does. -/
inductive Moves (s : FdSystem) : FdSystem → Prop
  /-- `exec`, or a `fork` that fails. -/
  | table {t : FileTable} (counted : TableOk s.table s.held → TableOk t s.held) :
      Moves s { s with table := t }
  /-- A call, or a round of a transfer. -/
  | running {p : Nat} {q : FdProcess} {r : FileTable × FdProcess} (found : s.procs[p]? = some q)
      (running : q.state = .running) (call : Conserves s.table q r) : Moves s (s.put p r.1 r.2)
  | fork {p : Nat} {q : FdProcess} (ready : s.ready p = some q) :
      Moves s ⟨getAll s.table q.fds, s.procs ++ [⟨q.fds, .running, none⟩]⟩
  | exit {p : Nat} {q : FdProcess} (ready : s.ready p = some q) :
      Moves s (s.put p s.table { q with state := .zombie })
  | reap {p : Nat} {q : FdProcess} (found : s.procs[p]? = some q) (dead : q.state = .zombie) :
      Moves s (s.put p (putAll s.table q.fds)
        ⟨Vector.replicate fdCount none, .reapable, q.transfer⟩)

/-- `fork` finds the files it shares. -/
theorem getAll_ok (hq : s.procs[p]? = some q) (h : TableOk s.table s.held) :
    TableOk (getAll s.table q.fds) ((q.fds.toList.map bag).sum + s.held) := by
  obtain ⟨rest, hheld, -⟩ := held_focus hq
  refine foldl_fileGet_ok h fun f hf => ?_
  rw [hheld, FdProcess.refs]
  exact Multiset.mem_add.mpr (.inl (Multiset.mem_add.mpr (.inl (mem_sum_map_bag.mpr hf))))

/-- Every step is one of the moves. -/
theorem Inv.moves (h : Inv s) {a : FdAction} (hs : s.step a = some s') : Moves s s' := by
  cases a with
  | call p c =>
    obtain ⟨q, hp, rfl⟩ := Option.map_eq_some_iff.mp hs
    obtain ⟨hq, hst, -⟩ := ready_eq_some hp
    exact .running hq hst c.run_ok
  | transfer p fd size writing valid =>
    obtain ⟨q, hp, rfl⟩ := Option.map_eq_some_iff.mp hs
    obtain ⟨hq, hst, htr⟩ := ready_eq_some hp
    exact .running hq hst (transferBegin_ok htr fd size writing valid)
  | round p io =>
    simp only [FdSystem.step] at hs
    split at hs
    · cases hs
    next q hq =>
    obtain ⟨r, hr, rfl⟩ := Option.map_eq_some_iff.mp hs
    obtain ⟨hbusy, hcall⟩ := transferRound_ok hr
    have hst : q.state = .running := by
      by_contra hne
      exact hbusy (h.idle q (List.mem_of_getElem? hq) hne)
    exact .running hq hst hcall
  | fork p outcome =>
    obtain ⟨q, hp, rfl⟩ := Option.map_eq_some_iff.mp hs
    have hget := getAll_ok (ready_eq_some hp).1
    cases outcome with
    | noRecord | noCopy => exact .table id
    | noThread => exact .table fun hok => foldl_filePut_ok (hget hok)
    | done => exact .fork hp
  | exec p opened =>
    obtain ⟨q, hp, rfl⟩ := Option.map_eq_some_iff.mp hs
    cases opened with
    | none => exact .table id
    | some o =>
      have hops : (if o.1 then FileOps.device else .regular) ≠ .pipe := by
        cases o.1 <;> simp
      exact .table fun hok => (hok.fileNew hops o.2 none).filePut (o := some _)
  | exit p =>
    obtain ⟨q, hp, rfl⟩ := Option.map_eq_some_iff.mp hs
    exact .exit hp
  | reap p =>
    simp only [FdSystem.step] at hs
    split at hs
    · cases hs
    next q hq =>
    simp only [Option.ite_none_right_eq_some, Option.some.injEq] at hs
    obtain ⟨hst, rfl⟩ := hs
    exact .reap hq hst

theorem Inv.fork (h : Inv s) (hp : s.ready p = some q) :
    Inv ⟨getAll s.table q.fds, s.procs ++ [⟨q.fds, .running, none⟩]⟩ := by
  have hget := getAll_ok (ready_eq_some hp).1 h.table
  have hchild : ∀ x ∈ s.procs ++ [⟨q.fds, .running, none⟩], x.state ≠ .running → x ∈ s.procs := by
    intro x hx hne
    rcases List.mem_append.mp hx with hx | hx
    · exact hx
    · rw [List.mem_singleton.mp hx] at hne
      exact absurd rfl hne
  refine ⟨?_, fun x hx hgone => ?_, fun x hx hne => h.idle x (hchild x hx hne) hne⟩
  · have hsum : held ⟨getAll s.table q.fds, s.procs ++ [⟨q.fds, .running, none⟩]⟩ =
        (q.fds.toList.map bag).sum + s.held := by
      rw [held, List.map_append, List.sum_append, add_comm]
      simp only [List.map_cons, List.map_nil, List.sum_cons, List.sum_nil, FdProcess.refs,
        Option.map_none, bag_none, add_zero]
      rfl
    rw [hsum]
    exact hget
  · exact h.gone x (hchild x hx (by simp [hgone])) hgone

/-- **Every step keeps the references counted.** -/
theorem Inv.step (h : Inv s) {a : FdAction} (hs : s.step a = some s') : Inv s' := by
  cases h.moves hs with
  | table counted => exact ⟨counted h.table, h.gone, h.idle⟩
  | running hq hst call =>
    have hst' := call.state.trans hst
    exact h.put hq (fun _ => call.counted) (fun hgone => by simp [hst'] at hgone)
      (fun hne => absurd hst' hne)
  | fork hp => exact h.fork hp
  | exit hp =>
    obtain ⟨hq, -, htr⟩ := ready_eq_some hp
    exact h.put hq (fun rest hok => hok) (by simp) fun _ => htr
  | @reap p q hq hst =>
    have htr := h.idle q (List.mem_of_getElem? hq) (by simp [hst])
    have hempty : FdProcess.refs ⟨Vector.replicate fdCount none, .reapable, q.transfer⟩ = 0 := by
      simp [FdProcess.refs, htr]
    refine h.put hq (fun rest hok => ?_) (fun _ => hempty) fun _ => htr
    rw [hempty, zero_add]
    refine foldl_filePut_ok ?_
    simpa [FdProcess.refs, htr] using hok

end FdSystem

/-! ## Reference counting -/

namespace FdSystem

/-- The fd slots that hold `f`, over the processes not yet torn down. -/
def slots (s : FdSystem) (f : Nat) : Nat :=
  ((s.procs.filter (·.state ≠ .reapable)).map fun q => q.fds.toList.count (some f)).sum

/-- The calls of `transfer` in progress on `f`. -/
def transfers (s : FdSystem) (f : Nat) : Nat :=
  s.procs.countP fun q => q.transfer.map Transfer.file = some f

/-- References are counted, files and pipes released at the right moment. -/
structure RefCounted (s : FdSystem) : Prop where
  references : ∀ f file, s.table.file? f = some file →
    file.references = s.slots f + s.transfers f ∧ 1 ≤ file.references
  live_files : s.table.liveFiles = s.table.files.countP Option.isSome
  released : ∀ f < s.table.files.length,
    (s.table.file? f = none ↔ s.slots f + s.transfers f = 0)
  pipe_freed : ∀ (k : Nat) (slot : PipeSlot) (r w : Nat), s.table.pipes[k]? = some slot →
    slot.ends = some (r, w) →
    (slot.pipe = none ↔ s.table.file? r = none ∧ s.table.file? w = none)
  inside : ∀ q ∈ s.procs, ∀ tr, q.transfer = some tr → ∃ file, s.table.file? tr.file = some file ∧
    (file.ops = .pipe → ∃ k slot pipe, file.pipe = some k ∧ s.table.pipes[k]? = some slot ∧
      slot.pipe = some pipe)

theorem count_refs (q : FdProcess) (f : Nat) : q.refs.count f = q.fds.toList.count (some f) +
      if q.transfer.map Transfer.file = some f then 1 else 0 := by
  rw [FdProcess.refs, count_add, count_sum_bag, count_bag]

theorem count_held {s : FdSystem} (h : Inv s) (f : Nat) :
    s.held.count f = s.slots f + s.transfers f := by
  have hgone := h.gone
  unfold held slots transfers
  generalize s.procs = l at hgone
  induction l with
  | nil => rfl
  | cons q l ih =>
    have hrest := ih fun x hx => hgone x (List.mem_cons_of_mem _ hx)
    have hq := count_refs q f
    rw [List.map_cons, List.sum_cons, count_add, hrest, List.countP_cons]
    by_cases hst : q.state = .reapable
    · rw [hgone q List.mem_cons_self hst, count_zero] at hq
      rw [List.filter_cons_of_neg (by simp [hst]), hgone q List.mem_cons_self hst,
        count_zero]
      simp only [decide_eq_true_eq]
      omega
    · rw [List.filter_cons_of_pos (by simp [hst]), List.map_cons, List.sum_cons, hq]
      simp only [decide_eq_true_eq]
      omega

theorem Inv.refCounted {s : FdSystem} (h : Inv s) : RefCounted s := by
  have hcount := count_held h
  have hok := h.table
  refine ⟨fun f file hf => ?_, hok.liveFiles, fun f hf => ⟨fun hnone => ?_, fun hzero => ?_⟩,
    fun k slot r w hk hends => ?_, fun q hq tr htr => ?_⟩
  · rw [← hcount]
    exact hok.references hf
  · rw [← hcount, Multiset.count_eq_zero]
    intro hmem
    have hlive := hok.held_live hmem
    simp [FileTable.live, hnone] at hlive
  · rw [← hcount] at hzero
    cases hfile : s.table.file? f with
    | none => rfl
    | some file =>
      have hrefs := hok.references hfile
      omega
  · have hflags := (hok.piped.slot_ok hk).flags hends
    simp only [FileTable.live] at hflags
    cases hp : slot.pipe <;> cases hr : s.table.file? r <;> cases hw : s.table.file? w <;>
      simp_all [PipeSlot.flags, endState]
  · have hmem : tr.file ∈ s.held := by
      obtain ⟨i, hi⟩ := List.mem_iff_getElem?.mp hq
      obtain ⟨rest, hheld, -⟩ := held_focus hi
      simp [hheld, FdProcess.refs, htr]
    obtain ⟨file, hfile⟩ := Option.isSome_iff_exists.mp (hok.held_live hmem)
    refine ⟨file, hfile, fun hops => ?_⟩
    obtain ⟨k, slot, r, w, hk, hslot, hends, hside⟩ := hok.piped.file_end hfile hops
    have hflags := (hok.piped.slot_ok hslot).flags hends
    have hlive : s.table.live r || s.table.live w := by
      rcases hside with ⟨rfl, -⟩ | ⟨rfl, -⟩ <;> simp [FileTable.live, hfile]
    cases hpipe : slot.pipe with
    | none => simp [PipeSlot.flags, hpipe, endState, hlive] at hflags
    | some pipe => exact ⟨k, slot, pipe, hk, hslot, hpipe⟩

theorem tableOk_empty : TableOk ⟨[], [], 0⟩ 0 := by
  refine ⟨?_, ?_, rfl, ?_, ?_⟩ <;> simp [FileTable.file?]

theorem Inv.start : Inv FdSystem.start := by
  let p : FdProcess := ⟨Vector.replicate fdCount none, .running, none⟩
  have hrefs : p.refs + 0 = 0 := by simp [p, FdProcess.refs]
  have hlookup : ∀ i ∈ List.range 3, i < fdCount ∧ p.lookup i = none := by
    intro i hi
    have hlt : i < fdCount := Nat.lt_trans (List.mem_range.mp hi) (by decide)
    exact ⟨hlt, by simp [p, FdProcess.lookup, hlt]⟩
  obtain ⟨htable, hstate, htransfer⟩ :=
    foldl_install_ok List.nodup_range hlookup (hrefs ▸ tableOk_empty)
  have hmem : ∀ q ∈ FdSystem.start.procs, q.state = .running := by
    intro q hq
    rw [List.mem_singleton.mp hq]
    exact hstate
  refine ⟨?_, fun q hq hgone => ?_, fun q hq hne => absurd (hmem q hq) hne⟩
  · exact htable
  · simp [hmem q hq] at hgone

/-- **Reference counting**, in every state that any interleaving of calls reaches. -/
theorem refCounted_of_reach (s : FdSystem) (hrun : Reach FdSystem.step Always FdSystem.start s) :
    RefCounted s :=
  (hrun.invariant Inv.start fun _ _ _ h _ hs => h.step hs).refCounted

/-- A pipe is shared with a child, which reads from it; the parent closes both
ends, exits and is reaped while the child is inside its read. -/
def pipeRun : List FdAction :=
  [.call 0 (.pipe true .done), .fork 0 .done, .transfer 1 3 16 false true, .call 0 (.close 3),
    .call 0 (.close 4), .exit 0, .reap 0]

theorem refCounted_pipeRun :
    ∃ s, runSteps FdSystem.step FdSystem.start pipeRun = some s ∧
      (s.table.file? 3).map OpenFile.references = some 2 ∧ RefCounted s := by
  obtain ⟨s, hs⟩ : ∃ s, runSteps FdSystem.step FdSystem.start pipeRun = some s := ⟨_, rfl⟩
  have hrefs : ((runSteps FdSystem.step FdSystem.start pipeRun).map fun s =>
      (s.table.file? 3).map OpenFile.references) = some (some 2) := by decide +kernel
  rw [hs, Option.map_some, Option.some.injEq] at hrefs
  exact ⟨s, hs, hrefs, refCounted_of_reach s (.of_runSteps hs fun _ _ _ => trivial)⟩

/-! ## End of file -/

/-- In how many places processes hold the file. -/
def holders (s : FdSystem) (f : Nat) : Nat := s.slots f + s.transfers f

/-- When reads and writes on a pipe with the ends `r` and `w` wait, and when they end. -/
structure PipeLaw (s : FdSystem) (file : OpenFile) (pipe : Pipe) (r w : Nat) : Prop where
  read_waits : ∀ n io, 0 < n → (backend s.table file false n io = none ↔ pipe.used = 0 ∧
    0 < s.holders w)
  end_of_file : ∀ n io, 0 < n → ((backend s.table file false n io).map Prod.fst = some (.ok 0) ↔
    pipe.used = 0 ∧ s.holders w = 0)
  write_waits : ∀ n io, 0 < n → (backend s.table file true n io = none ↔
    pipe.used = pipeCapacity ∧ 0 < s.holders r)
  broken : ∀ n io, 0 < n →
    ((backend s.table file true n io).map Prod.fst = some (.error .pipe) ↔ s.holders r = 0)

/-- A file of a pipe, with the pipe and its two ends. -/
def Piping (s : FdSystem) (f : Nat) (file : OpenFile) : Prop :=
  ∃ k slot pipe r w, file.pipe = some k ∧ s.table.pipes[k]? = some slot ∧ slot.pipe = some pipe ∧
    slot.ends = some (r, w) ∧ (f = r ∨ f = w) ∧ PipeLaw s file pipe r w

theorem Inv.holders_pos {s : FdSystem} (h : Inv s) {f : Nat} (hf : f < s.table.files.length) :
    0 < s.holders f ↔ s.table.live f = true := by
  have hreleased := h.refCounted.released f hf
  rw [Nat.pos_iff_ne_zero, holders, ne_eq, ← hreleased, FileTable.live, Option.isSome_iff_ne_none]

/-- **No premature and no missing end of file.**  However descriptors have been
duplicated, inherited and closed: a read from a pipe finds its end, and a write is
refused, exactly when no process has the other end any more; and a process waits
only while some process could still wake it. -/
theorem pipe_end_of_file (s : FdSystem) (hrun : Reach FdSystem.step Always FdSystem.start s)
    (f : Nat) (file : OpenFile) (hf : s.table.file? f = some file) (hops : file.ops = .pipe) :
    Piping s f file := by
  have hinv : Inv s := hrun.invariant Inv.start fun _ _ _ h _ hs => h.step hs
  obtain ⟨k, slot, r, w, hk, hslot, hends, hside⟩ := hinv.table.piped.file_end hf hops
  have hfw : f = r ∨ f = w := hside.imp And.left And.left
  have hlive : s.table.live r || s.table.live w := by
    rcases hfw with rfl | rfl <;> simp [FileTable.live, hf]
  have hflags := (hinv.table.piped.slot_ok hslot).flags hends
  rw [endState, if_pos hlive, PipeSlot.flags] at hflags
  obtain ⟨pipe, hpipe, hpair⟩ := Option.map_eq_some_iff.mp hflags
  rw [Prod.mk.injEq] at hpair
  obtain ⟨-, hr, hw⟩ := (hinv.table.piped.slot_ok hslot).ends_lt hends
  have hreader : 0 < s.holders r ↔ pipe.reader = true := by rw [hinv.holders_pos hr, hpair.1]
  have hwriter : 0 < s.holders w ↔ pipe.writer = true := by rw [hinv.holders_pos hw, hpair.2]
  have hnoreader : s.holders r = 0 ↔ pipe.reader = false := by
    rw [← Bool.not_eq_true, ← hreader]
    omega
  have hnowriter : s.holders w = 0 ↔ pipe.writer = false := by
    rw [← Bool.not_eq_true, ← hwriter]
    omega
  refine ⟨k, slot, pipe, r, w, hk, hslot, hpipe, hends, hfw, ?_⟩
  have hread : ∀ n io, backend s.table file false n io = if pipe.used = 0 ∧
    pipe.writer = true then none
      else some (.ok (pipe.take n).1, { s.table with
        pipes := s.table.pipes.set k ⟨some (pipe.take n).2.2, slot.ends⟩ }) := by
    simp [backend, hops, hk, hslot, hpipe]
  have hwrite : ∀ n io, backend s.table file true n io =
      if pipe.used = pipeCapacity ∧ pipe.reader = true then none
      else if pipe.reader = false then some (.error .pipe, s.table)
      else some (.ok (pipe.put ((List.range n).map io.buffer)).1, { s.table with
        pipes := s.table.pipes.set k ⟨some (pipe.put ((List.range n).map io.buffer)).2, slot.ends⟩
        }) := by
    simp [backend, hops, hk, hslot, hpipe]
  constructor
  · intro n io _
    rw [hread, hwriter]
    simp
  · intro n io hn
    have hzero : (pipe.take n).1 = 0 ↔ pipe.used = 0 := by
      simp only [Pipe.take]
      split <;> omega
    rw [hread, hnowriter]
    split <;> simp_all
  · intro n io _
    rw [hwrite, hreader]
    split
    · simp_all
    · split <;> simp_all
  · intro n io _
    rw [hwrite, hnoreader]
    split
    · simp_all
    · split <;> simp_all

/-- The child of `pipeRun` alone has the two ends. -/
theorem pipeRun_piping : ∃ s file, runSteps FdSystem.step FdSystem.start pipeRun = some s ∧
    s.table.file? 3 = some file ∧ file.ops = .pipe ∧ Piping s 3 file := by
  obtain ⟨s, hs⟩ : ∃ s, runSteps FdSystem.step FdSystem.start pipeRun = some s := ⟨_, rfl⟩
  have hops : ((runSteps FdSystem.step FdSystem.start pipeRun).map fun s =>
      (s.table.file? 3).map OpenFile.ops) = some (some .pipe) := by decide +kernel
  rw [hs, Option.map_some, Option.some.injEq] at hops
  obtain ⟨file, hfile, hops⟩ := Option.map_eq_some_iff.mp hops
  exact ⟨s, file, hs, hfile, hops,
    pipe_end_of_file s (.of_runSteps hs fun _ _ _ => trivial) 3 file hfile hops⟩

end FdSystem

end MiniCore
