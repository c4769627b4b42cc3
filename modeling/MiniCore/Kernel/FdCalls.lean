import MiniCore.Kernel.Fd
import MiniCore.Kernel.ExecRequest
import MiniCore.Kernel.Task

/-!
# MiniCore.Kernel.FdCalls

The file system calls of a process (`fd_syscall` and the functions below it in
`src/kernel/fd.c`), with paths and buffers in user memory and every open file
beside the namespace.

A read or write may sleep, on a pipe or on the console.  What the others do in
the meantime is given by a list of moves, one for each time the sleeper is woken;
nothing is assumed of a move.  A call returns the moves it did not wait for, and
`none` if it still sleeps after the last one.
-/

namespace MiniCore

open Lib

/-- `AT_FDCWD` as a register holds it. -/
def atFdcwd : Nat := 2 ^ 64 - 100

/-- `UINT32_MAX` -/
def uint32Max : Nat := 2 ^ 32 - 1

/-- `sizeof(buffer)` in `transfer` -/
def transferSize : Nat := 256

/-- `DT_DIR`, `DT_REG`, `DT_LNK` and `DT_CHR` -/
def NodeType.code : NodeType → Nat
  | dir => 4
  | reg => 8
  | lnk => 10
  | chr => 2

/-- A number as `n` bytes of memory. -/
def bytesLE (n v : Nat) : List UInt8 := (List.range n).map fun k => UInt8.ofNat (v / 256 ^ k)

/-- A directory entry as it lies in memory. -/
def DirectoryEntry.bytes (e : DirectoryEntry) : List UInt8 :=
  bytesLE 8 e.inode ++ bytesLE 4 e.type.code ++ bytesLE 4 0 ++
    (e.name ++ List.replicate (nameLimit - e.name.length) 0)

/-! ## User memory -/

/-- `copy_to_user` -/
def copyToUser (as : AddressSpace) (destination : Nat) (bytes : List UInt8) (m : Machine) :
    Bool × Machine :=
  let (ok, c) := addressSpaceCopy as (some fun i => bytes.getD i 0) destination bytes.length true m
  (ok, c.machine)

/-- A `copy_to_user` whose answer nobody looks at. -/
def FileSys.toUser (s : FileSys) (as : AddressSpace) (destination : Nat) (bytes : List UInt8) :
    FileSys :=
  { s with machine := (copyToUser as destination bytes s.machine).2 }

/-- The loop of `path_copy`, with room for `n` more bytes. -/
def pathCopyFrom (as : AddressSpace) (address : Nat) (m : Machine) :
    Nat → Nat → Except Errno (List UInt8)
  | 0, _ => .error .nametoolong
  | n + 1, i =>
    if 2 ^ 64 - 1 - i < address then .error .fault
    else
      match copyFromUser as (address + i) 1 m with
      | none => .error .fault
      | some byte =>
        if byte 0 = 0 then .ok [] else (pathCopyFrom as address m n (i + 1)).map (byte 0 :: ·)

def pathCopy (as : AddressSpace) (address : Nat) (m : Machine) : Except Errno (List UInt8) :=
  pathCopyFrom as address m pathLimit 0

/-! ## Sleeping -/

/-- What the others do while a call sleeps, one move for each time it is woken. -/
abbrev Others : Type := List (FileSys → FileSys)

/-- The state after all the moves. -/
def Others.after (others : Others) (s : FileSys) : FileSys := others.foldl (fun s move => move s) s

/-- A call that, as long as it has to sleep, goes on from where the others bring
the state. -/
def awake {α : Type} (call : FileSys → Option (α × FileSys)) :
    Others → FileSys → Option (α × FileSys × Others)
  | [], s => (call s).map fun r => (r.1, r.2, [])
  | move :: others, s =>
    match call s with
    | some (a, s) => some (a, s, move :: others)
    | none => awake call others (move s)

/-- `file_read`, to its end; a device or a pipe may sleep. -/
def FileSys.readAwake (s : FileSys) (f size : Nat) (others : Others) :
    Option (Except Errno (List UInt8) × FileSys × Others) :=
  match s.fileRead f size with
  | some (r, s) => some (r, s, others)
  | none =>
    match (s.file f).ops with
    | .device => (awake (fun s => s.deviceRead f size) others s).map fun r => (.ok r.1, r.2)
    | _ => (awake (fun s => s.pipeRead f size) others s).map fun r => (.ok r.1, r.2)

/-- `file_write`, to its end; only a pipe may sleep. -/
def FileSys.writeAwake (s : FileSys) (f : Nat) (buffer : List UInt8) (others : Others) :
    Option (Except Errno Nat × FileSys × Others) :=
  match s.fileWrite f buffer with
  | some (n, s) => some (n, s, others)
  | none => awake (fun s => s.pipeWrite f buffer) others s

/-! ## Transfers -/

/-- `copy_from_user` into the first bytes of `buffer`, whatever its answer is. -/
def fetchUser (as : AddressSpace) (address size : Nat) (buffer : Nat → UInt8) (m : Machine) :
    Nat → UInt8 :=
  (addressSpaceCopy as (some buffer) address size false m).2.buffer

/-- What a process is inside of: `transfer` of an open file from or to
`[address, address + size)`. -/
structure TransferCall where
  space : AddressSpace
  file : Nat
  address : Nat
  size : Nat
  writing : Bool

namespace TransferCall

variable (c : TransferCall)

/-- One chunk at `address + done`: what the backend answered, and the buffer. -/
def chunk (done size : Nat) (buffer : Nat → UInt8) (others : Others) (s : FileSys) :
    Option (Except Errno Nat × (Nat → UInt8) × FileSys × Others) :=
  if c.writing then
    let buffer := fetchUser c.space (c.address + done) size buffer s.machine
    (s.writeAwake c.file ((List.range size).map buffer) others).map fun (n, s, others) =>
      (n, buffer, s, others)
  else
    (s.readAwake c.file size others).map fun (r, s, others) =>
      match r with
      | .error e => (.error e, buffer, s, others)
      | .ok bytes =>
        (.ok bytes.length, fill buffer 0 bytes.length fun i => bytes.getD i 0,
          s.toUser c.space (c.address + done) bytes, others)

/-- The loop of `transfer`; every round but the last moves at least one byte. -/
def loop : Nat → Nat → (Nat → UInt8) → Others → FileSys →
    Option (Except Errno Nat × FileSys × Others)
  | 0, done, _, others, s => some (.ok done, s, others)
  | rounds + 1, done, buffer, others, s =>
    if c.size ≤ done then some (.ok done, s, others)
    else
      let size := min (c.size - done) transferSize
      match c.chunk done size buffer others s with
      | none => none
      | some (.error e, _, s, others) => some (if done = 0 then .error e else .ok done, s, others)
      | some (.ok n, buffer, s, others) =>
        if n = 0 then some (.ok done, s, others)
        else if n < size ∨ (c.writing = false ∧ (s.file c.file).ops ≠ .regular) then
          some (.ok (done + n), s, others)
        else loop rounds (done + n) buffer others s

end TransferCall

namespace Task

variable (p : Task)

/-- The table of a process, without the rest of it. -/
def table : FdProcess := ⟨p.fds, p.state, none⟩

def lookup (fd : Nat) : Option Nat := p.table.lookup fd

def setFd (fd : Nat) (f : Option Nat) : Task := { p with fds := (p.table.setFd fd f).fds }

/-- `empty_slot`, from `start` on. -/
def emptySlot (start : Nat) : Option Nat := p.table.emptySlot start

/-- `transfer`; `buffer` is what the stack holds before. -/
def transfer (fd address size : Nat) (writing : Bool) (buffer : Nat → UInt8) (others : Others)
    (s : FileSys) : Option (Except Errno Nat × FileSys × Others) :=
  match p.lookup fd with
  | none => some (.error .badf, s, others)
  | some f =>
    if (s.file f).flags &&& oAccmode = (if writing then oRdonly else oWronly) then
      some (.error .badf, s, others)
    else if int64Max < size ∨ addressSpaceValidate p.space address size (!writing)
      s.machine = false then
      some (.error .fault, s, others)
    else
      (TransferCall.loop ⟨p.space, f, address, size, writing⟩ size 0 buffer others
        (s.fileGet f)).map
        fun (r, s, others) => (r, s.filePut f, others)

variable {p}

/-- `transfer` of the file `f` gets to its loop. -/
structure Reaches (p : Task) (fd address size : Nat) (writing : Bool) (s : FileSys) (f : Nat) :
    Prop where
  lookup : p.lookup fd = some f
  mode : (s.file f).flags &&& oAccmode ≠ (if writing then oRdonly else oWronly)
  size_le : size ≤ int64Max
  valid : addressSpaceValidate p.space address size (!writing) s.machine = true

/-- **`transfer`** refuses at once, or goes through its loop with a reference. -/
theorem transfer_cases {fd address size : Nat} {writing : Bool} {buffer : Nat → UInt8}
    {others left : Others} {s s' : FileSys} {r : Except Errno Nat}
    (h : p.transfer fd address size writing buffer others s = some (r, s', left)) :
    (left = others ∧ s' = s ∧ (∀ f, ¬p.Reaches fd address size writing s f) ∧
      (r = .error .badf ∨ r = .error .fault ∧ (int64Max < size ∨
        addressSpaceValidate p.space address size (!writing) s.machine = false))) ∨
    ∃ f s1, p.Reaches fd address size writing s f ∧
      TransferCall.loop ⟨p.space, f, address, size, writing⟩ size 0 buffer others (s.fileGet f) =
        some (r, s1, left) ∧ s' = s1.filePut f := by
  unfold transfer at h
  cases hf : p.lookup fd with
  | none =>
    simp only [hf] at h
    cases h
    exact .inl ⟨rfl, rfl, fun f hr => by simpa [hf] using hr.lookup, .inl rfl⟩
  | some f =>
    have hthis : ∀ {g}, p.Reaches fd address size writing s g → g = f := fun hr =>
      (Option.some.inj (hf.symm.trans hr.lookup)).symm
    simp only [hf] at h
    by_cases hmode : (s.file f).flags &&& oAccmode = (if writing then oRdonly else oWronly)
    · rw [if_pos hmode] at h
      cases h
      exact .inl ⟨rfl, rfl, fun g hr => hr.mode (hthis hr ▸ hmode), .inl rfl⟩
    rw [if_neg hmode] at h
    split at h
    · next hbad =>
      cases h
      refine .inl ⟨rfl, rfl, fun g hr => ?_, .inr ⟨rfl, hbad⟩⟩
      exact hbad.elim (Nat.not_lt.mpr hr.size_le) fun hv => by simp [hr.valid] at hv
    next hgood =>
    obtain ⟨⟨r1, s1, left1⟩, hloop, heq⟩ := Option.map_eq_some_iff.mp h
    cases heq
    simp only [not_or, Nat.not_lt, Bool.not_eq_false] at hgood
    exact .inr ⟨f, s1, ⟨hf, hmode, hgood.1, hgood.2⟩, hloop, rfl⟩

variable (p)

/-! ## The other calls -/

/-- `SYS_CLOSE` -/
def close (fd : Nat) (s : FileSys) : Except Errno Nat × Task × FileSys :=
  match p.lookup fd with
  | none => (.error .badf, p, s)
  | some f => (.ok 0, p.setFd fd none, s.filePut f)

/-- `SYS_DUP`, or with a target `SYS_DUP2` -/
def dup (fd : Nat) (target : Option Nat) (s : FileSys) : Except Errno Nat × Task × FileSys :=
  match p.lookup fd with
  | none => (.error .badf, p, s)
  | some f =>
    match dupSlot p.table target with
    | .error e => (.error e, p, s)
    | .ok slot =>
      if slot = fd then (.ok slot, p, s)
      else
        let s := s.fileGet f
        let s := match p.lookup slot with
          | none => s
          | some g => s.filePut g
        (.ok slot, p.setFd slot (some f), s)

/-- The directory that a path is relative to. -/
def openBase (fd : Nat) (path : List UInt8) (s : FileSys) : Except Errno Nat :=
  if path.head? ≠ some slash ∧ fd ≠ atFdcwd then
    match p.lookup fd with
    | none => .error .badf
    | some f =>
      if (s.file f).node = 0 ∨ (s.nodeOf f).type ≠ .dir then .error .notdir else .ok (s.file f).node
  else .ok p.cwd

/-- `SYS_OPENAT` -/
def openat (fd address flags : Nat) (s : FileSys) : Except Errno Nat × Task × FileSys :=
  match pathCopy p.space address s.machine with
  | .error e => (.error e, p, s)
  | .ok path =>
    match p.openBase fd path s with
    | .error e => (.error e, p, s)
    | .ok base =>
      match p.emptySlot 0 with
      | none => (.error .mfile, p, s)
      | some slot =>
        if uint32Max < flags then (.error .inval, p, s)
        else
          match s.vfsOpenat p.root base path flags with
          | (.error e, s) => (.error e, p, s)
          | (.ok f, s) => (.ok slot, p.setFd slot (some f), s)

/-- `SYS_PIPE` -/
def pipe (address : Nat) (s : FileSys) : Except Errno Nat × Task × FileSys :=
  if addressSpaceValidate p.space address 8 true s.machine = false then (.error .fault, p, s)
  else
    match p.emptySlot 0 with
    | none => (.error .mfile, p, s)
    | some i =>
      match p.emptySlot (i + 1) with
      | none => (.error .mfile, p, s)
      | some j =>
        match s.pipeCreate with
        | (.error e, s) => (.error e, p, s)
        | (.ok (r, w), s) =>
          (.ok 0, (p.setFd i (some r)).setFd j (some w),
            s.toUser p.space address (bytesLE 4 i ++ bytesLE 4 j))

/-- The loop of `SYS_GETDENTS`. -/
def getdentsLoop (f address size : Nat) : Nat → Nat → FileSys → Except Errno Nat × FileSys
  | 0, done, s => (.ok done, s)
  | rounds + 1, done, s =>
    if size - done < directoryEntrySize then (.ok done, s)
    else
      match s.fileGetdents f directoryEntrySize with
      | (.error e, s) => (if done = 0 then .error e else .ok done, s)
      | (.ok [], s) => (.ok done, s)
      | (.ok (entry :: _), s) =>
        getdentsLoop f address size rounds (done + directoryEntrySize)
          (s.toUser p.space (address + done) entry.bytes)

/-- `SYS_GETDENTS` -/
def getdents (fd address size : Nat) (s : FileSys) : Except Errno Nat × Task × FileSys :=
  match p.lookup fd with
  | none => (.error .badf, p, s)
  | some f =>
    if size < directoryEntrySize then (.error .inval, p, s)
    else if int64Max < size ∨ addressSpaceValidate p.space address size true s.machine = false then
      (.error .fault, p, s)
    else
      let (r, s) := p.getdentsLoop f address size (size / directoryEntrySize) 0 s
      (r, p, s)

/-- `SYS_CHDIR` -/
def chdir (address : Nat) (s : FileSys) : Except Errno Nat × Task × FileSys :=
  match pathCopy p.space address s.machine with
  | .error e => (.error e, p, s)
  | .ok path =>
    match s.vfs.vfsResolve p.root p.cwd path false with
    | .error e => (.error e, p, s)
    | .ok node =>
      if (s.vfs.node node).type ≠ .dir then (.error .notdir, p, s)
      else (.ok 0, { p with cwd := node }, s)

/-- `SYS_GETCWD` -/
def getcwd (address size : Nat) (s : FileSys) : Except Errno Nat × Task × FileSys :=
  match s.vfs.vfsGetcwd p.root p.cwd pathLimit with
  | .error e => (.error e, p, s)
  | .ok path =>
    if size < path.length then (.error .inval, p, s)
    else
      let (ok, m) := copyToUser p.space address path s.machine
      (if ok then .ok path.length else .error .fault, p, { s with machine := m })

/-- `SYS_LSEEK` -/
def lseek (fd offset whence : Nat) (s : FileSys) : Except Errno Nat × Task × FileSys :=
  match p.lookup fd with
  | none => (.error .badf, p, s)
  | some f =>
    if uint32Max < whence then (.error .inval, p, s)
    else
      let (r, s) := s.fileSeek f (FileSys.toInt64 offset) whence
      (r.map Int.toNat, p, s)

/-! ## Dispatch -/

end Task

/-- The calls that `dispatch_syscall` hands to `fd_syscall`. -/
inductive FdNumber where
  | read | write | close | dup | dup2 | openat | pipe | getdents | chdir | getcwd | lseek
deriving DecidableEq, Repr

/-- A call that does not sleep. -/
def atOnce (others : Others) (r : Except Errno Nat × Task × FileSys) :
    Option (Except Errno Nat × Task × FileSys × Others) :=
  some (r.1, r.2.1, r.2.2, others)

/-- `fd_syscall` with `a0`, `a1` and `a2`. -/
def fdSyscall (number : FdNumber) (a b c : Nat) (buffer : Nat → UInt8) (others : Others) (p : Task)
    (s : FileSys) : Option (Except Errno Nat × Task × FileSys × Others) :=
  match number with
  | .read => (p.transfer a b c false buffer others s).map fun (r, s, others) => (r, p, s, others)
  | .write => (p.transfer a b c true buffer others s).map fun (r, s, others) => (r, p, s, others)
  | .close => atOnce others (p.close a s)
  | .dup => atOnce others (p.dup a none s)
  | .dup2 => atOnce others (p.dup a (some b) s)
  | .openat => atOnce others (p.openat a b c s)
  | .pipe => atOnce others (p.pipe a s)
  | .getdents => atOnce others (p.getdents a b c s)
  | .chdir => atOnce others (p.chdir a s)
  | .getcwd => atOnce others (p.getcwd a b s)
  | .lseek => atOnce others (p.lseek a b c s)

end MiniCore
