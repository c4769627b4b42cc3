import MiniCore.Fs.Regular
import MiniCore.Fs.OpenFiles

/-!
# MiniCore.Fs.Vfs

Open files over the namespace (`src/fs/vfs.c` from `file_new` on, `pipe_read`,
`pipe_write` and `pipe_create` of `src/fs/pipe.c`), with every allocation made on
the machine.

Files and pipes are known by the addresses of their records here, as nodes are;
`files` and `pipes` list the ones that are allocated, which no function reads.
The console is the input that has arrived and the output so far.  A read or
write that has to sleep returns `none`.
-/

namespace MiniCore

open Lib

/-- `sizeof(struct file)` -/
def fileRecordSize : Nat := 48

/-- `sizeof(struct pipe)` -/
def pipeRecordSize : Nat := 576

/-- `sizeof(struct directory_entry)` -/
def directoryEntrySize : Nat := 80

/-- `struct file`; `node` is 0 for a pipe. -/
structure Description extends OpenFile where
  node : Nat
  offset : Nat
deriving DecidableEq, Repr

structure FileSys where
  machine : Machine
  vfs : Vfs
  files : List Nat
  file : Nat → Description
  pipes : List Nat
  pipe : Nat → Pipe
  liveFiles : Nat
  input : List UInt8
  output : List UInt8

/-- `struct directory_entry` -/
structure DirectoryEntry where
  inode : Nat
  type : NodeType
  name : List UInt8
deriving DecidableEq, Repr

namespace FileSys

variable (s : FileSys)

def setFile (f : Nat) (x : Description) : FileSys := { s with file := Function.update s.file f x }

def setPipe (p : Nat) (x : Pipe) : FileSys := { s with pipe := Function.update s.pipe p x }

/-- `f->node` -/
def nodeOf (f : Nat) : Node := s.vfs.node (s.file f).node

/-- An open file as its readers see it. -/
def asFile (f : Nat) : File where
  ops := (s.file f).ops
  node := if (s.file f).node = 0 then none else some (s.nodeOf f).toVnode
  flags := (s.file f).flags

/-! ## Reference counts -/

/-- `file_new`; 0 on failure. -/
def fileNew (ops : FileOps) (flags : Nat) : Nat × FileSys :=
  match kmalloc fileRecordSize s.machine with
  | (0, m) => (0, { s with machine := m })
  | (f, m) =>
    (f, { s with
      machine := m
      files := s.files ++ [f]
      file := Function.update s.file f
        { ops := ops, flags := flags, pipe := none, references := 1, node := 0, offset := 0 }
      liveFiles := s.liveFiles + 1 })

/-- `file_get` of a file that is there. -/
def fileGet (f : Nat) : FileSys :=
  s.setFile f { s.file f with references := (s.file f).references + 1 }

def pipeRelease (f : Nat) : FileSys :=
  let p := (s.file f).pipe.getD 0
  let pipe :=
    (s.pipe p).close (if (s.file f).flags &&& oAccmode = oRdonly then .reader else .writer)
  let s := s.setPipe p pipe
  if !pipe.reader && !pipe.writer then
    { s with machine := kfree p s.machine, pipes := s.pipes.erase p }
  else s

/-- `file_put` of a file that is there. -/
def filePut (f : Nat) : FileSys :=
  let s := s.setFile f { s.file f with references := (s.file f).references - 1 }
  if (s.file f).references = 0 then
    let s := if (s.file f).ops = .pipe then s.pipeRelease f else s
    { s with liveFiles := s.liveFiles - 1, machine := kfree f s.machine, files := s.files.erase f }
  else s

/-! ## Opening -/

def openAllowed : Nat :=
  oAccmode ||| oCreat ||| oExcl ||| oTrunc ||| oAppend ||| oDirectory ||| oNofollow

/-- The flags that `vfs_openat` refuses. -/
def badFlags (flags : Nat) : Prop :=
  flags &&& openAllowed ≠ flags ∨ flags &&& oAccmode = 3 ∨
    (flags &&& oTrunc ≠ 0 ∧ flags &&& oAccmode = 0)

instance decidableBadFlags (flags : Nat) : Decidable (badFlags flags) := by
  unfold badFlags
  infer_instance

/-- The part of a path up to its last slash, and the rest. -/
def splitPath (path : List UInt8) : List UInt8 × List UInt8 :=
  ((path.reverse.dropWhile (· ≠ slash)).reverse, (path.reverse.takeWhile (· ≠ slash)).reverse)

/-- The creation in `vfs_openat`. -/
def openCreate (root base : Nat) (path : List UInt8) : Except Errno Nat × FileSys :=
  if path = [] ∨ pathLimit ≤ path.length ∨ path.getLast? = some slash then (.error .inval, s)
  else
    let (parentPath, name) := splitPath path
    if nameLimit ≤ name.length then (.error .nametoolong, s)
    else
      match if parentPath = [] then .ok base else s.vfs.vfsResolve root base parentPath false with
      | .error e => (.error e, s)
      | .ok parent =>
        if (s.vfs.node parent).type ≠ .dir then (.error .notdir, s)
        else if (s.vfs.mountOf parent).readonly then (.error .rofs, s)
        else if (s.vfs.child parent name).isSome then (.error .noent, s)
        else
          match s.vfs.newNode (some parent) name .reg (s.vfs.node parent).mount s.machine with
          | (0, v, m) => (.error .nomem, { s with vfs := v, machine := m })
          | (n, v, m) => (.ok n, { s with vfs := v, machine := m })

/-- The node that `vfs_openat` opens, and whether it has just been created. -/
def openNode (root base : Nat) (path : List UInt8) (flags : Nat) :
    Except Errno (Nat × Bool) × FileSys :=
  match s.vfs.vfsResolve root base path (flags &&& oNofollow ≠ 0) with
  | .ok n =>
    if flags &&& (oCreat ||| oExcl) = oCreat ||| oExcl then (.error .exist, s)
      else (.ok (n, false), s)
  | .error e =>
    if e = .noent ∧ flags &&& oCreat ≠ 0 then
      match s.openCreate root base path with
      | (.error e, s) => (.error e, s)
      | (.ok n, s) => (.ok (n, true), s)
    else (.error e, s)

/-- What `vfs_openat` finds wrong with opening a node. -/
def openCheck (n flags : Nat) : Option Errno :=
  if flags &&& oDirectory ≠ 0 ∧ (s.vfs.node n).type ≠ .dir then some .notdir
  else if flags &&& oAccmode ≠ 0 ∧ (s.vfs.node n).type = .dir then some .isdir
  else if flags &&& oAccmode ≠ 0 ∧ (s.vfs.node n).type = .reg ∧
    (s.vfs.mountOf n).readonly then some .rofs
  else none

/-- `rollback` -/
def rollback (n : Nat) (created : Bool) : FileSys :=
  if created then { s with vfs := s.vfs.dropNode n, machine := kfree n s.machine } else s

/-- `O_TRUNC` -/
def truncate (n : Nat) : FileSys :=
  { s with
    vfs := s.vfs.setNode n { s.vfs.node n with blocks := fun _ => 0, size := 0 }
    machine := freeBlocks (s.vfs.node n).toVnode s.machine }

/-- `vfs_openat` -/
def vfsOpenat (root base : Nat) (path : List UInt8) (flags : Nat) : Except Errno Nat × FileSys :=
  if badFlags flags then (.error .inval, s)
  else
    match s.openNode root base path flags with
    | (.error e, s) => (.error e, s)
    | (.ok (n, created), s) =>
      match s.openCheck n flags with
      | some e => (.error e, s.rollback n created)
      | none =>
        match s.fileNew (if (s.vfs.node n).type = .chr then .device else .regular) flags with
        | (0, s) => (.error .nomem, s.rollback n created)
        | (f, s) =>
          let s := s.setFile f { s.file f with node := n }
          (.ok f, if flags &&& oTrunc ≠ 0 then s.truncate n else s)

/-! ## Reading -/

/-- `device_read` -/
def deviceRead (f size : Nat) : Option (List UInt8 × FileSys) :=
  if (s.nodeOf f).name = bytesOf "null" ∨ size = 0 then some ([], s)
  else if s.input = [] then none
  else some (s.input.take size, { s with input := s.input.drop size })

/-- `pipe_read` -/
def pipeRead (f size : Nat) : Option (List UInt8 × FileSys) :=
  let p := (s.file f).pipe.getD 0
  if size = 0 then some ([], s)
  else if (s.pipe p).used = 0 ∧ (s.pipe p).writer = true then none
  else
    let (_, bytes, pipe) := (s.pipe p).take size
    some (bytes, s.setPipe p pipe)

/-- `file_read`: the bytes put into the buffer. -/
def fileRead (f size : Nat) : Option (Except Errno (List UInt8) × FileSys) :=
  if (s.file f).flags &&& oAccmode = oWronly then some (.error .badf, s)
  else
    match (s.file f).ops with
    | .device => (s.deviceRead f size).map fun r => (.ok r.1, r.2)
    | .pipe => (s.pipeRead f size).map fun r => (.ok r.1, r.2)
    | .regular =>
      match regularPread s.machine.mem (s.nodeOf f).toVnode size (s.file f).offset with
      | .error e => some (.error e, s)
      | .ok bytes =>
        some (.ok bytes, s.setFile f { s.file f with offset := (s.file f).offset + bytes.length })

/-! ## Writing -/

/-- `device_write` -/
def deviceWrite (f : Nat) (buffer : List UInt8) : Nat × FileSys :=
  (buffer.length,
    if (s.nodeOf f).name = bytesOf "null" then s else { s with output := s.output ++ buffer })

/-- `pipe_write` -/
def pipeWrite (f : Nat) (buffer : List UInt8) : Option (Except Errno Nat × FileSys) :=
  let p := (s.file f).pipe.getD 0
  if buffer = [] then some (.ok 0, s)
  else if (s.pipe p).used = pipeCapacity ∧ (s.pipe p).reader = true then none
  else if (s.pipe p).reader = false then some (.error .pipe, s)
  else
    let (n, pipe) := (s.pipe p).put buffer
    some (.ok n, s.setPipe p pipe)

/-- What `regular_write` works on. -/
def writing (f : Nat) : Writing := ⟨(s.nodeOf f).toVnode, (s.file f).offset, s.machine⟩

/-- What `regular_write` leaves behind. -/
def written (f : Nat) (w : Writing) : FileSys :=
  { s with
    machine := w.machine
    file := Function.update s.file f { s.file f with offset := w.offset }
    vfs := s.vfs.setNode (s.file f).node { s.nodeOf f with toVnode := w.node } }

/-- `file_write` -/
def fileWrite (f : Nat) (buffer : List UInt8) : Option (Except Errno Nat × FileSys) :=
  if (s.file f).flags &&& oAccmode = 0 then some (.error .badf, s)
  else
    match (s.file f).ops with
    | .device => some (.ok (s.deviceWrite f buffer).1, (s.deviceWrite f buffer).2)
    | .pipe => s.pipeWrite f buffer
    | .regular =>
      let (n, w) := regularWrite (s.vfs.mountOf (s.file f).node).readonly
        ((s.file f).flags &&& oAppend ≠ 0) buffer (s.writing f)
      some (n, s.written f w)

/-! ## Positions and directories -/

/-- A `uint64_t` as an `int64_t`. -/
def toInt64 (x : Nat) : Int := if x < 2 ^ 63 then x else x - 2 ^ 64

/-- `base` in `file_seek` -/
def seekBase (f whence : Nat) : Int :=
  if whence = seekSet then 0
  else if whence = seekCur then toInt64 (s.file f).offset
  else toInt64 (s.nodeOf f).size

/-- `file_seek` -/
def fileSeek (f : Nat) (offset : Int) (whence : Nat) : Except Errno Int × FileSys :=
  if (s.file f).node = 0 ∨ (s.nodeOf f).type ≠ .reg then (.error .spipe, s)
  else
    let base := s.seekBase f whence
    if seekEnd < whence ∨ offset < -base ∨ 2 ^ 63 - 1 - base < offset then (.error .inval, s)
    else (.ok (base + offset), s.setFile f { s.file f with offset := (base + offset).toNat })

/-- `file_getdents`: the entries put into the buffer. -/
def fileGetdents (f size : Nat) : Except Errno (List DirectoryEntry) × FileSys :=
  if (s.file f).node = 0 ∨ (s.nodeOf f).type ≠ .dir then (.error .notdir, s)
  else if size < directoryEntrySize then (.error .inval, s)
  else
    let shown := ((s.nodeOf f).children.drop (s.file f).offset).take (size / directoryEntrySize)
    (.ok (shown.map fun n => ⟨(s.vfs.node n).inode, (s.vfs.node n).type, (s.vfs.node n).name⟩),
      s.setFile f { s.file f with offset := (s.file f).offset + shown.length })

/-! ## Pipes -/

/-- `pipe_create` -/
def pipeCreate : Except Errno (Nat × Nat) × FileSys :=
  match kmalloc pipeRecordSize s.machine with
  | (0, m) => (.error .nomem, { s with machine := m })
  | (p, m) =>
    let s := { s with machine := m, pipes := s.pipes ++ [p] }
    match s.fileNew .pipe oRdonly with
    | (0, s) => (.error .nomem, { s with machine := kfree p s.machine, pipes := s.pipes.erase p })
    | (r, s) =>
      let s := s.setPipe p { Pipe.fresh with writer := false }
      let s := s.setFile r { s.file r with pipe := some p }
      match s.fileNew .pipe oWronly with
      | (0, s) => (.error .nomem, s.filePut r)
      | (w, s) =>
        let s := s.setFile w { s.file w with pipe := some p }
        (.ok (r, w), s.setPipe p { s.pipe p with writer := true })

/-! ## Beginning and end -/

/-- `vfs_init` -/
def init (archive : Option (List UInt8)) : Bool × FileSys :=
  let (ok, v, m) := vfsInit archive s.vfs s.machine
  (ok, { s with vfs := v, machine := m })

/-- `vfs_shutdown` -/
def shutdown : FileSys :=
  let (v, m) := vfsShutdown s.vfs s.machine
  { s with vfs := v, machine := m }

end FileSys

/-! ## Runs -/

/-- A call into the file system. -/
inductive FsCall where
  | openat (root base : Nat) (path : List UInt8) (flags : Nat)
  | get (f : Nat)
  | put (f : Nat)
  | read (f size : Nat)
  | write (f : Nat) (buffer : List UInt8)
  | seek (f : Nat) (offset : Int) (whence : Nat)
  | getdents (f size : Nat)

/-- One call; its pointers lead to nodes and files that are there, and it does
not have to sleep. -/
def fsStep (s : FileSys) : FsCall → Option FileSys
  | .openat root base path flags =>
    if root ∈ s.vfs.nodes ∧ base ∈ s.vfs.nodes then some (s.vfsOpenat root base path flags).2
      else none
  | .get f => if f ∈ s.files then some (s.fileGet f) else none
  | .put f => if f ∈ s.files then some (s.filePut f) else none
  | .read f size => if f ∈ s.files then (s.fileRead f size).map Prod.snd else none
  | .write f buffer => if f ∈ s.files then (s.fileWrite f buffer).map Prod.snd else none
  | .seek f offset whence => if f ∈ s.files then some (s.fileSeek f offset whence).2 else none
  | .getdents f size => if f ∈ s.files then some (s.fileGetdents f size).2 else none

end MiniCore
