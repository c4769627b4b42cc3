import MiniCore.Abi
import MiniCore.Lib.Chunks
import MiniCore.Mm.Layout

/-!
# MiniCore.Fs.File

Positioned reads from open files (`regular_pread` and `file_pread` in
`src/fs/vfs.c`), as `mmap` and the ELF loader use them.

A read returns the bytes it puts into the caller's buffer; the caller's model
says where that buffer is.  Tmpfs blocks are physical pages and are read from
memory; an archive payload is part of the kernel image.  Names, mounts, inode
numbers and reference counts play no part here.
-/

namespace MiniCore

open Lib

/-- `struct vnode`: `data` is the archive payload if there is one, `blocks` the
tmpfs pages, 0 where a block was never written. -/
structure Vnode where
  type : NodeType
  data : Option (Nat → UInt8)
  size : Nat
  blocks : Nat → Nat

/-- Which `struct file_ops` a file has; only regular files have a `pread`. -/
inductive FileOps where
  | regular | device | pipe
deriving DecidableEq, Repr

/-- `struct file` as `file_pread` reads it: neither the offset nor the number of
references is read or written. -/
structure File where
  ops : FileOps
  node : Option Vnode
  flags : Nat

variable {f : File} {mem : Memory} {n : Vnode}

/-- The bytes of one block of a tmpfs file, zero where there is no page. -/
def blockBytes (mem : Memory) (n : Vnode) (off part : Nat) : List UInt8 :=
  let page := n.blocks (off / pageSize)
  (List.range part).map fun i => if page = 0 then 0 else mem (page + pageOffset off + i)

def regularPread (mem : Memory) (n : Vnode) (size off : Nat) : Except Errno (List UInt8) :=
  if n.type = .dir then .error .isdir
  else if n.size ≤ off then .ok []
  else
    let size := min size (n.size - off)
    match n.data with
    | some data => .ok ((List.range size).map fun i => data (off + i))
    | none => .ok ((chunks pageSize off size).flatMap fun c => blockBytes mem n c.1 c.2)

/-- `file_pread`.  The source calls the operation of a file without looking at
its node: regular files always have one. -/
def filePread (mem : Memory) (f : File) (size offset : Nat) : Except Errno (List UInt8) :=
  if f.flags &&& oAccmode = oWronly then .error .badf
  else
    match f.ops, f.node with
    | .regular, some n => regularPread mem n size offset
    | _, _ => .error .spipe

def fileSize (f : File) : Nat := (f.node.map Vnode.size).getD 0

/-! ## A read fits its buffer -/

theorem length_flatMap_chunked {f : Nat × Nat → List UInt8} (hf : ∀ c, (f c).length = c.2)
    {address size : Nat} {l : List (Nat × Nat)} (h : Chunked pageSize address size l) :
    (l.flatMap f).length = size := by
  induction h with
  | nil => rfl
  | cons address chunk size rest _ _ _ ih => rw [List.flatMap_cons, List.length_append, hf, ih]

/-- **A read never overruns the buffer it was given.** -/
theorem filePread_length {size offset : Nat} {bytes : List UInt8}
    (h : filePread mem f size offset = .ok bytes) : bytes.length ≤ size := by
  have hreg : ∀ n : Vnode, regularPread mem n size offset = .ok bytes → bytes.length ≤ size := by
    intro n hn
    unfold regularPread at hn
    split at hn
    · cases hn
    split at hn
    · cases hn
      exact Nat.zero_le _
    cases hd : n.data with
    | some data =>
      simp only [hd] at hn
      cases hn
      simp
    | none =>
      simp only [hd] at hn
      cases hn
      rw [length_flatMap_chunked (by simp [blockBytes]) (chunked (by decide) _ _)]
      exact Nat.min_le_left _ _
  unfold filePread at h
  split at h
  · cases h
  split at h
  · exact hreg _ h
  · cases h

/-! ## What is read -/

/-- The byte of a file at an offset. -/
def Vnode.byte (mem : Memory) (n : Vnode) (i : Nat) : UInt8 :=
  match n.data with
  | some data => data i
  | none => if n.blocks (i / pageSize) = 0 then 0 else mem (n.blocks (i / pageSize) + pageOffset i)

/-- The contents of a file. -/
def Vnode.contents (mem : Memory) (n : Vnode) : List UInt8 := (List.range n.size).map (n.byte mem)

/-- An open regular file, readable. -/
structure File.Reads (f : File) (n : Vnode) : Prop where
  ops : f.ops = .regular
  node : f.node = some n
  file : n.type ≠ .dir
  readable : f.flags &&& oAccmode ≠ oWronly

theorem blockBytes_eq (hd : n.data = none) {off part : Nat}
    (hin : off % pageSize + part ≤ pageSize) :
    blockBytes mem n off part = (List.range part).map fun i => n.byte mem (off + i) := by
  refine List.map_congr_left fun i hi => ?_
  have hi := List.mem_range.mp hi
  have hblock : (off + i) / pageSize = off / pageSize := by
    unfold pageSize at hin ⊢
    omega
  have hoff : pageOffset (off + i) = pageOffset off + i := by
    rw [pageOffset_eq, pageOffset_eq]
    unfold pageSize at hin
    omega
  simp only [Vnode.byte, hd, hblock, hoff, Nat.add_assoc]

/-- **`file_pread`** of a regular file returns the bytes from the offset on, as
many as there are. -/
theorem filePread_eq (h : f.Reads n) (size offset : Nat) : filePread mem f size offset =
      .ok ((List.range (min size (n.size - offset))).map fun i => n.byte mem (offset + i)) := by
  rw [filePread, if_neg h.readable, h.ops, h.node]
  dsimp only
  rw [regularPread, if_neg h.file]
  split
  · next hle => simp [Nat.sub_eq_zero_of_le hle]
  cases hd : n.data with
  | some data => simp only [Vnode.byte, hd]
  | none =>
    dsimp only
    rw [(chunked (by decide) _ _).flatMap fun c hin => blockBytes_eq hd hin]

theorem fileSize_eq (h : f.Reads n) : fileSize f = n.size := by
  rw [fileSize, h.node]
  rfl

/-- A file is read alike wherever its blocks are the same. -/
theorem Vnode.byte_congr {mem' : Memory} {i : Nat}
    (h : n.data = none → n.blocks (i / pageSize) ≠ 0 →
      Set.EqOn mem' mem (pageBytes (n.blocks (i / pageSize)))) : n.byte mem' i = n.byte mem i := by
  unfold Vnode.byte
  cases hd : n.data with
  | some data => rfl
  | none =>
    dsimp only
    split
    · rfl
    next hne =>
    have hoff : pageOffset i < 4096 := Nat.mod_lt _ (by decide)
    exact h hd hne ⟨Nat.le_add_right _ _, Nat.add_lt_add_left hoff _⟩

end MiniCore
