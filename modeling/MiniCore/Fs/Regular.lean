import MiniCore.Fs.Archive
import MiniCore.Mm.AddressSpace

/-!
# MiniCore.Fs.Regular

`regular_write` of `src/fs/vfs.c`: the loop over the pages of a tmpfs file.

The loop works on the node, on the offset of the open file and on memory; these
are carried along as one state, `Writing`.
-/

namespace MiniCore

open Lib

/-- The bytes of the largest tmpfs file. -/
def tmpFileSize : Nat := tmpFilePages * pageSize

/-- What `regular_write` changes: `*f->node`, `f->offset` and the machine. -/
structure Writing where
  node : Vnode
  offset : Nat
  machine : Machine

namespace Writing

variable (w : Writing)

/-- The page of the block at the offset. -/
def page : Nat := w.node.blocks (w.offset / pageSize)

/-- Allocate the block at the offset, zeroed, if it is not there. -/
def provide : Bool × Writing :=
  if w.page ≠ 0 then (true, w)
  else
    match pageAlloc w.machine with
    | (0, m) => (false, { w with machine := m })
    | (page, m) =>
      (true, { w with
        node := { w.node with blocks := Function.update w.node.blocks (w.offset / pageSize) page }
        machine := m.write page pageSize fun _ => 0 })

/-- The bytes that a round copies. -/
def part (size : Nat) : Nat := min (pageSize - pageOffset w.offset) size

/-- Copy into the block at the offset. -/
def store (part : Nat) (buffer : List UInt8) : Writing where
  node := { w.node with
    size := if w.node.size < w.offset + part then w.offset + part else w.node.size }
  offset := w.offset + part
  machine := w.machine.write (w.page + pageOffset w.offset) part fun i => buffer.getD i 0

end Writing

/-- The loop of `regular_write` with the bytes still to write; every round writes
at least one of them. -/
def writeLoop : Nat → List UInt8 → Nat → Writing → Except Errno Nat × Writing
  | 0, _, done, w => (.ok done, w)
  | rounds + 1, buffer, done, w =>
    if buffer = [] ∨ tmpFileSize ≤ w.offset then (.ok done, w)
    else
      match w.provide with
      | (false, w) => (if done = 0 then .error .nomem else .ok done, w)
      | (true, w) =>
        let part := w.part buffer.length
        writeLoop rounds (buffer.drop part) (done + part) (w.store part buffer)

/-- `regular_write`: `readonly` is `n->mount->readonly`, `append` the flag of the
open file. -/
def regularWrite (readonly append : Bool) (buffer : List UInt8) (w : Writing) :
    Except Errno Nat × Writing :=
  if readonly then (.error .rofs, w)
  else if w.node.type = .dir then (.error .isdir, w)
  else
    let w := if append then { w with offset := w.node.size } else w
    if tmpFileSize ≤ w.offset then (if buffer = [] then .ok 0 else .error .fbig, w)
    else writeLoop buffer.length buffer 0 w

end MiniCore
