import MiniCore.Fs.Node

/-!
# MiniCore.Fs.Archive

The boot archive (`hex8`, `archive_node`, `vfs_init` and `vfs_shutdown` of
`src/fs/vfs.c`).

The archive is a list of bytes and a payload a function into it.  No sum of the
source wraps: each is bounded by the size of the archive, which lies in memory.
-/

namespace MiniCore

open Lib

/-! ## One entry -/

def hexDigit (c : UInt8) : Option Nat :=
  let c := c.toNat
  if 0x30 ≤ c ∧ c ≤ 0x39 then some (c - 0x30)
  else if 0x61 ≤ c ∧ c ≤ 0x66 then some (c - 0x61 + 10)
  else if 0x41 ≤ c ∧ c ≤ 0x46 then some (c - 0x41 + 10)
  else none

/-- `hex8` of the eight characters at an offset. -/
def hex8 (bytes : List UInt8) (offset : Nat) : Option Nat :=
  ((bytes.drop offset).take 8).foldlM (fun value c => (hexDigit c).map (value * 16 + ·)) 0

/-- What `vfs_init` reads of an entry: `next` is the offset of the one behind it. -/
structure ArchiveEntry where
  mode : Nat
  payload : Nat
  name : List UInt8
  dataoff : Nat
  next : Nat
deriving DecidableEq, Repr

/-- `(n + 3) & ~3` -/
def archiveAlign (n : Nat) : Nat := (n + 3) / 4 * 4

/-- The head of the loop in `vfs_init`; none where the source goes to `fail`. -/
def archiveEntry (bytes : List UInt8) (offset : Nat) : Option ArchiveEntry :=
  if (bytes.drop offset).take 6 ≠ bytesOf "070701" then none
  else
    match hex8 bytes (offset + 14), hex8 bytes (offset + 54), hex8 bytes (offset + 94) with
    | some mode, some payload, some namesize =>
      let nameoff := offset + 110
      if namesize = 0 ∨ pathLimit < namesize then none
      else if bytes.length - nameoff < namesize ∨
        bytes.getD (nameoff + namesize - 1) 0 ≠ 0 then none
      else
        let name := (bytes.drop nameoff).takeWhile (· ≠ 0)
        let dataoff := archiveAlign (nameoff + namesize)
        let next := archiveAlign (dataoff + payload)
        if name.length ≠ namesize - 1 then none
        else if bytes.length < dataoff ∨ bytes.length - dataoff < payload then none
        else if bytes.length < next then none
        else some ⟨mode, payload, name, dataoff, next⟩
    | _, _, _ => none

/-- The type of an archive mode. -/
def archiveType (mode : Nat) : Option NodeType :=
  if mode &&& 0o170000 = 0o040000 then some .dir
  else if mode &&& 0o170000 = 0o100000 then some .reg
  else if mode &&& 0o170000 = 0o120000 then some .lnk
  else none

/-- The walk in `archive_node`: the directory and the name of a new node. -/
def archivePlace (v : Vfs) : Nat → List UInt8 → Nat → Option (Nat × List UInt8)
  | 0, _, _ => none
  | rounds + 1, path, parent =>
    let name := path.takeWhile (· ≠ slash)
    if name = [] ∨ nameLimit ≤ name.length then none
    else if name = bytesOf "." ∨ name = bytesOf ".." then none
    else
      match path.dropWhile (· ≠ slash) with
      | [] => some (parent, name)
      | _ :: rest =>
        match v.child parent name with
        | none => none
        | some p => if (v.node p).type = .dir then archivePlace v rounds rest p else none

/-- What `archive_node` asks of a node's payload. -/
def payloadOk (type : NodeType) (data : Nat → UInt8) (size : Nat) : Bool :=
  match type with
  | .dir => size = 0
  | .lnk => size ≠ 0 && size < pathLimit && (List.range size).all fun i => data i ≠ 0
  | _ => true

def archiveNode (path : List UInt8) (data : Nat → UInt8) (size mode : Nat) (v : Vfs) (m : Machine) :
    Bool × Vfs × Machine :=
  if path = bytesOf "." then (mode &&& 0o170000 = 0o040000, v, m)
  else
    match archivePlace v path.length path v.root with
    | none => (false, v, m)
    | some (parent, name) =>
      if (v.child parent name).isSome then (false, v, m)
      else
        match archiveType mode with
        | none => (false, v, m)
        | some type =>
          if payloadOk type data size = false then (false, v, m)
          else
            match v.newNode (some parent) name type 0 m with
            | (0, v, m) => (false, v, m)
            | (n, v, m) =>
              (true, v.setNode n { v.node n with data := some data, size := size }, m)

/-! ## The end -/

/-- `TMP_FILE_PAGES` -/
def tmpFilePages : Nat := 16

/-- `page_free` of every block of a node. -/
def freeBlocks (n : Vnode) (m : Machine) : Machine :=
  (List.range tmpFilePages).foldl (fun m i => if n.blocks i = 0 then m else pageFree (n.blocks i) m)
    m

def vfsShutdown (v : Vfs) (m : Machine) : Vfs × Machine :=
  ({ v with nodes := [], mounts := fun _ => ⟨0, 0, false⟩ },
    v.nodes.foldl (fun m n => kfree n (freeBlocks (v.node n).toVnode m)) m)

/-! ## The beginning -/

/-- The loop of `vfs_init`: whether it ends at the trailer.  Each entry is longer
than its header, so it goes at most once for each byte. -/
def archiveLoop (bytes : List UInt8) : Nat → Nat → Vfs → Machine → Bool × Vfs × Machine
  | 0, _, v, m => (false, v, m)
  | rounds + 1, offset, v, m =>
    if offset ≤ bytes.length ∧ 110 ≤ bytes.length - offset then
      match archiveEntry bytes offset with
      | none => (false, v, m)
      | some e =>
        if e.name = bytesOf "TRAILER!!!" then (e.payload = 0, v, m)
        else
          match archiveNode e.name (fun i => bytes.getD (e.dataoff + i) 0) e.payload e.mode v m with
          | (false, v, m) => (false, v, m)
          | (true, v, m) => archiveLoop bytes rounds e.next v m
    else (false, v, m)

/-- The covered directory of a boot mount: it is made if the archive has none. -/
def coveredNode (name : List UInt8) (v : Vfs) (m : Machine) : Nat × Vfs × Machine :=
  match v.child v.root name with
  | some c => (c, v, m)
  | none => v.newNode (some v.root) name .dir 0 m

/-- One round of the loop over the boot mounts. -/
def bootMount (i : Nat) (name : List UInt8) (v : Vfs) (m : Machine) : Bool × Vfs × Machine :=
  match coveredNode name v m with
  | (0, v, m) => (false, v, m)
  | (covered, v, m) =>
    if (v.node covered).type ≠ .dir then (false, v, m)
    else
      let v := v.setMount i { v.mounts i with covered := covered, readonly := i = 2 }
      match v.newNode none [] .dir i m with
      | (0, v, m) => (false, v.setMount i { v.mounts i with root := 0 }, m)
      | (n, v, m) =>
        let v := v.setMount i { v.mounts i with root := n }
        (true, v.setNode covered { v.node covered with mounted := some i }, m)

/-- One device of `/dev`. -/
def bootDevice (name : List UInt8) (v : Vfs) (m : Machine) : Bool × Vfs × Machine :=
  match v.newNode (some (v.mounts 2).root) name .chr 2 m with
  | (0, v, m) => (false, v, m)
  | (_, v, m) => (true, v, m)

/-- `&&` of two parts of `vfs_init`. -/
def andThen (r : Bool × Vfs × Machine) (next : Vfs → Machine → Bool × Vfs × Machine) :
    Bool × Vfs × Machine :=
  match r with
  | (false, v, m) => (false, v, m)
  | (true, v, m) => next v m

/-- `vfs_init` from the archive's first entry to the last device. -/
def populate (bytes : List UInt8) (v : Vfs) (m : Machine) : Bool × Vfs × Machine :=
  andThen (andThen (andThen (andThen (archiveLoop bytes (bytes.length + 1) 0 v m)
    (bootMount 1 (bytesOf "tmp"))) (bootMount 2 (bytesOf "dev")))
    (bootDevice (bytesOf "console"))) (bootDevice (bytesOf "null"))

/-- `vfs_init`; a null archive is `none`. -/
def vfsInit (archive : Option (List UInt8)) (v : Vfs) (m : Machine) : Bool × Vfs × Machine :=
  match archive with
  | none => (false, v, m)
  | some bytes =>
    if v.nodes ≠ [] then (false, v, m)
    else
      let v := { v with nextInode := 1 }.setMount 0 { v.mounts 0 with readonly := true }
      match v.newNode none [] .dir 0 m with
      | (0, v, m) => (false, v.setMount 0 { v.mounts 0 with root := 0 }, m)
      | (n, v, m) =>
        match populate bytes (v.setMount 0 { v.mounts 0 with root := n }) m with
        | (true, v, m) => (true, v, m)
        | (false, v, m) => (false, vfsShutdown v m)

end MiniCore
