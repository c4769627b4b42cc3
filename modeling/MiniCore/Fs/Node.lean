import MiniCore.Fs.File
import MiniCore.Mm.Heap

/-!
# MiniCore.Fs.Node

The namespace of `src/fs/vfs.c`: nodes, mounts, and the walks along paths
(`new_node`, `child`, `vfs_resolve`, `vfs_getcwd`).

A node is known by the address of its record.  A name or a path is the list of
its bytes before the terminating zero; `vfs_resolve` reads `work` from `cursor`
on only, so its loop carries that part of the buffer.  `next_inode` is a number:
2⁶⁴ new nodes, after which an inode would come again, are out of reach.
-/

namespace MiniCore

open Lib

/-! ## Nodes and mounts -/

/-- `sizeof(struct vnode)` -/
def vnodeSize : Nat := 296

/-- `struct vnode` with its place in the namespace; `mount` and `mounted` are
positions in `mounts`. -/
structure Node extends Vnode where
  name : List UInt8
  inode : Nat
  parent : Nat
  mount : Nat
  mounted : Option Nat
  children : List Nat

/-- `struct mount`; 0 is the null pointer. -/
structure Mount where
  root : Nat
  covered : Nat
  readonly : Bool

/-- `nodes`, `mounts` and `next_inode`, with the nodes at their addresses. -/
structure Vfs where
  nodes : List Nat
  node : Nat → Node
  mounts : Nat → Mount
  nextInode : Nat

namespace Vfs

variable (v : Vfs)

@[simps nodes]
def setNode (n : Nat) (x : Node) : Vfs := { v with node := Function.update v.node n x }

@[simps nodes]
def setMount (i : Nat) (x : Mount) : Vfs := { v with mounts := Function.update v.mounts i x }

/-- `vfs_root` -/
def root : Nat := (v.mounts 0).root

/-- `n->mount` -/
def mountOf (n : Nat) : Mount := v.mounts (v.node n).mount

def child (parent : Nat) (name : List UInt8) : Option Nat :=
  (v.node parent).children.find? fun n => (v.node n).name = name

/-- The record that `new_node` fills, in zeroed memory. -/
def freshNode (n : Nat) (parent : Option Nat) (name : List UInt8) (type : NodeType) (mount : Nat) :
    Node where
  type := type
  data := none
  size := 0
  blocks := fun _ => 0
  name := name
  inode := v.nextInode
  parent := parent.getD n
  mount := mount
  mounted := none
  children := []

/-- `list_push_back(&parent->children, &n->sibling)` -/
def link (parent n : Nat) : Vfs :=
  v.setNode parent { v.node parent with children := (v.node parent).children ++ [n] }

/-- `list_remove(&n->sibling)` -/
def unlink (parent n : Nat) : Vfs :=
  v.setNode parent { v.node parent with children := (v.node parent).children.erase n }

/-- `new_node` once it has its record. -/
def addNode (n : Nat) (parent : Option Nat) (name : List UInt8) (type : NodeType) (mount : Nat) :
    Vfs :=
  let fresh := v.setNode n (v.freshNode n parent name type mount)
  let linked := parent.elim fresh fun p => fresh.link p n
  { linked with nodes := v.nodes ++ [n], nextInode := v.nextInode + 1 }

/-- The rollback of `vfs_openat`, up to the `kfree`. -/
def dropNode (n : Nat) : Vfs :=
  { v.unlink (v.node n).parent n with nodes := v.nodes.erase n }

/-- `new_node`; 0 on failure. -/
def newNode (parent : Option Nat) (name : List UInt8) (type : NodeType) (mount : Nat)
    (m : Machine) :
    Nat × Vfs × Machine :=
  match kmalloc vnodeSize m with
  | (0, m) => (0, v, m)
  | (n, m) => (n, v.addNode n parent name type mount, m)

end Vfs

/-! ## Paths -/

/-- The character between the names of a path. -/
def slash : UInt8 := 0x2f

namespace Vfs

variable (v : Vfs)

/-- `..`: out of a mounted root through the directory it covers, and never
above the root of the process. -/
def up (root node : Nat) : Nat :=
  if node = root then node
  else if (v.mountOf node).root = node ∧ (v.mountOf node).covered ≠ 0 then
    (v.node (v.mountOf node).covered).parent
  else (v.node node).parent

/-- The root of what is mounted on a node, or the node. -/
def across (n : Nat) : Nat := (v.node n).mounted.elim n fun i => (v.mounts i).root

/-- The target of a symbolic link. -/
def target (n : Nat) : List UInt8 :=
  (List.range (v.node n).size).map fun i => ((v.node n).data.map (· i)).getD 0

/-- What a round of the loop in `vfs_resolve` leads to: an answer, or the next
round with the text still to walk, the node and the links followed. -/
inductive Round where
  | done (result : Except Errno Nat)
  | next (work : List UInt8) (node links : Nat)

/-- The round of a name; `work` is what follows it. -/
def resolveName (root : Nat) (nofollow : Bool) (name work : List UInt8) (node links : Nat) :
    Round :=
  if nameLimit ≤ name.length then .done (.error .nametoolong)
  else if name = bytesOf "." then .next work node links
  else if name = bytesOf ".." then .next work (v.up root node) links
  else
    match v.child node name with
    | none => .done (.error .noent)
    | some found =>
      let next := v.across found
      if (v.node next).type = .lnk then
        if nofollow ∧ work = [] then .done (.error .loop)
        else if 8 < links + 1 then .done (.error .loop)
        else if (v.node next).size = 0 ∨ pathLimit ≤ (v.node next).size + work.length then
          .done (.error .nametoolong)
        else
          -- `work` is read up to its first zero
          let expanded := (v.target next ++ work).takeWhile (· ≠ 0)
          .next expanded (if expanded.head? = some slash then root else node) (links + 1)
      else .next work next links

/-- One round of the loop in `vfs_resolve`. -/
def resolveRound (root : Nat) (nofollow : Bool) (work : List UInt8) (node links : Nat) : Round :=
  let rest := work.dropWhile (· = slash)
  if rest = [] then
    .done (if work.head? = some slash ∧ (v.node node).type ≠ .dir then .error .notdir else .ok node)
  else if (v.node node).type ≠ .dir then .done (.error .notdir)
  else v.resolveName root nofollow (rest.takeWhile (· ≠ slash))
    (rest.dropWhile (· ≠ slash)) node links

section

variable (root : Nat) (nofollow : Bool) (name work : List UInt8) (node links : Nat)

/-- How the loop can go on behind a name. -/
inductive Onward : List UInt8 → Nat → Nat → Prop
  | dot (hname : name = bytesOf ".") : Onward work node links
  | dotdot (hdot : name ≠ bytesOf ".") (hname : name = bytesOf "..") :
      Onward work (v.up root node) links
  | child (c : Nat) (hdot : name ≠ bytesOf ".") (hdots : name ≠ bytesOf "..")
      (hchild : v.child node name = some c) (htype : (v.node (v.across c)).type ≠ .lnk) :
      Onward work (v.across c) links
  | link (c : Nat) (hdot : name ≠ bytesOf ".") (hdots : name ≠ bytesOf "..")
      (hchild : v.child node name = some c) (htype : (v.node (v.across c)).type = .lnk)
      (hcount : ¬8 < links + 1) (hsize : ¬((v.node (v.across c)).size = 0 ∨
        pathLimit ≤ (v.node (v.across c)).size + work.length)) :
      Onward ((v.target (v.across c) ++ work).takeWhile (· ≠ 0))
        (if ((v.target (v.across c) ++ work).takeWhile (· ≠ 0)).head? = some slash then root
          else node) (links + 1)

end

section

variable {v} {root node links n node' links' : Nat} {nofollow : Bool} {name work work' : List UInt8}

theorem resolveName_next
    (h : v.resolveName root nofollow name work node links = .next work' node' links') :
    name.length < nameLimit ∧ v.Onward root name work node links work' node' links' := by
  unfold resolveName at h
  dsimp only at h
  split at h
  · cases h
  next hlen =>
  refine ⟨Nat.lt_of_not_le hlen, ?_⟩
  split at h
  · next hdot =>
    cases h
    exact .dot hdot
  next hdot =>
  split at h
  · next hdots =>
    cases h
    exact .dotdot hdot hdots
  next hdots =>
  split at h
  · cases h
  next c hchild =>
  split at h
  · next htype =>
    split at h
    · cases h
    split at h
    · cases h
    next hcount =>
    split at h
    · cases h
    next hsize =>
    cases h
    exact .link c hdot hdots hchild htype hcount hsize
  · next htype =>
    cases h
    exact .child c hdot hdots hchild htype

/-- A round that goes on is the round of a name in a directory. -/
theorem resolveRound_eq_next
    (h : v.resolveRound root nofollow work node links = .next work' node' links') :
    work.dropWhile (· = slash) ≠ [] ∧ (v.node node).type = .dir ∧
      v.resolveName root nofollow ((work.dropWhile (· = slash)).takeWhile (· ≠ slash))
        ((work.dropWhile (· = slash)).dropWhile (· ≠ slash)) node links = .next work' node'
        links' := by
  unfold resolveRound at h
  dsimp only at h
  split at h
  · cases h
  next hne =>
  split at h
  · cases h
  next hdir => exact ⟨hne, not_not.mp hdir, h⟩

/-- A round that finds a node is at the end of the text. -/
theorem resolveRound_ok (h : v.resolveRound root nofollow work node links = .done (.ok n)) :
    node = n ∧ work.dropWhile (· = slash) = [] := by
  unfold resolveRound at h
  dsimp only at h
  split at h
  · next hnil =>
    split at h <;> cases h
    exact ⟨rfl, hnil⟩
  split at h
  · cases h
  unfold resolveName at h
  dsimp only at h
  repeat' split at h
  all_goals cases h

end

/-- The loop of `vfs_resolve`; see `resolveLoop_rounds` for the number of rounds. -/
def resolveLoop (root : Nat) (nofollow : Bool) : Nat → List UInt8 → Nat → Nat → Except Errno Nat
  | 0, _, _, _ => .error .loop
  | rounds + 1, work, node, links =>
    match v.resolveRound root nofollow work node links with
    | .done result => result
    | .next work node links => resolveLoop root nofollow rounds work node links

/-- More rounds than the loop of `vfs_resolve` can go. -/
def resolveRounds : Nat := 10 * pathLimit

def vfsResolve (root base : Nat) (path : List UInt8) (nofollow : Bool) : Except Errno Nat :=
  if path = [] then .error .noent
  else if pathLimit ≤ path.length then .error .nametoolong
  else v.resolveLoop root nofollow resolveRounds path (if path.head? = some slash then root
    else base) 0

/-! ## `vfs_getcwd` -/

/-- The loop of `vfs_getcwd`; `reverse` is what it has put into its buffer.  Each
round adds to it, so the buffer is full before the rounds are over. -/
def getcwdLoop (root : Nat) : Nat → Nat → List UInt8 → Except Errno (List UInt8)
  | 0, _, _ => .error .nametoolong
  | rounds + 1, cwd, reverse =>
    if cwd = root then .ok reverse
    else
      let cwd := if (v.mountOf cwd).root = cwd ∧ (v.mountOf cwd).covered ≠ 0
        then (v.mountOf cwd).covered else cwd
      let name := (v.node cwd).name
      if pathLimit - 1 - reverse.length < name.length + 1 then .error .nametoolong
      else getcwdLoop root rounds (v.node cwd).parent (slash :: name ++ reverse)

/-- `vfs_getcwd`: what it stores, with the terminating zero. -/
def vfsGetcwd (root cwd size : Nat) : Except Errno (List UInt8) :=
  match v.getcwdLoop root pathLimit cwd [] with
  | .error e => .error e
  | .ok reverse =>
    let path := (if reverse = [] then [slash] else reverse) ++ [0]
    if size < path.length then .error .inval else .ok path

end Vfs

/-! ## The walk ends -/

section

variable {v : Vfs} {root : Nat} {nofollow : Bool}

/-- A bound on the rounds to come. -/
def roundsLeft (work : List UInt8) (links : Nat) : Nat := (9 - links) * pathLimit + work.length

/-- Every round consumes a part of the text or one of the eight links. -/
theorem resolveRound_next {work work' : List UInt8} {node node' links links' : Nat}
    (h : v.resolveRound root nofollow work node links = .next work' node' links')
    (hlinks : links ≤ 8) (hlen : work.length < pathLimit) :
    roundsLeft work' links' < roundsLeft work links ∧ links' ≤ 8 ∧ work'.length < pathLimit := by
  obtain ⟨hne, -, hname⟩ := Vfs.resolveRound_eq_next h
  -- the name is not empty, so what follows it is shorter
  have hrest : (work.dropWhile (· = slash)).length ≤ work.length :=
    (List.dropWhile_sublist _).length_le
  have hshort : ((work.dropWhile (· = slash)).dropWhile (· ≠ slash)).length <
      (work.dropWhile (· = slash)).length := by
    obtain ⟨b, l, hb⟩ := List.exists_cons_of_ne_nil hne
    have hhead : ¬ (b = slash) := by
      have := List.head_dropWhile_not (fun b => decide (b = slash)) hne
      simpa [hb] using this
    rw [hb, List.dropWhile_cons_of_pos (by simpa using hhead), List.length_cons]
    exact Nat.lt_succ_of_le (List.dropWhile_sublist _).length_le
  cases (Vfs.resolveName_next hname).2 with
  | dot | dotdot | child => exact ⟨by unfold roundsLeft; omega, hlinks, by omega⟩
  | link found _ _ _ _ hcount hsize =>
    have hle : ∀ l : List UInt8, (l.takeWhile (· ≠ 0)).length ≤ l.length := fun l =>
      (List.takeWhile_sublist _).length_le
    have hlen' :=
      hle (v.target (v.across found) ++ (work.dropWhile (· = slash)).dropWhile (· ≠ slash))
    rw [List.length_append, Vfs.target, List.length_map, List.length_range] at hlen'
    refine ⟨?_, by omega, by simp only [Vfs.target]; omega⟩
    unfold roundsLeft
    simp only [Vfs.target, pathLimit] at hlen' hsize ⊢
    omega

/-- The loop does not depend on its number of rounds, once there are enough. -/
theorem resolveLoop_rounds : ∀ {rounds more : Nat} {work : List UInt8} {node links : Nat},
    roundsLeft work links < rounds → rounds ≤ more → links ≤ 8 → work.length < pathLimit →
    v.resolveLoop root nofollow more work node links = v.resolveLoop root nofollow rounds work
      node links := by
  intro rounds
  induction rounds with
  | zero =>
    intro more work node links h
    cases h
  | succ rounds ih =>
    intro more work node links h hle hlinks hlen
    obtain ⟨more, rfl⟩ := Nat.exists_eq_add_one_of_ne_zero (n := more) (by omega)
    rw [Vfs.resolveLoop, Vfs.resolveLoop]
    cases hround : v.resolveRound root nofollow work node links with
    | done result => rfl
    | next work' node' links' =>
      obtain ⟨hless, hlinks', hlen'⟩ := resolveRound_next hround hlinks hlen
      exact ih (by omega) (by omega) hlinks' hlen'

end

end MiniCore
