import MiniCore.Fs.Blocks

/-!
# MiniCore.Fs.Namespace

Well-formed namespaces (`src/fs/vfs.c`).

`Vfs.Tree` is what every walk along names relies on: a child knows its parent,
the names of a directory differ, a mounted root knows the directory it covers,
and inode numbers grow on the way down.  New nodes keep it.
-/

namespace MiniCore

open Lib List

/-- A name that a node may have. -/
structure NameOk (name : List UInt8) : Prop where
  ne_nil : name ≠ []
  lt : name.length < nameLimit
  noSlash : slash ∉ name
  noZero : 0 ∉ name
  notDot : name ≠ bytesOf "."
  notDotdot : name ≠ bytesOf ".."

namespace Vfs

/-- `c` is a child of `n`; it is not the root of a mount. -/
structure ChildOk (v : Vfs) (n c : Nat) : Prop where
  parent : (v.node c).parent = n
  inode : (v.node n).inode < (v.node c).inode
  name : NameOk (v.node c).name
  inner : (v.mountOf c).root ≠ c

/-- The mount `i` is on `n`. -/
structure MountOk (v : Vfs) (n i : Nat) : Prop where
  covered : (v.mounts i).covered = n
  ne_zero : n ≠ 0
  mount : (v.node (v.mounts i).root).mount = i
  type : (v.node (v.mounts i).root).type = .dir
  inode : (v.node n).inode < (v.node (v.mounts i).root).inode

/-- A well-formed namespace. -/
structure Tree (v : Vfs) : Prop where
  closed : v.Closed
  nonzero : 0 ∉ v.nodes
  root : v.root ∈ v.nodes
  rootDir : (v.node v.root).type = .dir
  roots : ∀ i, (v.mounts i).root ≠ 0 → (v.mounts i).root ∈ v.nodes
  dir : ∀ n ∈ v.nodes, (v.node n).children ≠ [] → (v.node n).type = .dir
  parent : ∀ n ∈ v.nodes, (v.node (v.node n).parent).type = .dir
  child : ∀ n ∈ v.nodes, ∀ c ∈ (v.node n).children, v.ChildOk n c
  names : ∀ n ∈ v.nodes, ((v.node n).children.map fun c => (v.node c).name).Nodup
  mounted : ∀ n ∈ v.nodes, ∀ i, (v.node n).mounted = some i → v.MountOk n i
  links : ∀ n ∈ v.nodes, (v.node n).type = .lnk → 0 ∉ v.target n
  fresh : ∀ n ∈ v.nodes, (v.node n).inode < v.nextInode

variable {v v' : Vfs} {n c i p : Nat} {name : List UInt8}

/-- What the links of other nodes say about a node. -/
structure Kin (x y : Node) : Prop where
  name : y.name = x.name
  inode : y.inode = x.inode
  type : y.type = x.type
  parent : y.parent = x.parent
  mount : y.mount = x.mount

/-- Where a node is, and what it is. -/
structure SamePlace (x y : Node) : Prop extends Kin x y where
  mounted : y.mounted = x.mounted
  children : y.children = x.children

/-- All that a walk sees of a node. -/
structure SameName (x y : Node) : Prop extends SamePlace x y where
  size : x.type = .lnk → y.size = x.size
  data : x.type = .lnk → y.data = x.data

theorem ChildOk.congr (h : v.ChildOk n c) (hmounts : v'.mounts = v.mounts)
    (hn : Kin (v.node n) (v'.node n)) (hc : Kin (v.node c) (v'.node c)) : v'.ChildOk n c := by
  refine ⟨hc.parent.trans h.parent, ?_, hc.name ▸ h.name, ?_⟩
  · rw [hc.inode, hn.inode]
    exact h.inode
  · rw [mountOf, hmounts, hc.mount]
    exact h.inner

theorem MountOk.congr (h : v.MountOk n i) (hmounts : v'.mounts = v.mounts)
    (hn : Kin (v.node n) (v'.node n))
    (hr : Kin (v.node (v.mounts i).root) (v'.node (v.mounts i).root)) : v'.MountOk n i := by
  refine ⟨hmounts ▸ h.covered, h.ne_zero, ?_, ?_, ?_⟩ <;> rw [hmounts]
  · exact hr.mount.trans h.mount
  · exact hr.type.trans h.type
  · rw [hr.inode, hn.inode]
    exact h.inode

theorem SamePlace.refl (x : Node) : SamePlace x x := ⟨⟨rfl, rfl, rfl, rfl, rfl⟩, rfl, rfl⟩

theorem SameName.refl (x : Node) : SameName x x := ⟨.refl x, fun _ => rfl, fun _ => rfl⟩

/-- The nodes of two namespaces are at the same places. -/
structure SamePlaces (v v' : Vfs) : Prop where
  nodes : v'.nodes = v.nodes
  mounts : v'.mounts = v.mounts
  node : ∀ n ∈ v.nodes, SamePlace (v.node n) (v'.node n)
  inodes : v.nextInode ≤ v'.nextInode

/-- The walks in two namespaces are the same. -/
structure SameNames (v v' : Vfs) : Prop where
  nodes : v'.nodes = v.nodes
  mounts : v'.mounts = v.mounts
  node : ∀ n ∈ v.nodes, SameName (v.node n) (v'.node n)
  inodes : v.nextInode ≤ v'.nextInode

theorem SameNames.places (h : v.SameNames v') : v.SamePlaces v' :=
  ⟨h.nodes, h.mounts, fun n hn => (h.node n hn).toSamePlace, h.inodes⟩

theorem SameNames.refl (v : Vfs) : v.SameNames v :=
  ⟨rfl, rfl, fun _ _ => .refl _, Nat.le_refl _⟩

theorem Same.sameNames (h : v.Same v') : v.SameNames v' :=
  ⟨h.nodes, h.mounts, fun n hn => by rw [h.node n hn]; exact .refl _, h.inodes⟩

theorem samePlaces_setNode {x : Node} (hx : SamePlace (v.node n) x) :
    v.SamePlaces (v.setNode n x) := by
  refine ⟨rfl, rfl, fun c _ => ?_, Nat.le_refl _⟩
  by_cases hc : c = n
  · rw [hc, setNode_self]
    exact hx
  · rw [setNode_of_ne hc]
    exact .refl _

/-- A change of contents. -/
theorem sameNames_setNode {x : Node} (hx : SameName (v.node n) x) :
    v.SameNames (v.setNode n x) := by
  refine ⟨rfl, rfl, fun c _ => ?_, Nat.le_refl _⟩
  by_cases hc : c = n
  · rw [hc, setNode_self]
    exact hx
  · rw [setNode_of_ne hc]
    exact .refl _

theorem SameNames.target_eq (hs : v.SameNames v') (hn : n ∈ v.nodes) (hl : (v.node n).type = .lnk) :
    v'.target n = v.target n := by
  rw [target, (hs.node n hn).size hl, (hs.node n hn).data hl, target]

namespace SamePlaces

variable (hs : v.SamePlaces v')

include hs

theorem mountOf_eq (hn : n ∈ v.nodes) : v'.mountOf n = v.mountOf n := by
  rw [mountOf, hs.mounts, (hs.node n hn).mount, mountOf]

theorem root_eq : v'.root = v.root := by rw [Vfs.root, hs.mounts, Vfs.root]

theorem closed (h : v.Closed) : v'.Closed := by
  constructor
  · intro n hn
    rw [hs.nodes] at hn ⊢
    rw [(hs.node n hn).parent]
    exact h.parent n hn
  · intro n hn c
    rw [hs.nodes] at hn ⊢
    rw [(hs.node n hn).children]
    exact h.children n hn c
  · intro n hn i
    rw [hs.nodes] at hn ⊢
    rw [(hs.node n hn).mounted, hs.mounts]
    exact h.mounted n hn i
  · rw [hs.mounts, hs.nodes]
    exact h.covered

/-- Names, types and places are all that matters, and the targets of links. -/
theorem tree (h : v.Tree) (hlinks : ∀ n ∈ v.nodes, (v.node n).type = .lnk → 0 ∉ v'.target n) :
    v'.Tree := by
  refine ⟨hs.closed h.closed, hs.nodes ▸ h.nonzero, ?_, ?_, ?_, ?_, ?_, ?_, ?_, ?_, ?_, ?_⟩
  · rw [hs.root_eq, hs.nodes]
    exact h.root
  · rw [hs.root_eq, (hs.node _ h.root).type]
    exact h.rootDir
  · rw [hs.mounts, hs.nodes]
    exact h.roots
  all_goals
    intro n hn
    rw [hs.nodes] at hn
    have hnn := hs.node n hn
  · rw [hnn.children, hnn.type]
    exact h.dir n hn
  · rw [hnn.parent, (hs.node _ (h.closed.parent n hn)).type]
    exact h.parent n hn
  · intro c hc
    rw [hnn.children] at hc
    have hc' := h.closed.children n hn c hc
    exact (h.child n hn c hc).congr hs.mounts hnn.toKin (hs.node c hc').toKin
  · have hmap : (v.node n).children.map (fun c => (v'.node c).name) =
        (v.node n).children.map fun c => (v.node c).name :=
      map_congr_left fun c hc => (hs.node c (h.closed.children n hn c hc)).name
    rw [hnn.children, hmap]
    exact h.names n hn
  · intro i hi
    rw [hnn.mounted] at hi
    have hr := h.closed.mounted n hn i hi
    exact (h.mounted n hn i hi).congr hs.mounts hnn.toKin (hs.node _ hr).toKin
  · intro hl
    rw [hnn.type] at hl
    exact hlinks n hn hl
  · rw [hnn.inode]
    exact Nat.lt_of_lt_of_le (h.fresh n hn) hs.inodes

end SamePlaces

theorem SameNames.tree (hs : v.SameNames v') (h : v.Tree) : v'.Tree :=
  hs.places.tree h fun n hn hl => hs.target_eq hn hl ▸ h.links n hn hl

/-- New contents, of the same type. -/
theorem Tree.setContents (h : v.Tree) {x : Vnode} (htype : x.type = (v.node n).type)
    (hlink : x.type = .lnk → 0 ∉ (v.setNode n { v.node n with toVnode := x }).target n) :
    (v.setNode n { v.node n with toVnode := x }).Tree := by
  have hs : v.SamePlaces (v.setNode n { v.node n with toVnode := x }) :=
    samePlaces_setNode ⟨⟨rfl, rfl, htype, rfl, rfl⟩, rfl, rfl⟩
  refine hs.tree h fun c hc hl => ?_
  by_cases hcn : c = n
  · subst hcn
    exact hlink (htype.trans hl)
  · rw [target, setNode_of_ne hcn]
    exact h.links c hc hl

theorem child_eq_none : v.child n name = none ↔ ∀ c ∈ (v.node n).children,
    (v.node c).name ≠ name := by
  simp [Vfs.child]

namespace Tree

theorem children_nodup (h : v.Tree) (hn : n ∈ v.nodes) : (v.node n).children.Nodup :=
  (h.names n hn).of_map _

/-- A child is found by its name. -/
theorem child_eq (h : v.Tree) (hn : n ∈ v.nodes) (hc : c ∈ (v.node n).children) :
    v.child n (v.node c).name = some c := by
  cases hd : v.child n (v.node c).name with
  | none => exact absurd rfl (child_eq_none.mp hd c hc)
  | some d =>
    obtain ⟨hmem, hname⟩ := child_eq_some hd
    rw [inj_on_of_nodup_map (h.names n hn) hmem hc hname]

end Tree

/-! ## New nodes -/

section AddNode

variable {parent : Option Nat} {type : NodeType} {mount : Nat}

/-- An old node, with its new child if it has one. -/
theorem addNode_old (hc : c ≠ n) : (v.addNode n parent name type mount).node c =
      { v.node c with children := (v.node c).children ++ if parent = some c then [n] else [] } := by
  rw [addNode_of_ne hc]
  split <;> simp

/-- What a new node must be like: a mount's root, or a new name in a directory. -/
structure Fits (v : Vfs) (n : Nat) (parent : Option Nat) (name : List UInt8) (type : NodeType) :
    Prop where
  ne_zero : n ≠ 0
  notMem : n ∉ v.nodes
  mem : ∀ p, parent = some p → p ∈ v.nodes
  parentDir : ∀ p, parent = some p → (v.node p).type = .dir
  dir : parent = none → type = .dir
  nameOk : ∀ p, parent = some p → NameOk name
  absent : ∀ p, parent = some p → v.child p name = none

theorem Fits.self (hf : v.Fits n parent name type) : parent ≠ some n :=
  fun heq => hf.notMem (hf.mem n heq)

namespace Tree

variable (h : v.Tree) (hf : v.Fits n parent name type)

include hf

theorem addNode_mem (hc : c ∈ v.nodes) : (v.addNode n parent name type mount).node c =
      { v.node c with children := (v.node c).children ++ if parent = some c then [n] else [] } :=
  addNode_old (ne_of_mem_of_not_mem hc hf.notMem)

theorem addNode_kin (hc : c ∈ v.nodes) :
    Kin (v.node c) ((v.addNode n parent name type mount).node c) := by
  rw [addNode_mem hf hc]
  exact ⟨rfl, rfl, rfl, rfl, rfl⟩

/-- The parent of the new node is a directory, itself if it has none. -/
theorem addNode_parent : ((v.addNode n parent name type mount).node
      (v.freshNode n parent name type mount).parent).type = .dir := by
  cases hp : parent with
  | none =>
    subst hp
    show ((v.addNode n none name type mount).node n).type = .dir
    rw [addNode_self hf.self]
    exact hf.dir rfl
  | some p =>
    subst hp
    exact (addNode_kin hf (hf.mem p rfl)).type.trans (hf.parentDir p rfl)

include h

/-- The children of an old node are old, or the new node. -/
theorem addNode_child {x : Nat} (hx : x ∈ v.nodes)
    (hc : c ∈ ((v.addNode n parent name type mount).node x).children) :
    (v.addNode n parent name type mount).ChildOk x c := by
  rw [addNode_mem hf hx, mem_append] at hc
  rcases hc with hc | hc
  · exact (h.child x hx c hc).congr addNode_mounts (addNode_kin hf hx)
      (addNode_kin hf (h.closed.children x hx c hc))
  split at hc
  case isFalse => cases hc
  next hp =>
  obtain rfl := List.mem_singleton.mp hc
  have hnew : (v.addNode c parent name type mount).node c = v.freshNode c parent name type mount :=
    addNode_self hf.self
  have hroot : ∀ i, (v.mounts i).root ≠ c := fun i heq =>
    hf.notMem (heq ▸ h.roots i (heq ▸ hf.ne_zero))
  refine ⟨?_, ?_, ?_, ?_⟩
  · rw [hnew, freshNode, hp, Option.getD_some]
  · rw [hnew, (addNode_kin hf hx).inode]
    exact h.fresh x hx
  · rw [hnew]
    exact hf.nameOk x hp
  · rw [mountOf, addNode_mounts]
    exact hroot _

/-- The new name is not there yet. -/
theorem addNode_names {x : Nat} (hx : x ∈ v.nodes) :
    (((v.addNode n parent name type mount).node x).children.map
      fun c => ((v.addNode n parent name type mount).node c).name).Nodup := by
  have hmap :
    (v.node x).children.map (fun c => ((v.addNode n parent name type mount).node c).name) =
      (v.node x).children.map fun c => (v.node c).name :=
    map_congr_left fun c hc => (addNode_kin hf (h.closed.children x hx c hc)).name
  rw [addNode_mem hf hx]
  dsimp only
  rw [map_append, hmap]
  split
  · next hp =>
    rw [map_singleton, addNode_self hf.self, nodup_append]
    refine ⟨h.names x hx, nodup_singleton _, fun a ha b hb => ?_⟩
    obtain ⟨c, hc, rfl⟩ := List.mem_map.mp ha
    obtain rfl := List.mem_singleton.mp hb
    exact child_eq_none.mp (hf.absent x hp) c hc
  · rw [map_nil, append_nil]
    exact h.names x hx

/-- A new node that fits keeps the tree. -/
theorem addNode : (v.addNode n parent name type mount).Tree := by
  have hnew : (v.addNode n parent name type mount).node n = v.freshNode n parent name type mount :=
    addNode_self hf.self
  refine ⟨h.closed.addNode hf.notMem hf.mem, ?_, ?_, ?_, ?_, ?_, ?_, ?_, ?_, ?_, ?_, ?_⟩
  · simpa [addNode_nodes, h.nonzero] using Ne.symm hf.ne_zero
  · rw [addNode_root]
    exact mem_append_left _ h.root
  · rw [addNode_root, (addNode_kin hf h.root).type]
    exact h.rootDir
  · intro i hi
    rw [addNode_mounts] at hi ⊢
    exact mem_append_left _ (h.roots i hi)
  -- an old node, then the new one
  all_goals
    intro x hmem
    rcases List.mem_append.mp hmem with hx | hx
    on_goal 2 => obtain rfl := List.mem_singleton.mp hx; rw [hnew]
  · intro hne
    rw [addNode_mem hf hx] at hne ⊢
    by_cases hp : parent = some x
    · exact hf.parentDir x hp
    · refine h.dir x hx ?_
      simpa [hp] using hne
  · exact fun hne => absurd rfl hne
  · rw [(addNode_kin hf hx).parent, (addNode_kin hf (h.closed.parent x hx)).type]
    exact h.parent x hx
  · exact addNode_parent hf
  · exact fun c => h.addNode_child hf hx
  · exact fun c hc => absurd hc not_mem_nil
  · exact h.addNode_names hf hx
  · exact nodup_nil
  · intro i hi
    rw [addNode_mem hf hx] at hi
    exact (h.mounted x hx i hi).congr addNode_mounts (addNode_kin hf hx)
      (addNode_kin hf (h.closed.mounted x hx i hi))
  · exact fun i hi => absurd hi (Option.some_ne_none i).symm
  · intro hl
    rw [addNode_mem hf hx] at hl
    rw [target, addNode_mem hf hx]
    exact h.links x hx hl
  · rw [target, hnew]
    exact fun _ => not_mem_nil
  · rw [(addNode_kin hf hx).inode]
    exact Nat.lt_succ_of_lt (h.fresh x hx)
  · exact Nat.lt_succ_self _

end Tree

end AddNode

/-! ## Mounts -/

@[simp] theorem setMount_node (v : Vfs) (i : Nat) (x : Mount) :
    (v.setMount i x).node = v.node := rfl

@[simp] theorem setMount_self (v : Vfs) (i : Nat) (x : Mount) : (v.setMount i x).mounts i = x :=
  Function.update_self ..

theorem setMount_of_ne {x : Mount} {j : Nat} (h : j ≠ i) : (v.setMount i x).mounts j = v.mounts j :=
  Function.update_of_ne h ..

/-- The first node, the root of the first mount. -/
theorem tree_first (hnodes : v.nodes = []) (hroots : ∀ i, (v.mounts i).root = 0)
    (hcovered : ∀ i, (v.mounts i).covered = 0) (hn : n ≠ 0) {x : Mount} (hx : x.root = n)
    (hxc : x.covered = 0) : ((v.addNode n none name .dir 0).setMount 0 x).Tree := by
  have hnew : (v.addNode n none name .dir 0).node n = v.freshNode n none name .dir 0 :=
    addNode_self (by simp)
  have hroot : ((v.addNode n none name .dir 0).setMount 0 x).root = n := by
    rw [Vfs.root, setMount_self, hx]
  have hmem : ∀ {c}, c ∈ ((v.addNode n none name .dir 0).setMount 0 x).nodes ↔ c = n := by
    intro c
    simp [addNode_nodes, hnodes]
  have hmounts : ∀ i, i ≠ 0 → ((v.addNode n none name .dir 0).setMount 0 x).mounts i =
      v.mounts i := by
    intro i hi
    rw [setMount_of_ne hi, addNode_mounts]
  refine ⟨⟨?_, ?_, ?_, fun i hi => ?_⟩, ?_, ?_, ?_, fun i hi => ?_, ?_, ?_, ?_, ?_, ?_, ?_, ?_⟩
  case refine_4 =>
    by_cases h0 : i = 0
    · subst h0
      exact absurd (by rw [setMount_self, hxc]) hi
    · rw [hmounts i h0] at hi
      exact absurd (hcovered i) hi
  case refine_5 => rw [hmem]; exact Ne.symm hn
  case refine_6 => rw [hmem]; exact hroot
  case refine_7 => rw [hroot, setMount_node, hnew]; rfl
  case refine_8 =>
    by_cases h0 : i = 0
    · subst h0
      rw [hmem, setMount_self, hx]
    · rw [hmounts i h0] at hi
      exact absurd (hroots i) hi
  all_goals
    intro c hc
    obtain rfl := hmem.mp hc
    rw [setMount_node, hnew]
  · exact hmem.mpr rfl
  · exact fun d hd => absurd hd not_mem_nil
  · exact fun i hi => absurd hi (Option.some_ne_none i).symm
  · exact fun h => absurd rfl h
  · show ((v.addNode c none name .dir 0).node c).type = .dir
    rw [hnew]
    rfl
  · exact fun d hd => absurd hd not_mem_nil
  · exact nodup_nil
  · exact fun i hi => absurd hi (Option.some_ne_none i).symm
  · exact fun hl => by cases hl
  · exact Nat.lt_succ_self _

/-- A mount gets its root, which is nobody's child. -/
theorem Tree.setMount (h : v.Tree) (hi : i ≠ 0) (hfree : ∀ n ∈ v.nodes, (v.node n).mounted ≠ some i)
    {x : Mount} (hroot : x.root ∈ v.nodes) (hchild : ∀ n ∈ v.nodes, x.root ∉ (v.node n).children)
    (hcov : x.covered ∈ v.nodes) : (v.setMount i x).Tree := by
  have hroot0 : (v.setMount i x).root = v.root := by
    rw [Vfs.root, setMount_of_ne (Ne.symm hi), Vfs.root]
  refine { h with
    closed := h.closed.setMount (fun _ => hcov) fun _ _ _ => hroot
    root := hroot0 ▸ h.root
    rootDir := hroot0 ▸ h.rootDir
    roots := fun j hj => ?_
    child := fun n hn c hc => ?_
    mounted := fun n hn j hj => ?_ }
  · by_cases hji : j = i
    · subst hji
      rw [setMount_self]
      exact hroot
    · rw [setMount_of_ne hji] at hj ⊢
      exact h.roots j hj
  · refine { h.child n hn c hc with inner := ?_ }
    show ((v.setMount i x).mounts (v.node c).mount).root ≠ c
    by_cases hm : (v.node c).mount = i
    · rw [hm, setMount_self]
      rintro rfl
      exact hchild n hn hc
    · rw [setMount_of_ne hm]
      exact (h.child n hn c hc).inner
  · have hji : j ≠ i := by
      rintro rfl
      exact hfree n hn hj
    have hok := h.mounted n hn j hj
    have heq : (v.setMount i x).mounts j = v.mounts j := setMount_of_ne hji
    refine ⟨heq ▸ hok.covered, hok.ne_zero, ?_, ?_, ?_⟩ <;> rw [heq]
    · exact hok.mount
    · exact hok.type
    · exact hok.inode

/-- A directory is covered. -/
theorem Tree.setMounted (h : v.Tree) (hr : (v.mounts i).root ∈ v.nodes) (hm : v.MountOk c i)
    (hc : c ∈ v.nodes) : (v.setNode c { v.node c with mounted := some i }).Tree := by
  have hnode : ∀ y, (v.setNode c { v.node c with mounted := some i }).node y =
      { v.node y with mounted := if y = c then some i else (v.node y).mounted } := by
    intro y
    by_cases hy : y = c
    · subst hy
      simp
    · rw [setNode_of_ne hy, if_neg hy]
  have hkin : ∀ y, Kin (v.node y) ((v.setNode c { v.node c with mounted := some i }).node y) := by
    intro y
    rw [hnode]
    exact ⟨rfl, rfl, rfl, rfl, rfl⟩
  refine ⟨h.closed.setNode (h.closed.parent c hc) (h.closed.children c hc) ?_, h.nonzero, h.root,
    ?_, h.roots, ?_, ?_, ?_, ?_, ?_, ?_, ?_⟩
  · intro j hj
    obtain rfl := Option.some.inj hj
    exact hr
  · show ((v.setNode c _).node v.root).type = .dir
    rw [hnode]
    exact h.rootDir
  all_goals
    intro y hy
    rw [hnode]
  · exact h.dir y hy
  · dsimp only
    rw [hnode]
    exact h.parent y hy
  · exact fun d hd => (h.child y hy d hd).congr rfl (hkin y) (hkin d)
  · simp only [hnode]
    exact h.names y hy
  · intro j hj
    have hok : v.MountOk y j := by
      dsimp only at hj
      split at hj
      · next heq =>
        subst heq
        obtain rfl := Option.some.inj hj
        exact hm
      · exact h.mounted y hy j hj
    exact hok.congr rfl (hkin y) (hkin _)
  · intro hl
    rw [target, hnode]
    exact h.links y hy hl
  · exact h.fresh y hy

end Vfs

end MiniCore
