import MiniCore.Fs.Vfs
import MiniCore.Mm.HeapLinks

/-!
# MiniCore.Fs.Blocks

The pages and heap records of the file system.

`VfsOk P rest objs v m` says who owns what while the namespace `v` stands in the
machine `m`: the pages of the pool are the allocator's, the blocks of the nodes
and `rest`; the live heap objects are the nodes and `objs`.  Every function of
`src/fs/vfs.c` that allocates or frees gets one lemma.
-/

namespace MiniCore

open Lib List Multiset Function

/-! ## The blocks of a node -/

/-- What a block pointer owns. -/
def pageBag (p : Nat) : Multiset Nat := if p = 0 then 0 else {p}

@[simp] theorem pageBag_zero : pageBag 0 = 0 := rfl

theorem pageBag_of_ne {p : Nat} (h : p ≠ 0) : pageBag p = {p} := if_neg h

theorem mem_pageBag {p q : Nat} : q ∈ pageBag p ↔ q = p ∧ p ≠ 0 := by
  by_cases hp : p = 0
  · simp [hp]
  · simp [pageBag_of_ne hp, hp]

def Vnode.blockBag (n : Vnode) : Multiset Nat :=
  ((List.range tmpFilePages).map fun i => pageBag (n.blocks i)).sum

theorem Vnode.mem_blockBag {n : Vnode} {p : Nat} :
    p ∈ n.blockBag ↔ p ≠ 0 ∧ ∃ i < tmpFilePages, n.blocks i = p := by
  rw [Vnode.blockBag, mem_sum_map]
  constructor
  · rintro ⟨i, hi, hp⟩
    obtain ⟨rfl, hne⟩ := mem_pageBag.mp hp
    exact ⟨hne, i, List.mem_range.mp hi, rfl⟩
  · rintro ⟨hne, i, hi, rfl⟩
    exact ⟨i, List.mem_range.mpr hi, mem_pageBag.mpr ⟨rfl, hne⟩⟩

theorem Vnode.blockBag_congr {n n' : Vnode} (h : n'.blocks = n.blocks) :
    n'.blockBag = n.blockBag := by
  rw [Vnode.blockBag, Vnode.blockBag, h]

theorem Vnode.blockBag_none {n : Vnode} (h : ∀ i, n.blocks i = 0) : n.blockBag = 0 := by
  rw [Vnode.blockBag, List.sum_eq_zero]
  intro b hb
  obtain ⟨i, -, rfl⟩ := List.mem_map.mp hb
  rw [h i, pageBag_zero]

/-- A node takes a page where it had none. -/
theorem Vnode.blockBag_update {n : Vnode} {i p : Nat} (hi : i < tmpFilePages) (h0 : n.blocks i = 0)
    (hp : p ≠ 0) : Vnode.blockBag { n with blocks := update n.blocks i p } = p ::ₘ n.blockBag := by
  have hsum : Vnode.blockBag { n with blocks := update n.blocks i p } + pageBag (n.blocks i) =
      n.blockBag + pageBag p :=
    sum_map_update pageBag List.nodup_range (List.mem_range.mpr hi)
  rw [h0, pageBag_zero, add_zero, pageBag_of_ne hp, add_comm] at hsum
  exact hsum.trans (singleton_add p _)

/-! ## The namespace is closed -/

/-- The pointers of the nodes and mounts lead to nodes. -/
structure Vfs.Closed (v : Vfs) : Prop where
  parent : ∀ n ∈ v.nodes, (v.node n).parent ∈ v.nodes
  children : ∀ n ∈ v.nodes, ∀ c ∈ (v.node n).children, c ∈ v.nodes
  mounted : ∀ n ∈ v.nodes, ∀ i, (v.node n).mounted = some i → (v.mounts i).root ∈ v.nodes
  covered : ∀ i, (v.mounts i).covered ≠ 0 → (v.mounts i).covered ∈ v.nodes

namespace Vfs

variable {v v' : Vfs} {root base node n c : Nat} {name : List UInt8} {nofollow : Bool}

theorem child_eq_some (h : v.child node name = some c) :
    c ∈ (v.node node).children ∧ (v.node c).name = name :=
  ⟨mem_of_find?_eq_some h, by simpa using find?_some h⟩

namespace Closed

variable (h : v.Closed)

include h

theorem child_mem (hn : node ∈ v.nodes) (hc : v.child node name = some c) : c ∈ v.nodes :=
  h.children node hn c (child_eq_some hc).1

theorem up_mem (hn : node ∈ v.nodes) : v.up root node ∈ v.nodes := by
  unfold up
  split
  · exact hn
  split
  · next hcov => exact h.parent _ (h.covered _ hcov.2)
  · exact h.parent _ hn

theorem across_mem (hn : n ∈ v.nodes) : v.across n ∈ v.nodes := by
  unfold across
  cases hm : (v.node n).mounted with
  | none => exact hn
  | some i => exact h.mounted n hn i hm

variable (hroot : root ∈ v.nodes)

include hroot

theorem resolveRound_mem (hnode : node ∈ v.nodes) {work work' : List UInt8} {links links' : Nat}
    (hround : v.resolveRound root nofollow work node links = .next work' n links') :
    n ∈ v.nodes := by
  obtain ⟨-, -, hname⟩ := resolveRound_eq_next hround
  cases (resolveName_next hname).2 with
  | dot => exact hnode
  | dotdot => exact h.up_mem hnode
  | child c _ _ hchild => exact h.across_mem (h.child_mem hnode hchild)
  | link =>
    split
    · exact hroot
    · exact hnode

/-- Resolution ends at a node that exists. -/
theorem resolveLoop_mem : ∀ {rounds : Nat} {work : List UInt8} {node links : Nat}, node ∈ v.nodes →
    v.resolveLoop root nofollow rounds work node links = .ok n → n ∈ v.nodes := by
  intro rounds
  induction rounds with
  | zero =>
    intro work node links hnode hn
    cases hn
  | succ rounds ih =>
    intro work node links hnode hn
    rw [resolveLoop] at hn
    cases hround : v.resolveRound root nofollow work node links with
    | done result =>
      rw [hround] at hn
      dsimp only at hn
      subst hn
      exact (resolveRound_ok hround).1 ▸ hnode
    | next work' node' links' =>
      rw [hround] at hn
      exact ih (h.resolveRound_mem hroot hnode hround) hn

/-- **`vfs_resolve`** returns a node. -/
theorem vfsResolve_mem (hbase : base ∈ v.nodes)
    {path : List UInt8} (hn : v.vfsResolve root base path nofollow = .ok n) : n ∈ v.nodes := by
  unfold vfsResolve at hn
  split at hn
  · cases hn
  split at hn
  · cases hn
  refine h.resolveLoop_mem hroot ?_ hn
  split
  · exact hroot
  · exact hbase

end Closed

/-! ## Nodes come and go -/

@[simp] theorem setNode_mounts (v : Vfs) (n : Nat) (x : Node) :
    (v.setNode n x).mounts = v.mounts := rfl

@[simp] theorem setNode_self (v : Vfs) (n : Nat) (x : Node) : (v.setNode n x).node n = x :=
  update_self ..

theorem setNode_of_ne {x : Node} (h : c ≠ n) : (v.setNode n x).node c = v.node c :=
  update_of_ne h ..

/-- The blocks of all nodes. -/
def blockBag (v : Vfs) : Multiset Nat := (v.nodes.map fun n => (v.node n).blockBag).sum

theorem mem_blockBag {p : Nat} : p ∈ v.blockBag ↔ ∃ n ∈ v.nodes, p ∈ (v.node n).blockBag :=
  mem_sum_map fun n => (v.node n).blockBag

theorem blockBag_congr (hnodes : v'.nodes = v.nodes)
    (h : ∀ n ∈ v.nodes, (v'.node n).blocks = (v.node n).blocks) : v'.blockBag = v.blockBag := by
  rw [blockBag, blockBag, hnodes]
  exact sum_map_congr (fun x : Node => x.blockBag) fun n hn => Vnode.blockBag_congr (h n hn)

theorem blockBag_setNode (hnd : v.nodes.Nodup) (hn : n ∈ v.nodes) (x : Node) :
    (v.setNode n x).blockBag + (v.node n).blockBag = v.blockBag + x.blockBag :=
  sum_map_update (fun x : Node => x.blockBag) hnd hn

/-- The blocks of one node, and of the others. -/
theorem blockBag_split (hnd : v.nodes.Nodup) (hn : n ∈ v.nodes) :
    ∃ others, v.blockBag = (v.node n).blockBag + others ∧
      ∀ x, (v.setNode n x).blockBag = x.blockBag + others := by
  obtain ⟨i, hi⟩ := List.mem_iff_getElem?.mp hn
  have hsplit : v.blockBag = (v.node n).blockBag + _ :=
    sum_eraseIdx (fun n => (v.node n).blockBag) hi
  refine ⟨_, hsplit, fun x => ?_⟩
  have hsum := blockBag_setNode hnd hn x
  rw [hsplit, add_comm, add_assoc] at hsum
  rw [add_left_cancel hsum, add_comm]

/-- A change that leaves the blocks of a node alone. -/
theorem blockBag_setNode_same {x : Node} (hx : x.blocks = (v.node n).blocks) :
    (v.setNode n x).blockBag = v.blockBag := by
  refine blockBag_congr rfl fun c _ => ?_
  by_cases hc : c = n
  · rw [hc, setNode_self, hx]
  · rw [setNode_of_ne hc]

theorem Closed.setNode (h : v.Closed) {x : Node} (hparent : x.parent ∈ v.nodes)
    (hchildren : ∀ c ∈ x.children, c ∈ v.nodes)
    (hmounted : ∀ i, x.mounted = some i → (v.mounts i).root ∈ v.nodes) :
    (v.setNode n x).Closed := by
  have hcases : ∀ {q : Node → Prop}, q x → (∀ c ∈ v.nodes, q (v.node c)) →
      ∀ c ∈ (v.setNode n x).nodes, q ((v.setNode n x).node c) := by
    intro q hx hq c hc
    by_cases hcn : c = n
    · rw [hcn, setNode_self]
      exact hx
    · rw [setNode_of_ne hcn]
      exact hq c hc
  exact ⟨hcases (q := fun y => y.parent ∈ v.nodes) hparent h.parent,
    hcases (q := fun y => ∀ c ∈ y.children, c ∈ v.nodes) hchildren h.children,
    hcases (q := fun y => ∀ i, y.mounted = some i → (v.mounts i).root ∈ v.nodes) hmounted h.mounted,
    h.covered⟩

theorem Closed.setMount (h : v.Closed) {i : Nat} {x : Mount}
    (hcovered : x.covered ≠ 0 → x.covered ∈ v.nodes)
    (hroot : ∀ n ∈ v.nodes, (v.node n).mounted = some i → x.root ∈ v.nodes) :
    (v.setMount i x).Closed := by
  refine ⟨h.parent, h.children, fun n hn j hj => ?_, fun j => ?_⟩
  · by_cases hji : j = i
    · subst hji
      show (update v.mounts j x j).root ∈ v.nodes
      rw [update_self]
      exact hroot n hn hj
    · show (update v.mounts i x j).root ∈ v.nodes
      rw [update_of_ne hji]
      exact h.mounted n hn j hj
  · show (update v.mounts i x j).covered ≠ 0 → (update v.mounts i x j).covered ∈ v.nodes
    by_cases hji : j = i
    · subst hji
      rw [update_self]
      exact hcovered
    · rw [update_of_ne hji]
      exact h.covered j

section AddNode

variable {parent : Option Nat} {type : NodeType} {mount : Nat}

theorem addNode_nodes : (v.addNode n parent name type mount).nodes = v.nodes ++ [n] := rfl

theorem addNode_mounts : (v.addNode n parent name type mount).mounts = v.mounts := by
  cases parent <;> rfl

theorem addNode_root : (v.addNode n parent name type mount).root = v.root := by
  rw [Vfs.root, addNode_mounts, Vfs.root]

theorem addNode_self (hp : parent ≠ some n) :
    (v.addNode n parent name type mount).node n = v.freshNode n parent name type mount := by
  cases parent with
  | none => exact setNode_self ..
  | some p =>
    have hne : n ≠ p := fun heq => hp (congrArg some heq.symm)
    exact (setNode_of_ne hne).trans (setNode_self ..)

/-- The other nodes stay as they are, but for the parent's list of children. -/
theorem addNode_of_ne (hc : c ≠ n) : (v.addNode n parent name type mount).node c =
      if parent = some c then { v.node c with children := (v.node c).children ++ [n] }
      else v.node c := by
  cases parent with
  | none => exact setNode_of_ne hc
  | some p =>
    by_cases hp : c = p
    · subst hp
      rw [if_pos rfl]
      refine (setNode_self ..).trans ?_
      rw [setNode_of_ne hc]
    · have hne : some p ≠ some c := fun heq => hp (Option.some.inj heq).symm
      rw [if_neg hne]
      exact (setNode_of_ne hp).trans (setNode_of_ne hc)

theorem addNode_blocks (hc : c ≠ n) :
    ((v.addNode n parent name type mount).node c).blocks = (v.node c).blocks := by
  rw [addNode_of_ne hc]
  split <;> rfl

theorem addNode_blockBag (hn : n ∉ v.nodes) (hp : parent ≠ some n) :
    (v.addNode n parent name type mount).blockBag = v.blockBag := by
  rw [blockBag, addNode_nodes, map_append, sum_append]
  have hold : (v.nodes.map fun c => ((v.addNode n parent name type mount).node c).blockBag).sum =
      v.blockBag :=
    sum_map_congr (fun x : Node => x.blockBag) fun c hc =>
      Vnode.blockBag_congr (addNode_blocks (ne_of_mem_of_not_mem hc hn))
  have hnew : ((v.addNode n parent name type mount).node n).blockBag = 0 := by
    rw [addNode_self hp]
    exact Vnode.blockBag_none fun _ => rfl
  rw [hold, List.map_singleton, List.sum_singleton, hnew, add_zero]

theorem Closed.addNode (h : v.Closed) (hn : n ∉ v.nodes) (hp : ∀ p, parent = some p → p ∈ v.nodes) :
    (v.addNode n parent name type mount).Closed := by
  have hself : parent ≠ some n := fun heq => hn (hp n heq)
  have hmem : ∀ {x}, x ∈ v.nodes → x ∈ v.nodes ++ [n] := fun hx => mem_append_left _ hx
  have hcases : ∀ {x}, x ∈ (v.addNode n parent name type mount).nodes → x = n ∨
      x ∈ v.nodes ∧ x ≠ n := by
    intro x hx
    rcases List.mem_append.mp hx with hx | hx
    · exact .inr ⟨hx, ne_of_mem_of_not_mem hx hn⟩
    · exact .inl (List.mem_singleton.mp hx)
  refine ⟨?_, ?_, ?_, ?_⟩
  · intro x hx
    rcases hcases hx with rfl | ⟨hx, hne⟩
    · rw [addNode_self hself]
      cases parent with
      | none => exact mem_append_right _ List.mem_cons_self
      | some p => exact hmem (hp p rfl)
    · rw [addNode_of_ne hne]
      have hpar := hmem (h.parent x hx)
      split <;> exact hpar
  · intro x hx c hc
    rcases hcases hx with rfl | ⟨hx, hne⟩
    · rw [addNode_self hself] at hc
      cases hc
    rw [addNode_of_ne hne] at hc
    split at hc
    · rcases List.mem_append.mp hc with hc | hc
      · exact hmem (h.children x hx c hc)
      · exact mem_append_right _ hc
    · exact hmem (h.children x hx c hc)
  · intro x hx i hi
    rw [addNode_mounts]
    rcases hcases hx with rfl | ⟨hx, hne⟩
    · rw [addNode_self hself] at hi
      cases hi
    rw [addNode_of_ne hne] at hi
    refine hmem (h.mounted x hx i ?_)
    split at hi <;> exact hi
  · intro i hi
    rw [addNode_mounts] at hi ⊢
    exact hmem (h.covered i hi)

end AddNode

/-- Two namespaces with the same nodes and mounts. -/
structure Same (v v' : Vfs) : Prop where
  nodes : v'.nodes = v.nodes
  mounts : v'.mounts = v.mounts
  node : ∀ n ∈ v.nodes, v'.node n = v.node n
  inodes : v.nextInode ≤ v'.nextInode

theorem Same.refl (v : Vfs) : v.Same v := ⟨rfl, rfl, fun _ _ => rfl, Nat.le_refl _⟩

theorem Same.blockBag (h : v.Same v') : v'.blockBag = v.blockBag :=
  blockBag_congr h.nodes fun n hn => by rw [h.node n hn]

theorem Same.closed (h : v.Same v') (hc : v.Closed) : v'.Closed := by
  constructor
  · intro n hn
    rw [h.nodes] at hn ⊢
    rw [h.node n hn]
    exact hc.parent n hn
  · intro n hn c
    rw [h.nodes] at hn ⊢
    rw [h.node n hn]
    exact hc.children n hn c
  · intro n hn i
    rw [h.nodes] at hn ⊢
    rw [h.node n hn, h.mounts]
    exact hc.mounted n hn i
  · rw [h.mounts, h.nodes]
    exact hc.covered

/-- **Rolling back a creation** restores the namespace. -/
theorem Closed.same_dropNode (h : v.Closed) (hn : n ∉ v.nodes) {p : Nat} (hp : p ∈ v.nodes)
    {type : NodeType} {mount : Nat} :
    v.Same ((v.addNode n (some p) name type mount).dropNode n) := by
  have hpn : p ≠ n := ne_of_mem_of_not_mem hp hn
  have hself : some p ≠ some n := fun heq => hpn (Option.some.inj heq)
  have hparent : ((v.addNode n (some p) name type mount).node n).parent = p := by
    rw [addNode_self hself]
    rfl
  have herase : ∀ l : List Nat, n ∉ l → (l ++ [n]).erase n = l := by
    intro l hl
    rw [erase_append_right _ hl, List.erase_cons_head, append_nil]
  refine ⟨?_, addNode_mounts, fun c hc => ?_, Nat.le_succ _⟩
  · show (v.addNode n (some p) name type mount).nodes.erase n = v.nodes
    rw [addNode_nodes, herase _ hn]
  have hcn : c ≠ n := ne_of_mem_of_not_mem hc hn
  show ((v.addNode n (some p) name type mount).unlink _ n).node c = v.node c
  rw [hparent]
  by_cases hcp : c = p
  · subst hcp
    refine (setNode_self ..).trans ?_
    rw [addNode_of_ne hcn, if_pos rfl]
    dsimp only
    rw [herase _ fun hm => hn (h.children c hc n hm)]
  · refine (setNode_of_ne hcp).trans ?_
    rw [addNode_of_ne hcn, if_neg fun heq => hcp (Option.some.inj heq).symm]

end Vfs

/-! ## Owners -/

/-- The pages and records of the nodes are accounted for. -/
structure VfsStock (P : PagePool) (rest objs : Multiset Nat) (v : Vfs) (m : Machine) : Prop where
  stock : Stocked P m (v.blockBag + rest)
  live : liveBag m.slabs = (v.nodes : Multiset Nat) + objs

structure VfsOk (P : PagePool) (rest objs : Multiset Nat) (v : Vfs) (m : Machine) : Prop
    extends VfsStock P rest objs v m where
  closed : v.Closed

section

variable {P : PagePool} {rest objs : Multiset Nat} {v v' : Vfs} {m m' : Machine} {n a : Nat}

/-- `page_free` of every block pointer in a list. -/
theorem freeBlockList_spec (blocks : Nat → Nat) : ∀ (l : List Nat) (m : Machine),
    Stocked P m ((l.map fun i => pageBag (blocks i)).sum + rest) →
    Stocked P (l.foldl (fun m i => if blocks i = 0 then m else pageFree (blocks i) m) m) rest ∧
      (l.foldl (fun m i => if blocks i = 0 then m else pageFree (blocks i) m) m).slabs = m.slabs ∧
      Keeps rest m (l.foldl (fun m i => if blocks i = 0 then m else pageFree (blocks i) m) m) := by
  intro l
  induction l with
  | nil =>
    intro m h
    rw [map_nil, sum_nil, zero_add] at h
    exact ⟨h, rfl, Keeps.refl _ _⟩
  | cons i l ih =>
    intro m h
    rw [List.map_cons, List.sum_cons, add_assoc] at h
    rw [List.foldl_cons]
    by_cases h0 : blocks i = 0
    · rw [h0, pageBag_zero, zero_add] at h
      rw [if_pos h0]
      exact ih m h
    rw [pageBag_of_ne h0, singleton_add] at h
    obtain ⟨hst, -, hslabs, hk⟩ := pageFree_spec h
    rw [if_neg h0]
    obtain ⟨hst', hslabs', hk'⟩ := ih _ hst
    exact ⟨hst', hslabs'.trans hslabs, hk.part.trans hk'⟩

/-- The blocks of a node go back to the allocator. -/
theorem freeBlocks_spec {x : Vnode} (h : Stocked P m (x.blockBag + rest)) :
    Stocked P (freeBlocks x m) rest ∧ (freeBlocks x m).slabs = m.slabs ∧
      Keeps rest m (freeBlocks x m) :=
  freeBlockList_spec x.blocks _ m h

theorem VfsStock.setMount (h : VfsStock P rest objs v m) (i : Nat) (x : Mount) :
    VfsStock P rest objs (v.setMount i x) m :=
  ⟨h.stock, h.live⟩

namespace VfsOk

section

variable (h : VfsOk P rest objs v m)

include h

theorem nodup : v.nodes.Nodup := by
  have hnd := h.stock.nodup_live
  rw [h.live] at hnd
  exact Multiset.coe_nodup.mp (Multiset.nodup_add.mp hnd).1

theorem congr (hs : m.Same m') : VfsOk P rest objs v m' :=
  ⟨⟨h.stock.of_same hs, by rw [hs.slabs]; exact h.live⟩, h.closed⟩

theorem same (hs : v.Same v') : VfsOk P rest objs v' m :=
  ⟨⟨hs.blockBag ▸ h.stock, by rw [hs.nodes]; exact h.live⟩, hs.closed h.closed⟩

/-- A change of a node that leaves its blocks alone. -/
theorem setNode {x : Node} (hblocks : x.blocks = (v.node n).blocks)
    (hparent : x.parent ∈ v.nodes) (hchildren : ∀ c ∈ x.children, c ∈ v.nodes)
    (hmounted : ∀ i, x.mounted = some i → (v.mounts i).root ∈ v.nodes) :
    VfsOk P rest objs (v.setNode n x) m := by
  refine ⟨⟨?_, h.live⟩, h.closed.setNode hparent hchildren hmounted⟩
  rw [Vfs.blockBag_setNode_same hblocks]
  exact h.stock

end

/-- A record for someone else. -/
theorem kmalloc (h : VfsOk P rest objs v m) {size : Nat} (hrun : kmalloc size m = (a, m')) :
    (a = 0 ∧ m.Same m') ∨ (a ≠ 0 ∧ a ∉ v.nodes ∧ a ∉ objs ∧ VfsOk P rest (a ::ₘ objs) v m' ∧
      Keeps (v.blockBag + rest) m m') := by
  have hspec := kmalloc_spec h.stock size
  rw [hrun] at hspec
  rcases hspec with hfail | ⟨hne, hst, hk, hlive⟩
  · exact .inl hfail
  dsimp only at hst hk hlive
  have hnd := hst.nodup_live
  rw [hlive, h.live, Multiset.nodup_cons, mem_add, not_or, mem_coe] at hnd
  refine .inr ⟨hne, hnd.1.1, hnd.1.2, ⟨⟨hst, ?_⟩, h.closed⟩, hk⟩
  rw [hlive, h.live, add_cons]

theorem kfree (h : VfsOk P rest (a ::ₘ objs) v m) :
    VfsOk P rest objs v (kfree a m) ∧ Keeps (v.blockBag + rest) m (MiniCore.kfree a m) := by
  have hlive := h.live
  rw [add_cons] at hlive
  obtain ⟨hst, hlive', hk⟩ := kfree_spec h.stock hlive
  exact ⟨⟨⟨hst, hlive'⟩, h.closed⟩, hk⟩

/-- **`new_node`** fails and changes nothing, or adds one node. -/
theorem newNode (h : VfsOk P rest objs v m) {parent : Option Nat} {name : List UInt8}
    {type : NodeType} {mount : Nat} (hp : ∀ p, parent = some p → p ∈ v.nodes)
    (hrun : v.newNode parent name type mount m = (n, v', m')) : (n = 0 ∧ v' = v ∧ m.Same m') ∨
    (n ≠ 0 ∧ n ∉ v.nodes ∧ n ∉ objs ∧ v' = v.addNode n parent name type mount ∧
      VfsOk P rest objs v' m' ∧
      Keeps (v.blockBag + rest) m m') := by
  unfold Vfs.newNode at hrun
  rcases hk : MiniCore.kmalloc vnodeSize m with ⟨a, m1⟩
  rw [hk] at hrun
  rcases h.kmalloc hk with ⟨h0, hsame⟩ | ⟨hne, hnode, hobj, hok, hkeep⟩
  · subst h0
    cases hrun
    exact .inl ⟨rfl, rfl, hsame⟩
  have hmatch : (a, v.addNode a parent name type mount, m1) = (n, v', m') := by
    rw [← hrun]
    split
    · next heq =>
      cases heq
      exact absurd rfl hne
    · next heq =>
      cases heq
      rfl
  cases hmatch
  have hself : parent ≠ some n := fun heq => hnode (hp n heq)
  refine .inr ⟨hne, hnode, hobj, rfl, ⟨⟨?_, ?_⟩, h.closed.addNode hnode hp⟩, hkeep⟩
  · rw [Vfs.addNode_blockBag hnode hself]
    exact hok.stock
  · rw [hok.live, Vfs.addNode_nodes, ← coe_add, add_cons, add_right_comm,
      coe_singleton, add_comm (_ + objs), singleton_add]

/-- The rollback of a creation. -/
theorem dropNode {p mount : Nat} {name : List UInt8} {type : NodeType}
    (h : VfsOk P rest objs (v.addNode n (some p) name type mount) m) (hc : v.Closed)
    (hn : n ∉ v.nodes) (hp : p ∈ v.nodes) :
    VfsOk P rest objs ((v.addNode n (some p) name type mount).dropNode n) (MiniCore.kfree n m) ∧
      Keeps (v.blockBag + rest) m (MiniCore.kfree n m) := by
  have hself : some p ≠ some n := fun heq => hn (Option.some.inj heq ▸ hp)
  have hst := h.stock
  rw [Vfs.addNode_blockBag hn hself] at hst
  have hlive := h.live
  rw [Vfs.addNode_nodes, ← coe_add, coe_singleton, add_right_comm, add_comm,
    singleton_add] at hlive
  obtain ⟨hst', hlive', hk⟩ := kfree_spec hst hlive
  exact ⟨VfsOk.same ⟨⟨hst', hlive'⟩, hc⟩ (hc.same_dropNode hn hp), hk⟩

/-- `O_TRUNC` gives the blocks back. -/
theorem truncate (h : VfsOk P rest objs v m) (hn : n ∈ v.nodes) :
    VfsOk P rest objs (v.setNode n { v.node n with blocks := fun _ => 0, size := 0 })
        (freeBlocks (v.node n).toVnode m) ∧
      Keeps rest m (freeBlocks (v.node n).toVnode m) := by
  obtain ⟨others, hsplit, hset⟩ := Vfs.blockBag_split h.nodup hn
  have hnone : Vnode.blockBag { (v.node n).toVnode with blocks := fun _ => 0, size := 0 } = 0 :=
    Vnode.blockBag_none fun _ => rfl
  have hst := h.stock
  rw [hsplit, add_assoc] at hst
  obtain ⟨hst', hslabs, hk⟩ := freeBlocks_spec hst
  refine ⟨⟨⟨?_, by rw [hslabs]; exact h.live⟩, ?_⟩, hk.part⟩
  · rw [hset, hnone, zero_add]
    exact hst'
  exact h.closed.setNode (h.closed.parent n hn) (h.closed.children n hn) (h.closed.mounted n hn)

end VfsOk

/-- **`vfs_shutdown`** returns everything. -/
theorem VfsStock.shutdown (h : VfsStock P rest objs v m) :
    Stocked P (vfsShutdown v m).2 rest ∧ liveBag (vfsShutdown v m).2.slabs = objs ∧
      Keeps rest m (vfsShutdown v m).2 := by
  have hall : ∀ (l : List Nat) (m : Machine),
      Stocked P m ((l.map fun n => (v.node n).blockBag).sum + rest) →
      liveBag m.slabs = (l : Multiset Nat) + objs →
      Stocked P (l.foldl (fun m n => MiniCore.kfree n (freeBlocks (v.node n).toVnode m)) m) rest ∧
        liveBag (l.foldl (fun m n => MiniCore.kfree n (freeBlocks (v.node n).toVnode m)) m).slabs =
          objs ∧
        Keeps rest m (l.foldl (fun m n => MiniCore.kfree n (freeBlocks (v.node n).toVnode m))
          m) := by
    intro l
    induction l with
    | nil =>
      intro m hst hlive
      rw [map_nil, sum_nil, zero_add] at hst
      rw [coe_nil, zero_add] at hlive
      exact ⟨hst, hlive, Keeps.refl _ _⟩
    | cons n l ih =>
      intro m hst hlive
      rw [List.map_cons, List.sum_cons, add_assoc] at hst
      rw [← cons_coe, cons_add] at hlive
      obtain ⟨hst1, hslabs, hk1⟩ := freeBlocks_spec hst
      rw [← hslabs] at hlive
      obtain ⟨hst2, hlive2, hk2⟩ := kfree_spec hst1 hlive
      obtain ⟨hst3, hlive3, hk3⟩ := ih _ hst2 hlive2
      have hle : rest ≤ (l.map fun n => (v.node n).blockBag).sum + rest := Multiset.le_add_left _ _
      exact ⟨hst3, hlive3, (hk1.mono hle).trans ((hk2.mono hle).trans hk3)⟩
  exact hall v.nodes m h.stock h.live

/-! ## Writes -/

/-- What a write leaves alone: the pages of others, the heap, and what the node
is. -/
structure Writing.Kept (rest : Multiset Nat) (w w' : Writing) : Prop where
  keeps : Keeps rest w.machine w'.machine
  slabs : w'.machine.slabs = w.machine.slabs
  type : w'.node.type = w.node.type
  data : w'.node.data = w.node.data

namespace Writing

variable {w w' w'' : Writing} {ok : Bool} {part : Nat} {buffer : List UInt8}

theorem Kept.refl (rest : Multiset Nat) (w : Writing) : w.Kept rest w :=
  ⟨Keeps.refl _ _, rfl, rfl, rfl⟩

theorem Kept.trans (h : w.Kept rest w') (h' : w'.Kept rest w'') : w.Kept rest w'' :=
  ⟨h.keeps.trans h'.keeps, h'.slabs.trans h.slabs, h'.type.trans h.type, h'.data.trans h.data⟩

theorem index_lt (h : w.offset < tmpFileSize) : w.offset / pageSize < tmpFilePages :=
  Nat.div_lt_of_lt_mul (Nat.mul_comm tmpFilePages pageSize ▸ h)

/-- The block at the offset is there, or the node takes a page for it. -/
theorem provide_spec (h : Stocked P w.machine (w.node.blockBag + rest))
    (hoff : w.offset < tmpFileSize) (hrun : w.provide = (ok, w')) :
    Stocked P w'.machine (w'.node.blockBag + rest) ∧ w.Kept rest w' ∧ w'.offset = w.offset ∧
      (ok = true → w'.page ∈ w'.node.blockBag) := by
  unfold provide at hrun
  split at hrun
  · next hpage =>
    cases hrun
    exact ⟨h, Kept.refl _ _, rfl, fun _ => Vnode.mem_blockBag.mpr ⟨hpage, _, index_lt hoff, rfl⟩⟩
  next hpage =>
  have hspec := pageAlloc_spec h
  have hzero : w.node.blocks (w.offset / pageSize) = 0 := not_not.mp hpage
  split at hrun
  · next m heq =>
    cases hrun
    rw [heq] at hspec
    have hsame : w.machine.Same m :=
      hspec.elim (fun hfail => hfail.2) fun hgot => absurd rfl hgot.1.ne_zero
    exact ⟨h.of_same hsame, ⟨Keeps.of_same hsame, hsame.slabs, rfl, rfl⟩, rfl, by simp⟩
  next p m hne heq =>
  cases hrun
  rw [heq] at hspec
  rcases hspec with ⟨h0, -⟩ | ⟨hp, hst, hmem, hslabs, hfrees⟩
  · exact absurd h0 hne
  dsimp only at hp hst hmem hslabs hfrees
  have hbag := Vnode.blockBag_update (index_lt hoff) hzero hp.ne_zero
  refine ⟨?_, ⟨?_, hslabs, rfl, rfl⟩, rfl, fun _ => ?_⟩
  · dsimp only
    rw [hbag, cons_add]
    exact hst.congr rfl rfl rfl
  · refine (Keeps.of_eq hmem hfrees).trans (Keeps.of_bytes (fun q hq => ?_) rfl)
    have hnd := Multiset.nodup_cons.mp hst.nodup_rest
    have hqr : q ∈ w.node.blockBag + rest := Multiset.mem_add.mpr (.inr hq)
    show Set.EqOn (fill m.mem p pageSize fun _ => 0) m.mem (pageBytes q)
    exact eqOn_fill_page hp (hst.isPage_of_mem (Multiset.mem_cons_of_mem hqr))
      (ne_of_mem_of_not_mem hqr hnd.1) (Nat.le_refl _) (Nat.le_refl _)
  · dsimp only [page]
    rw [hbag, update_self]
    exact Multiset.mem_cons_self _ _

/-- A copy into a block of the node. -/
theorem store_spec (h : Stocked P w.machine (w.node.blockBag + rest))
    (hpage : w.page ∈ w.node.blockBag) (hpart : part ≤ pageSize - pageOffset w.offset) :
    Stocked P (w.store part buffer).machine ((w.store part buffer).node.blockBag + rest) ∧
      w.Kept rest (w.store part buffer) := by
  have hoff : pageOffset w.offset < pageSize := Nat.mod_lt _ (by decide)
  have hmem : ∀ {q}, q ∈ w.node.blockBag + rest → IsPage q := fun hq => h.isPage_of_mem hq
  refine ⟨h.congr rfl rfl rfl, Keeps.of_bytes (fun q hq => ?_) rfl, rfl, rfl, rfl⟩
  have hne : q ≠ w.page := fun heq =>
    Multiset.disjoint_left.mp (Multiset.nodup_add.mp h.nodup_rest).2.2 hpage (heq ▸ hq)
  show Set.EqOn (fill w.machine.mem (w.page + pageOffset w.offset) part fun i => buffer.getD i 0)
    w.machine.mem (pageBytes q)
  refine eqOn_fill_page (hmem (Multiset.mem_add.mpr (.inl hpage)))
    (hmem (Multiset.mem_add.mpr (.inr hq))) hne (Nat.le_add_right _ _) ?_
  unfold pageSize at hpart hoff
  omega

end Writing

/-- The write loop allocates blocks and touches no other page. -/
theorem writeLoop_spec : ∀ (rounds : Nat) {buffer : List UInt8} {done : Nat} {w w' : Writing}
    {r : Except Errno Nat}, Stocked P w.machine (w.node.blockBag + rest) →
    writeLoop rounds buffer done w = (r, w') →
    Stocked P w'.machine (w'.node.blockBag + rest) ∧ w.Kept rest w' := by
  intro rounds
  induction rounds with
  | zero =>
    intro buffer done w w' r h hrun
    cases hrun
    exact ⟨h, Writing.Kept.refl _ _⟩
  | succ rounds ih =>
    intro buffer done w w' r h hrun
    rw [writeLoop] at hrun
    split at hrun
    · cases hrun
      exact ⟨h, Writing.Kept.refl _ _⟩
    next hgo =>
    have hoff : w.offset < tmpFileSize := Nat.lt_of_not_le fun hle => hgo (.inr hle)
    split at hrun
    · next w1 hprov =>
      cases hrun
      obtain ⟨hst, hk, -, -⟩ := Writing.provide_spec h hoff hprov
      exact ⟨hst, hk⟩
    next w1 hprov =>
    obtain ⟨hst, hk, -, hpage⟩ := Writing.provide_spec h hoff hprov
    obtain ⟨hst', hk'⟩ := Writing.store_spec hst (hpage rfl) (Nat.min_le_left _ _)
    obtain ⟨hst'', hk''⟩ := ih hst' hrun
    exact ⟨hst'', hk.trans (hk'.trans hk'')⟩

/-- **`regular_write`** keeps the pages of the node its own, wherever it stops. -/
theorem regularWrite_spec {readonly append : Bool} {buffer : List UInt8} {w w' : Writing}
    {r : Except Errno Nat} (h : Stocked P w.machine (w.node.blockBag + rest))
    (hrun : regularWrite readonly append buffer w = (r, w')) :
    Stocked P w'.machine (w'.node.blockBag + rest) ∧ w.Kept rest w' := by
  unfold regularWrite at hrun
  split at hrun
  · cases hrun
    exact ⟨h, Writing.Kept.refl _ _⟩
  split at hrun
  · cases hrun
    exact ⟨h, Writing.Kept.refl _ _⟩
  have hcore : ∀ w0 : Writing, Stocked P w0.machine (w0.node.blockBag + rest) → w.Kept rest w0 →
      (if tmpFileSize ≤ w0.offset then (if buffer = [] then .ok 0 else .error .fbig, w0)
        else writeLoop buffer.length buffer 0 w0) = (r, w') →
      Stocked P w'.machine (w'.node.blockBag + rest) ∧ w.Kept rest w' := by
    intro w0 h0 hk0 hrun0
    split at hrun0
    · cases hrun0
      exact ⟨h0, hk0⟩
    · obtain ⟨hst, hk⟩ := writeLoop_spec _ h0 hrun0
      exact ⟨hst, hk0.trans hk⟩
  cases append with
  | false => exact hcore w h (Writing.Kept.refl _ _) hrun
  | true => exact hcore { w with offset := w.node.size } h ⟨Keeps.refl _ _, rfl, rfl, rfl⟩ hrun

end

end MiniCore
