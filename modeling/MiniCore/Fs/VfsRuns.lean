import Mathlib.Data.List.TakeWhile
import MiniCore.Fs.Namespace
import Mathlib.Tactic.Abel

/-!
# MiniCore.Fs.VfsRuns

The resources of the file system over whole runs: from `vfs_init` through any
calls to `vfs_shutdown`.
-/

namespace MiniCore

open Lib List Multiset Function

variable {P : PagePool} {rest objs : Multiset Nat} {v : Vfs} {m : Machine} {n : Nat}

/-! ## Starting up -/

/-- What a part of `vfs_init` leaves, whether it succeeds or not; `Q` holds if it
does. -/
structure BootStage (P : PagePool) (rest objs : Multiset Nat) (m₀ : Machine) (Q : Vfs → Prop)
    (r : Bool × Vfs × Machine) : Prop where
  keeps : Keeps rest m₀ r.2.2
  stock : VfsStock P rest objs r.2.1 r.2.2
  closed : r.1 = true → r.2.1.Closed
  done : r.1 = true → Q r.2.1

section

variable {v' : Vfs} {m' m₀ : Machine} {i : Nat} {Q R : Vfs → Prop} {r : Bool × Vfs × Machine}
  {name : List UInt8}

variable {b : Bool}

theorem BootStage.ok (h : BootStage P rest objs m₀ Q (b, v, m)) (hb : b = true) :
    VfsOk P rest objs v m :=
  ⟨h.stock, h.closed hb⟩

theorem BootStage.of_ok (h : VfsOk P rest objs v m) (hk : Keeps rest m₀ m) (hq : Q v) :
    BootStage P rest objs m₀ Q (b, v, m) :=
  ⟨hk, h.toVfsStock, fun _ => h.closed, fun _ => hq⟩

/-- A part that fails here. -/
theorem BootStage.fail (h : VfsStock P rest objs v m) (hk : Keeps rest m₀ m) :
    BootStage P rest objs m₀ Q (false, v, m) :=
  ⟨hk, h, by simp, by simp⟩

theorem BootStage.imp (h : BootStage P rest objs m₀ Q r) (hqr : ∀ v, Q v → R v) :
    BootStage P rest objs m₀ R r :=
  { h with done := fun hb => hqr _ (h.done hb) }

theorem BootStage.andThen {next : Vfs → Machine → Bool × Vfs × Machine}
    (h : BootStage P rest objs m₀ Q r)
    (hnext : ∀ v m, VfsOk P rest objs v m → Keeps rest m₀ m → Q v →
      BootStage P rest objs m₀ R (next v m)) : BootStage P rest objs m₀ R (andThen r next) := by
  obtain ⟨b, v, m⟩ := r
  cases b with
  | false => exact .fail h.stock h.keeps
  | true => exact hnext v m (h.ok rfl) h.keeps (h.done rfl)

theorem archivePlace_spec (h : v.Tree) : ∀ {rounds : Nat} {path : List UInt8} {parent p : Nat},
    parent ∈ v.nodes → (v.node parent).type = .dir → 0 ∉ path →
    archivePlace v rounds path parent = some (p, name) →
    p ∈ v.nodes ∧ (v.node p).type = .dir ∧ NameOk name := by
  intro rounds
  induction rounds with
  | zero =>
    intro path parent p hparent _ _ hplace
    cases hplace
  | succ rounds ih =>
    intro path parent p hparent hdir hzero hplace
    rw [archivePlace] at hplace
    split at hplace
    · cases hplace
    next hlen =>
    split at hplace
    · cases hplace
    next hdots =>
    rw [not_or, Nat.not_le] at hlen
    rw [not_or] at hdots
    split at hplace
    · cases hplace
      refine ⟨hparent, hdir, hlen.1, hlen.2, fun hm => ?_,
        fun hm => hzero ((takeWhile_sublist _).subset hm), hdots.1, hdots.2⟩
      simpa using mem_takeWhile_imp hm
    next hrest =>
    split at hplace
    · cases hplace
    next hchild =>
    split at hplace
    · next hd =>
      refine ih (h.closed.child_mem hparent hchild) hd (fun hm => hzero ?_) hplace
      exact (dropWhile_sublist _).subset (hrest ▸ List.mem_cons_of_mem _ hm)
    · cases hplace

/-- The target of an archive's link is a string. -/
theorem target_of_payloadOk {data : Nat → UInt8} {size : Nat} {x : Node}
    (hpayload : ¬payloadOk .lnk data size = false) :
    0 ∉ (v.setNode n { x with data := some data, size := size }).target n := by
  rw [Vfs.target, Vfs.setNode_self]
  simp only [payloadOk, Bool.not_eq_false, Bool.and_eq_true, all_eq_true,
    decide_eq_true_eq] at hpayload
  intro hm
  obtain ⟨i, hi, h0⟩ := List.mem_map.mp hm
  exact hpayload.2 i hi h0

/-- A new node of a directory keeps the tree. -/
theorem VfsOk.newChild (h : VfsOk P rest objs v m) (ht : v.Tree) {p : Nat} (hp : p ∈ v.nodes)
    (hdir : (v.node p).type = .dir) (hname : NameOk name) (habsent : v.child p name = none)
    (hrun : v.newNode (some p) name type mount m = (n, v', m')) : (n = 0 ∧ v' = v ∧ m.Same m') ∨
    (n ≠ 0 ∧ v.Fits n (some p) name type ∧ v' = v.addNode n (some p) name type mount ∧
      VfsOk P rest objs v' m' ∧ v'.Tree ∧ Keeps rest m m') := by
  rcases h.newNode (fun q heq => Option.some.inj heq ▸ hp) hrun with
    hfail | ⟨hne, hout, -, rfl, hok, hkeep⟩
  · exact .inl hfail
  have hfits : v.Fits n (some p) name type := by
    refine ⟨hne, hout, ?_, ?_, fun h0 => absurd h0 (Option.some_ne_none _), fun _ _ => hname, ?_⟩
    all_goals
      rintro q ⟨⟩
      assumption
  exact .inr ⟨hne, hfits, rfl, hok, ht.addNode hfits, hkeep.part⟩

theorem archiveNode_stage (h : VfsOk P rest objs v m) (hk : Keeps rest m₀ m) (ht : v.Tree)
    {path : List UInt8} (hpath : 0 ∉ path) (data : Nat → UInt8) (size mode : Nat) :
    BootStage P rest objs m₀ (fun v' => v'.Tree ∧ v'.mounts = v.mounts)
    (archiveNode path data size mode v m) := by
  unfold archiveNode
  split
  · exact .of_ok h hk ⟨ht, rfl⟩
  split
  · exact .fail h.toVfsStock hk
  next parent name hplace =>
  split
  · exact .fail h.toVfsStock hk
  next habsent =>
  split
  · exact .fail h.toVfsStock hk
  next type htype =>
  split
  · exact .fail h.toVfsStock hk
  next hpayload =>
  obtain ⟨hmem, hdir, hname⟩ := archivePlace_spec ht ht.root ht.rootDir hpath hplace
  rcases hnew : v.newNode (some parent) name type 0 m with ⟨n, v1, m1⟩
  rcases h.newChild ht hmem hdir hname (Option.not_isSome_iff_eq_none.mp habsent) hnew with
    ⟨rfl, rfl, hsame⟩ | ⟨hne, hfits, rfl, hok, htree, hkeep⟩
  · exact .fail (h.congr hsame).toVfsStock (hk.trans (Keeps.of_same hsame))
  split
  · next heq =>
    cases heq
    exact absurd rfl hne
  next heq =>
  cases heq
  generalize hv1 : v.addNode n (some parent) name type 0 = v1 at htree hok ⊢
  have hmem1 : n ∈ v1.nodes := by simp [← hv1, Vfs.addNode_nodes]
  have htype1 : (v1.node n).type = type := by
    rw [← hv1, Vfs.addNode_self hfits.self]
    rfl
  have hset :
    VfsOk P rest objs (v1.setNode n { v1.node n with data := some data, size := size }) m1 :=
    hok.setNode rfl (hok.closed.parent n hmem1) (hok.closed.children n hmem1)
      (hok.closed.mounted n hmem1)
  refine .of_ok hset (hk.trans hkeep) ⟨htree.setContents rfl fun hl => ?_, ?_⟩
  · obtain rfl : type = .lnk := htype1.symm.trans hl
    exact target_of_payloadOk hpayload
  · rw [Vfs.setNode_mounts, ← hv1, Vfs.addNode_mounts]

/-- The name of an entry is a string. -/
theorem archiveEntry_name {bytes : List UInt8} {offset : Nat} {e : ArchiveEntry}
    (h : archiveEntry bytes offset = some e) : 0 ∉ e.name := by
  unfold archiveEntry at h
  split at h
  · cases h
  split at h
  · dsimp only at h
    iterate 5
      split at h
      · cases h
    cases h
    intro hm
    simpa using mem_takeWhile_imp hm
  · cases h

theorem archiveLoop_stage (bytes : List UInt8) : ∀ (rounds offset : Nat) {v : Vfs} {m : Machine},
    VfsOk P rest objs v m → Keeps rest m₀ m → v.Tree →
    BootStage P rest objs m₀ (fun v' => v'.Tree ∧ v'.mounts = v.mounts)
    (archiveLoop bytes rounds offset v m) := by
  intro rounds
  induction rounds with
  | zero =>
    intro offset v m h hk _
    exact .fail h.toVfsStock hk
  | succ rounds ih =>
    intro offset v m h hk ht
    rw [archiveLoop]
    split
    · split
      · exact .fail h.toVfsStock hk
      next e he =>
      split
      · exact .of_ok h hk ⟨ht, rfl⟩
      have hstage := archiveNode_stage h hk ht (archiveEntry_name he)
        (fun i => bytes.getD (e.dataoff + i) 0) e.payload e.mode
      split
      · next heq =>
        rw [heq] at hstage
        exact .fail hstage.stock hstage.keeps
      next heq =>
      rw [heq] at hstage
      obtain ⟨ht', hmounts⟩ := hstage.done rfl
      rw [← hmounts]
      exact ih _ (hstage.ok rfl) hstage.keeps ht'
    · exact .fail h.toVfsStock hk

/-- The root of the archive, and of a mount. -/
def Vfs.HasRoots (i : Nat) (v : Vfs) : Prop := v.root ∈ v.nodes ∧ (v.mounts i).root ∈ v.nodes

/-- A boot mount with these names in it. -/
structure Vfs.BootMount (i : Nat) (names : List (List UInt8)) (v : Vfs) : Prop where
  tree : v.Tree
  roots : v.HasRoots i
  dir : (v.node (v.mounts i).root).type = .dir
  names : ((v.node (v.mounts i).root).children.map fun c => (v.node c).name) = names

theorem coveredNode_spec (h : VfsOk P rest objs v m) (ht : v.Tree) (hname : NameOk name)
    (hrun : coveredNode name v m = (n, v', m')) :
    VfsOk P rest objs v' m' ∧ Keeps rest m m' ∧ v'.Tree ∧ v'.mounts = v.mounts ∧
    (n ≠ 0 → n ∈ v'.nodes) := by
  unfold coveredNode at hrun
  split at hrun
  · next hchild =>
    cases hrun
    exact ⟨h, Keeps.refl _ _, ht, rfl, fun _ => h.closed.child_mem ht.root hchild⟩
  next habsent =>
  rcases h.newChild ht ht.root ht.rootDir hname habsent hrun with
    ⟨rfl, rfl, hsame⟩ | ⟨-, -, rfl, hok, htree, hkeep⟩
  · exact ⟨h.congr hsame, Keeps.of_same hsame, ht, rfl, fun h0 => absurd rfl h0⟩
  · exact ⟨hok, hkeep, htree, Vfs.addNode_mounts, fun _ => by simp [Vfs.addNode_nodes]⟩

/-- A new root on a directory. -/
theorem Vfs.Tree.bootMount {covered : Nat} (ht : v.Tree) (hi : i ≠ 0)
    (hfree : (v.mounts i).root = 0) (hc : covered ∈ v.nodes) (hne : n ≠ 0) (hout : n ∉ v.nodes)
    {x : Mount} (hroot : x.root = n) (hcov : x.covered = covered) :
    Vfs.BootMount i [] (((v.addNode n none [] .dir i).setMount i x).setNode covered
      { ((v.addNode n none [] .dir i).setMount i x).node covered with mounted := some i }) := by
  have hself : (v.addNode n none [] .dir i).node n = v.freshNode n none [] .dir i :=
    Vfs.addNode_self (by simp)
  have hold : ∀ {c}, c ∈ v.nodes → (v.addNode n none [] .dir i).node c = v.node c := fun hc' => by
    rw [Vfs.addNode_of_ne (ne_of_mem_of_not_mem hc' hout), if_neg (by simp)]
  have ht1 : (v.addNode n none [] .dir i).Tree := ht.addNode
    ⟨hne, hout, by simp, by simp, fun _ => rfl, by simp, by simp⟩
  have hcases : ∀ {c}, c ∈ (v.addNode n none [] .dir i).nodes → c ∈ v.nodes ∨ c = n := fun hc' => by
    simpa [Vfs.addNode_nodes] using hc'
  have hcovered : covered ∈ (v.addNode n none [] .dir i).nodes := mem_append_left _ hc
  have hn : n ∈ (v.addNode n none [] .dir i).nodes := by simp [Vfs.addNode_nodes]
  have ht2 : ((v.addNode n none [] .dir i).setMount i x).Tree := by
    refine ht1.setMount hi (fun c hc' hm => ?_) (hroot ▸ hn) (fun c hc' hm => ?_) (hcov ▸ hcovered)
    · rcases hcases hc' with hc' | rfl
      · rw [hold hc'] at hm
        exact ht.nonzero (hfree ▸ ht.closed.mounted c hc' i hm)
      · rw [hself] at hm
        cases hm
    rw [hroot] at hm
    rcases hcases hc' with hc' | rfl
    · rw [hold hc'] at hm
      exact hout (ht.closed.children c hc' n hm)
    · rw [hself] at hm
      cases hm
  have hne' : n ≠ covered := (ne_of_mem_of_not_mem hc hout).symm
  have hmount : ((v.addNode n none [] .dir i).setMount i x).MountOk covered i := by
    refine ⟨?_, fun h0 => ht.nonzero (h0 ▸ hc), ?_, ?_, ?_⟩
    all_goals rw [Vfs.setMount_self]
    · exact hcov
    all_goals rw [Vfs.setMount_node, hroot, hself]
    · rfl
    · rfl
    · rw [hold hc]
      exact ht.fresh covered hc
  have hmounts : (((v.addNode n none [] .dir i).setMount i x).setNode covered
      { ((v.addNode n none [] .dir i).setMount i x).node covered with mounted := some i }).mounts
      i = x := by simp
  have ht3 := ht2.setMounted (by rw [Vfs.setMount_self, hroot]; exact hn) hmount hcovered
  refine ⟨ht3, ⟨ht3.root, ?_⟩, ?_, ?_⟩
  all_goals rw [hmounts, hroot]
  · exact hn
  all_goals rw [Vfs.setNode_of_ne hne', Vfs.setMount_node, hself]
  · rfl
  · rfl

theorem bootMount_stage (h : VfsOk P rest objs v m) (hk : Keeps rest m₀ m) (ht : v.Tree)
    (hi : i ≠ 0) (hfree : (v.mounts i).root = 0) (hname : NameOk name) :
    BootStage P rest objs m₀ (fun v' => v'.BootMount i [] ∧ ∀ j, j ≠ i → v'.mounts j = v.mounts j)
      (bootMount i name v m) := by
  unfold bootMount
  rcases hcov : coveredNode name v m with ⟨covered, v1, m1⟩
  obtain ⟨h1, hk1, ht1, hmounts1, hmem1⟩ := coveredNode_spec h ht hname hcov
  have hk' := hk.trans hk1
  split
  · next heq =>
    cases heq
    exact .fail h1.toVfsStock hk'
  next hne heq =>
  cases heq
  have hcovered : covered ∈ v1.nodes := hmem1 hne
  split
  · exact .fail h1.toVfsStock hk'
  dsimp only
  generalize hv2 : v1.setMount i
    { v1.mounts i with covered := covered, readonly := decide (i = 2) } = v2
  have h2 : VfsOk P rest objs v2 m1 := by
    subst hv2
    exact ⟨h1.setMount i _, h1.closed.setMount (fun _ => hcovered) fun n hn => h1.closed.mounted
      n hn i⟩
  rcases hnew : v2.newNode none [] .dir i m1 with ⟨n, v3, m3⟩
  rcases h2.newNode (fun p heq => by cases heq) hnew with
    ⟨rfl, rfl, hsame⟩ | ⟨hne3, hout, -, rfl, h3, hkeep⟩
  · exact .fail ((h2.congr hsame).setMount i _) (hk'.trans (Keeps.of_same hsame))
  have hk3 := hk'.trans hkeep.part
  split
  · next heq =>
    cases heq
    exact absurd rfl hne3
  next heq =>
  cases heq
  have hn : n ∈ (v2.addNode n none [] .dir i).nodes := by simp [Vfs.addNode_nodes]
  have hcov3 : covered ∈ (v2.addNode n none [] .dir i).nodes := by
    subst hv2
    exact mem_append_left _ hcovered
  generalize hv4 : (v2.addNode n none [] .dir i).setMount i
    { (v2.addNode n none [] .dir i).mounts i with root := n } = v4
  have h4 : VfsOk P rest objs v4 m3 := by
    subst hv4
    exact ⟨h3.setMount i _, h3.closed.setMount (h3.closed.covered i) fun _ _ _ => hn⟩
  -- the mount is set in two steps
  have heq4 : v4 = (v1.addNode n none [] .dir i).setMount i ⟨n, covered, decide (i = 2)⟩ := by
    subst hv4 hv2
    simp [Vfs.setMount, Vfs.addNode, Vfs.setNode, Vfs.freshNode]
  have houts : n ∉ v1.nodes := by
    subst hv2
    exact hout
  have hcov4 : covered ∈ v4.nodes := hv4 ▸ hcov3
  refine .of_ok (h4.setNode rfl (h4.closed.parent covered hcov4)
    (h4.closed.children covered hcov4) ?_) hk3
    ⟨?_, fun j hj => ?_⟩
  · rintro j ⟨⟩
    rw [heq4, Vfs.setMount_self, ← heq4, ← hv4]
    exact hn
  · rw [heq4]
    exact ht1.bootMount hi (hmounts1 ▸ hfree) hcovered hne3 houts rfl rfl
  · rw [Vfs.setNode_mounts, heq4, Vfs.setMount_of_ne hj, Vfs.addNode_mounts, hmounts1]

theorem bootDevice_stage {names : List (List UInt8)} (h : VfsOk P rest objs v m)
    (hk : Keeps rest m₀ m) (hmount : v.BootMount 2 names) (hname : NameOk name)
    (hnew : name ∉ names) :
    BootStage P rest objs m₀ (Vfs.BootMount 2 (names ++ [name])) (bootDevice name v m) := by
  unfold bootDevice
  have habsent : v.child (v.mounts 2).root name = none := by
    refine Vfs.child_eq_none.mpr fun c hc heq => hnew ?_
    rw [← hmount.names, ← heq]
    exact List.mem_map_of_mem hc
  rcases hrun : v.newNode (some (v.mounts 2).root) name .chr 2 m with ⟨n, v1, m1⟩
  rcases h.newChild hmount.tree hmount.roots.2 hmount.dir hname habsent hrun with
    ⟨rfl, rfl, hsame⟩ | ⟨hne, hfits, rfl, hok, ht1, hkeep⟩
  · exact .fail (h.congr hsame).toVfsStock (hk.trans (Keeps.of_same hsame))
  split
  · next heq =>
    cases heq
    exact absurd rfl hne
  next heq =>
  cases heq
  have hold : ∀ {c}, c ∈ v.nodes → c ≠ n := fun hc => ne_of_mem_of_not_mem hc hfits.notMem
  refine .of_ok hok (hk.trans hkeep) ⟨ht1, ⟨ht1.root, ?_⟩, ?_, ?_⟩
  all_goals rw [Vfs.addNode_mounts]
  · exact mem_append_left _ hmount.roots.2
  · rw [Vfs.addNode_old (hold hmount.roots.2)]
    exact hmount.dir
  have hnode : (v.addNode n (some (v.mounts 2).root) name .chr 2).node n =
      v.freshNode n (some (v.mounts 2).root) name .chr 2 := Vfs.addNode_self hfits.self
  rw [Vfs.addNode_old (hold hmount.roots.2), if_pos rfl, map_append, List.map_singleton, hnode,
    ← hmount.names]
  congr 1
  refine map_congr_left fun c hc => ?_
  rw [Vfs.addNode_old (hold (h.closed.children _ hmount.roots.2 c hc))]

theorem populate_stage (h : VfsOk P rest objs v m) (hk : Keeps rest m₀ m) (ht : v.Tree)
    (hfree : ∀ i, i ≠ 0 → (v.mounts i).root = 0) (bytes : List UInt8) :
    BootStage P rest objs m₀ Vfs.Tree (populate bytes v m) := by
  unfold populate
  have harchive := archiveLoop_stage bytes (bytes.length + 1) 0 h hk ht
  have htmp : BootStage P rest objs m₀ (fun v' => v'.Tree ∧ (v'.mounts 2).root = 0) _ :=
    harchive.andThen fun v1 m1 hv hm hq =>
      (bootMount_stage hv hm hq.1 Nat.one_ne_zero (by rw [hq.2]; exact hfree 1 Nat.one_ne_zero)
        (⟨by decide, by decide, by decide, by decide, by decide, by decide⟩ : NameOk
        (bytesOf "tmp"))).imp
      fun v2 hq2 =>
        ⟨hq2.1.tree, by rw [hq2.2 2 (by decide), hq.2]; exact hfree 2 (by decide : 2 ≠ 0)⟩
  have hdev : BootStage P rest objs m₀ (Vfs.BootMount 2 []) _ := htmp.andThen fun v1 m1 hv hm hq =>
    (bootMount_stage hv hm hq.1 (by decide : 2 ≠ 0) hq.2
      (⟨by decide, by decide, by decide, by decide, by decide, by decide⟩ : NameOk
      (bytesOf "dev"))).imp
    fun v2 hq2 => hq2.1
  have hconsole := hdev.andThen fun v1 m1 hv hm hq => bootDevice_stage hv hm hq
    (⟨by decide, by decide, by decide, by decide, by decide, by decide⟩ : NameOk
      (bytesOf "console")) (by decide)
  have hnull := hconsole.andThen fun v1 m1 hv hm hq => bootDevice_stage hv hm hq
    (⟨by decide, by decide, by decide, by decide, by decide, by decide⟩ : NameOk (bytesOf "null"))
      (by decide)
  exact hnull.imp fun v' hq => hq.tree

/-- No file system: before `vfs_init`, and after `vfs_shutdown`. -/
structure Vfs.Down (v : Vfs) : Prop where
  nodes : v.nodes = []
  root : ∀ i, (v.mounts i).root = 0
  covered : ∀ i, (v.mounts i).covered = 0

theorem Vfs.Down.setMount (h : v.Down) {x : Mount} (hroot : x.root = 0) (hcovered : x.covered = 0) :
    (v.setMount i x).Down := by
  refine ⟨h.nodes, fun j => ?_, fun j => ?_⟩
  · by_cases hj : j = i
    · rw [hj, Vfs.setMount_self, hroot]
    · rw [Vfs.setMount_of_ne hj, h.root]
  · by_cases hj : j = i
    · rw [hj, Vfs.setMount_self, hcovered]
    · rw [Vfs.setMount_of_ne hj, h.covered]

/-- **`vfs_init`** leaves a well-formed namespace, or nothing. -/
theorem vfsInit_spec (hdown : v.Down) (hst : Stocked P m rest) (hlive : liveBag m.slabs = objs)
    {archive : Option (List UInt8)} (hrun : vfsInit archive v m = (b, v', m')) : Keeps rest m m' ∧
      (b = true → VfsOk P rest objs v' m' ∧ v'.Tree) ∧
      (b = false → Stocked P m' rest ∧ liveBag m'.slabs = objs ∧ v'.Down) := by
  unfold vfsInit at hrun
  split at hrun
  · cases hrun
    exact ⟨Keeps.refl _ _, by simp, fun _ => ⟨hst, hlive, hdown⟩⟩
  next bytes =>
  split at hrun
  · next hne => exact absurd hdown.nodes hne
  dsimp only at hrun
  generalize hv0 : Vfs.setMount { v with nextInode := 1 } 0 { v.mounts 0 with readonly := true } =
    v0 at hrun
  have hnodes0 : v0.nodes = [] := hv0 ▸ hdown.nodes
  have hdown0 : v0.Down := by
    subst hv0
    have hnext : Vfs.Down { v with nextInode := 1 } := ⟨hdown.nodes, hdown.root, hdown.covered⟩
    exact hnext.setMount (hdown.root 0) (hdown.covered 0)
  have h0 : VfsOk P rest objs v0 m := by
    refine ⟨⟨?_, ?_⟩, ?_⟩
    · rw [Vfs.blockBag, hnodes0, map_nil, sum_nil, zero_add]
      exact hst
    · rw [hnodes0, coe_nil, zero_add]
      exact hlive
    constructor
    · simp [hnodes0]
    · simp [hnodes0]
    · simp [hnodes0]
    · intro i hi
      exact absurd (hdown0.covered i) hi
  rcases hnew : v0.newNode none [] .dir 0 m with ⟨n, v1, m1⟩
  rw [hnew] at hrun
  rcases h0.newNode (fun p heq => by cases heq) hnew with
    ⟨rfl, rfl, hsame⟩ | ⟨hne, -, -, hadd, h1, hkeep⟩
  · cases hrun
    exact ⟨Keeps.of_same hsame, by simp, fun _ =>
      ⟨hst.of_same hsame, hsame.slabs ▸ hlive, hdown0.setMount rfl (hdown0.covered 0)⟩⟩
  have hn : n ∈ v1.nodes := by simp [hadd, Vfs.addNode_nodes]
  have hclosed : (v1.setMount 0 { v1.mounts 0 with root := n }).Closed :=
    h1.closed.setMount (h1.closed.covered 0) fun _ _ _ => hn
  have htree : (v1.setMount 0 { v1.mounts 0 with root := n }).Tree := by
    subst hadd
    refine Vfs.tree_first hdown0.nodes hdown0.root hdown0.covered hne rfl ?_
    rw [Vfs.addNode_mounts]
    exact hdown0.covered 0
  have hfree : ∀ i, i ≠ 0 → ((v1.setMount 0 { v1.mounts 0 with root := n }).mounts i).root =
      0 := by
    intro i hi
    rw [Vfs.setMount_of_ne hi, hadd, Vfs.addNode_mounts]
    exact hdown0.root i
  have hstage : BootStage P rest objs m Vfs.Tree
      (populate bytes (v1.setMount 0 { v1.mounts 0 with root := n }) m1) :=
    populate_stage ⟨h1.setMount 0 _, hclosed⟩ hkeep.part htree hfree bytes
  split at hrun
  · next heq =>
    cases heq
    exact absurd rfl hne
  next heq =>
  cases heq
  split at hrun
  · next heq =>
    cases hrun
    rw [heq] at hstage
    exact ⟨hstage.keeps, fun _ => ⟨hstage.ok rfl, hstage.done rfl⟩, by simp⟩
  next heq =>
  cases hrun
  rw [heq] at hstage
  obtain ⟨hst', hlive', hk'⟩ := hstage.stock.shutdown
  exact ⟨hstage.keeps.trans
    hk', by simp, fun _ => ⟨hst', hlive', rfl, fun _ => rfl, fun _ => rfl⟩⟩

end

/-! ## Open files -/

namespace FileSys

variable {x : Description} {r : Except Errno Nat}

/-- The records of the file system beside its nodes. -/
def records (s : FileSys) : Multiset Nat := (s.files : Multiset Nat) + (s.pipes : Multiset Nat)

/-- Sound states: nodes, files and pipes own what they point to, every open file
is referred to, and one that is not a pipe has a node. -/
structure Ok (P : PagePool) (rest objs : Multiset Nat) (s : FileSys) : Prop where
  vfs : VfsOk P rest (s.records + objs) s.vfs s.machine
  references : ∀ f ∈ s.files, 0 < (s.file f).references
  node : ∀ f ∈ s.files, (s.file f).ops ≠ .pipe → (s.file f).node ∈ s.vfs.nodes

variable {s s' : FileSys} {f root base flags : Nat} {path : List UInt8}

section

variable (h : s.Ok P rest objs)

include h

theorem Ok.nodup_files : s.files.Nodup := by
  have hnd := h.vfs.stock.nodup_live
  rw [h.vfs.live, records] at hnd
  have hrec := (Multiset.nodup_add.mp (Multiset.nodup_add.mp hnd).2.1).1
  exact Multiset.coe_nodup.mp (Multiset.nodup_add.mp hrec).1

/-- A change of files that are there. -/
theorem Ok.setFile (href : 0 < x.references)
    (hnode : x.ops ≠ .pipe → x.node ∈ s.vfs.nodes) : (s.setFile f x).Ok P rest objs := by
  refine ⟨h.vfs, fun g hg => ?_, fun g hg => ?_⟩
  · show 0 < (update s.file f x g).references
    by_cases hgf : g = f
    · rw [hgf, update_self]
      exact href
    · rw [update_of_ne hgf]
      exact h.references g hg
  · show (update s.file f x g).ops ≠ .pipe → (update s.file f x g).node ∈ s.vfs.nodes
    by_cases hgf : g = f
    · rw [hgf, update_self]
      exact hnode
    · rw [update_of_ne hgf]
      exact h.node g hg

omit h in
/-- One file more, among nodes that may be more as well. -/
theorem Ok.addFile {rest0 objs0 : Multiset Nat} (h : s.Ok P rest0 objs0) {live : Nat}
    (hvfs : VfsOk P rest (f ::ₘ (s.records + objs)) v m) (hgrows : ∀ n ∈ s.vfs.nodes, n ∈ v.nodes)
    (href : 0 < x.references) (hnode : x.ops ≠ .pipe → x.node ∈ v.nodes) : Ok P rest objs { s with
      vfs := v
      machine := m
      files := s.files ++ [f]
      file := update s.file f x
      liveFiles := live } := by
  have hcases : ∀ {q : Description → Prop}, q x → (∀ g ∈ s.files, q (s.file g)) →
      ∀ g ∈ s.files ++ [f], q (update s.file f x g) := by
    intro q hx hq g hg
    by_cases hgf : g = f
    · rw [hgf, update_self]
      exact hx
    · rw [update_of_ne hgf]
      exact hq g ((List.mem_append.mp hg).resolve_right fun hm => hgf (List.mem_singleton.mp hm))
  refine ⟨?_, hcases (q := fun d => 0 < d.references) href h.references,
    hcases (q := fun d => d.ops ≠ .pipe → d.node ∈ v.nodes) hnode fun g hg hp =>
    hgrows _ (h.node g hg hp)⟩
  have hrec : ((s.files ++ [f] : List Nat) : Multiset Nat) + (s.pipes : Multiset Nat) + objs =
      f ::ₘ (s.records + objs) := by
    rw [← coe_add, coe_singleton, ← singleton_add, records]
    abel
  show VfsOk P rest (((s.files ++ [f] : List Nat) : Multiset Nat) + (s.pipes : Multiset Nat) + objs)
    v m
  rw [hrec]
  exact hvfs

/-- **`file_new`** fails and changes nothing, or adds one file. -/
theorem Ok.fileNew {ops : FileOps} (hrun : s.fileNew ops flags = (f, s')) :
    (f = 0 ∧ ∃ m, s.machine.Same m ∧ s' = { s with machine := m }) ∨
    (f ≠ 0 ∧ f ∉ s.files ∧ f ∉ s.pipes ∧ ∃ m, VfsOk P rest (f ::ₘ (s.records + objs)) s.vfs m ∧
      Keeps (s.vfs.blockBag + rest) s.machine m ∧
      s' = { s with
        machine := m
        files := s.files ++ [f]
        file := update s.file f
          { ops := ops, flags := flags, pipe := none, references := 1, node := 0, offset := 0 }
        liveFiles := s.liveFiles + 1 }) := by
  unfold FileSys.fileNew at hrun
  rcases hk : kmalloc fileRecordSize s.machine with ⟨a, m⟩
  rw [hk] at hrun
  rcases h.vfs.kmalloc hk with ⟨rfl, hsame⟩ | ⟨hne, -, hout, hok, hkeep⟩
  · cases hrun
    exact .inl ⟨rfl, m, hsame, rfl⟩
  split at hrun
  · next heq =>
    cases heq
    exact absurd rfl hne
  next heq =>
  cases heq
  cases hrun
  simp only [records, mem_add, mem_coe, not_or] at hout
  exact .inr ⟨hne, hout.1.1, hout.1.2, _, hok, hkeep, rfl⟩

/-- Where and when `vfs_openat` creates a node. -/
structure Creates (v : Vfs) (root base : Nat) (path : List UInt8) (p : Nat) : Prop where
  path_ne : path ≠ []
  path_lt : path.length < pathLimit
  last : path.getLast? ≠ some slash
  name_lt : (splitPath path).2.length < nameLimit
  parent : (if (splitPath path).1 = [] then .ok base
    else v.vfsResolve root base (splitPath path).1 false) = .ok p
  dir : (v.node p).type = .dir
  writable : (v.mountOf p).readonly = false
  absent : v.child p (splitPath path).2 = none

omit h in
theorem Creates.mem {p : Nat} (h : Creates v root base path p) (hc : v.Closed)
    (hroot : root ∈ v.nodes) (hbase : base ∈ v.nodes) : p ∈ v.nodes := by
  have hparent := h.parent
  split at hparent
  · cases hparent
    exact hbase
  · exact hc.vfsResolve_mem hroot hbase hparent

omit h

/-- A call that fails and changes nothing but memory that nobody owns. -/
def Refused {α : Type} (s : FileSys) (r : Except Errno α) (s' : FileSys) : Prop :=
  ∃ e m, r = .error e ∧ s.machine.Same m ∧ s' = { s with machine := m }

theorem Refused.of_eq {α : Type} {r : Except Errno α} {e : Errno} (h : (.error e, s) = (r, s')) :
    s.Refused r s' := by
  cases h
  exact ⟨e, s.machine, rfl, ⟨rfl, rfl, rfl, rfl⟩, rfl⟩

/-- The node `n` is new, in the directory `p`, and all else as it was. -/
def Created (P : PagePool) (rest objs : Multiset Nat) (s : FileSys) (root base : Nat)
    (path : List UInt8) (n p : Nat) (s' : FileSys) : Prop :=
  ∃ m, s' = { s with
      vfs := s.vfs.addNode n (some p) (splitPath path).2 .reg (s.vfs.node p).mount
      machine := m } ∧
    n ≠ 0 ∧ n ∉ s.vfs.nodes ∧ Creates s.vfs root base path p ∧
    VfsOk P rest (s.records + objs) s'.vfs m ∧ Keeps (s.vfs.blockBag + rest) s.machine m

include h

variable (hroot : root ∈ s.vfs.nodes) (hbase : base ∈ s.vfs.nodes)

include hroot hbase

/-- The creation fails and changes nothing, or adds one node. -/
theorem Ok.openCreate (hrun : s.openCreate root base path = (r, s')) :
    s.Refused r s' ∨ ∃ n p, r = .ok n ∧ s.Created P rest objs root base path n p s' := by
  unfold FileSys.openCreate at hrun
  split at hrun
  · exact .inl (.of_eq hrun)
  next hpath =>
  simp only [not_or, Nat.not_le] at hpath
  dsimp only at hrun
  split at hrun
  · exact .inl (.of_eq hrun)
  next hname =>
  split at hrun
  · exact .inl (.of_eq hrun)
  next p hparent =>
  split at hrun
  · exact .inl (.of_eq hrun)
  next hdir =>
  split at hrun
  · exact .inl (.of_eq hrun)
  next hwritable =>
  split at hrun
  · exact .inl (.of_eq hrun)
  next habsent =>
  have hcreates : Creates s.vfs root base path p :=
    ⟨hpath.1, hpath.2.1, hpath.2.2, Nat.lt_of_not_le hname, hparent, not_not.mp hdir,
      Bool.eq_false_iff.mpr hwritable, Option.not_isSome_iff_eq_none.mp habsent⟩
  have hp : ∀ q, some p = some q → q ∈ s.vfs.nodes := fun q heq =>
    Option.some.inj heq ▸ hcreates.mem h.vfs.closed hroot hbase
  split at hrun
  · next v m heq =>
    cases hrun
    rcases h.vfs.newNode hp heq with ⟨-, rfl, hsame⟩ | ⟨hne, -⟩
    · exact .inl ⟨_, _, rfl, hsame, rfl⟩
    · exact absurd rfl hne
  · next n v m hne heq =>
    cases hrun
    rcases h.vfs.newNode hp heq with ⟨h0, -⟩ | ⟨-, hout, -, rfl, hok, hkeep⟩
    · exact absurd h0 hne
    · exact .inr ⟨n, p, rfl, m, rfl, hne, hout, hcreates, hok, hkeep⟩

/-- What `vfs_openat` makes of a path: nothing, a node that is there, or a new
one. -/
theorem Ok.openNode
    {r : Except Errno (Nat × Bool)} (hrun : s.openNode root base path flags = (r, s')) :
    s.Refused r s' ∨ (∃ n, r = .ok (n, false) ∧ n ∈ s.vfs.nodes ∧ s' = s ∧
      s.vfs.vfsResolve root base path (flags &&& oNofollow ≠ 0) = .ok n) ∨
    (∃ n p, r = .ok (n, true) ∧ flags &&& oCreat ≠ 0 ∧
      s.vfs.vfsResolve root base path (flags &&& oNofollow ≠ 0) = .error .noent ∧
      s.Created P rest objs root base path n p s') := by
  unfold FileSys.openNode at hrun
  split at hrun
  · next n hn =>
    split at hrun
    · exact .inl (.of_eq hrun)
    · cases hrun
      exact .inr (.inl ⟨n, rfl, h.vfs.closed.vfsResolve_mem hroot hbase hn, rfl, hn⟩)
  next e hresolve =>
  split at hrun
  · next hcreat =>
    rcases hc : s.openCreate root base path with ⟨r1, s1⟩
    rw [hc] at hrun
    rcases h.openCreate hroot hbase hc with
      ⟨e1, m, rfl, hsame, rfl⟩ | ⟨n, p, rfl, hnew⟩
    · cases hrun
      exact .inl ⟨_, _, rfl, hsame, rfl⟩
    · cases hrun
      exact .inr (.inr ⟨n, p, rfl, hcreat.2, hcreat.1 ▸ hresolve, hnew⟩)
  · exact .inl (.of_eq hrun)

/-- The state `s₁` in which `vfs_openat` has its node `n`: nothing but a created
node is new. -/
structure Chosen (P : PagePool) (rest objs : Multiset Nat) (flags : Nat) (s : FileSys) (n : Nat)
    (created : Bool) (s₁ : FileSys) : Prop where
  eq : s₁ = { s with vfs := s₁.vfs, machine := s₁.machine }
  ok : s₁.Ok P rest objs
  mem : n ∈ s₁.vfs.nodes
  grows : ∀ x ∈ s.vfs.nodes, x ∈ s₁.vfs.nodes
  bag : s₁.vfs.blockBag = s.vfs.blockBag
  keeps : Keeps (s.vfs.blockBag + rest) s.machine s₁.machine
  source : (created = false ∧ s₁.vfs = s.vfs) ∨
    (created = true ∧ flags &&& oCreat ≠ 0 ∧ n ∉ s.vfs.nodes ∧ ∃ p name mount, p ∈ s.vfs.nodes ∧
      s₁.vfs = s.vfs.addNode n (some p) name .reg mount)

theorem Ok.chosen
    {created : Bool} (hrun : s.openNode root base path flags = (.ok (n, created), s')) :
    Chosen P rest objs flags s n created s' := by
  rcases h.openNode hroot hbase hrun with
    ⟨e, m, hr, -⟩ | ⟨x, hr, hmem, rfl, -⟩ | ⟨x, p, hr, hcreat, -, m, rfl, -, hout,
      hcreates, hok, hkeep⟩
  · cases hr
  · cases hr
    exact ⟨rfl, h, hmem, fun _ hx => hx, rfl, Keeps.refl _ _, .inl ⟨rfl, rfl⟩⟩
  cases hr
  have hp := hcreates.mem h.vfs.closed hroot hbase
  have hgrows : ∀ x ∈ s.vfs.nodes, x ∈ (s.vfs.addNode n (some p) (splitPath path).2 .reg
      (s.vfs.node p).mount).nodes := fun x hx => mem_append_left _ hx
  have hself : some p ≠ some n := fun heq => hout (Option.some.inj heq ▸ hp)
  exact ⟨rfl, ⟨hok, h.references, fun f hf hops => hgrows _ (h.node f hf hops)⟩,
    mem_append_right _ List.mem_cons_self, hgrows, Vfs.addNode_blockBag hout hself, hkeep,
    .inr ⟨rfl, hcreat, hout, p, _, _, hp, rfl⟩⟩

end

/-- What the rest of the kernel sees of the file system is the same. -/
structure Same (s s' : FileSys) : Prop where
  vfs : s.vfs.Same s'.vfs
  contents : ∀ q ∈ s.vfs.blockBag, Set.EqOn s'.machine.mem s.machine.mem (pageBytes q)
  files : s'.files = s.files
  file : ∀ f ∈ s.files, s'.file f = s.file f
  pipes : s'.pipes = s.pipes
  pipe : ∀ q ∈ s.pipes, s'.pipe q = s.pipe q
  liveFiles : s'.liveFiles = s.liveFiles
  input : s'.input = s.input
  output : s'.output = s.output

theorem Same.refl (s : FileSys) : s.Same s :=
  ⟨.refl _, fun _ _ => Set.eqOn_refl _ _, rfl, fun _ _ => rfl, rfl, fun _ _ => rfl, rfl, rfl, rfl⟩

/-- A step that touches neither files nor pipes. -/
theorem Same.of_vfs (hv : s.vfs.Same v) (hk : Keeps (s.vfs.blockBag + rest) s.machine m) :
    s.Same { s with vfs := v, machine := m } :=
  ⟨hv, fun q hq => hk.bytes q (Multiset.mem_add.mpr (.inl hq)), rfl, fun _ _ => rfl, rfl,
    fun _ _ => rfl, rfl, rfl, rfl⟩

/-- A step that then touches memory only. -/
theorem Same.of_machine (h : s.Same s') (hk : Keeps (s.vfs.blockBag + rest) s'.machine m) :
    s.Same { s' with machine := m } :=
  { h with contents := fun q hq =>
      (hk.bytes q (Multiset.mem_add.mpr (.inl hq))).trans (h.contents q hq) }

/-- The state is as it was, but for memory that nobody owns. -/
structure Restored (P : PagePool) (rest objs : Multiset Nat) (s s' : FileSys) : Prop where
  same : s.Same s'
  vfs : VfsOk P rest (s.records + objs) s'.vfs s'.machine
  keeps : Keeps (s.vfs.blockBag + rest) s.machine s'.machine

theorem Restored.of_same (h : s.Ok P rest objs) (hm : s.machine.Same m) :
    Restored P rest objs s { s with machine := m } :=
  ⟨.of_vfs (.refl _) (Keeps.of_same hm : Keeps (s.vfs.blockBag + rest) _ _), h.vfs.congr hm,
    Keeps.of_same hm⟩

/-- The files stay in order, whoever else owns what. -/
theorem Ok.of_same (h : s.Ok P rest objs) (hs : s.Same s') {rest' objs' : Multiset Nat}
    (hv : VfsOk P rest' (s.records + objs') s'.vfs s'.machine) : s'.Ok P rest' objs' := by
  have hrec : s'.records = s.records := by rw [records, records, hs.files, hs.pipes]
  refine ⟨hrec ▸ hv, fun f hf => ?_, fun f hf => ?_⟩
  · rw [hs.files] at hf
    rw [hs.file f hf]
    exact h.references f hf
  · rw [hs.files] at hf
    rw [hs.file f hf, hs.vfs.nodes]
    exact h.node f hf

theorem Restored.ok (hr : Restored P rest objs s s') (h : s.Ok P rest objs) : s'.Ok P rest objs :=
  h.of_same hr.same hr.vfs

/-- No page is lost or won. -/
theorem Restored.free (hr : Restored P rest objs s s') (h : s.Ok P rest objs) (q : Nat) :
    q ∈ s'.machine.freeList ↔ q ∈ s.machine.freeList := by
  have hst := hr.vfs.stock
  rw [hr.same.vfs.blockBag] at hst
  exact h.vfs.stock.mem_freeList_iff hst (by rw [hr.vfs.live, hr.same.vfs.nodes, h.vfs.live])

/-- **`rollback`** undoes the choice of a node. -/
theorem Chosen.rollback {created : Bool} {s1 : FileSys}
    (hc : Chosen P rest objs flags s n created s1) (h : s.Ok P rest objs) (hm : s1.machine.Same m) :
    Restored P rest objs s ({ s1 with machine := m }.rollback n created) := by
  obtain ⟨v1, m1, rfl⟩ : ∃ v m, s1 = { s with vfs := v, machine := m } := ⟨_, _, hc.eq⟩
  have hk : Keeps (s.vfs.blockBag + rest) s.machine m := hc.keeps.trans (Keeps.of_same hm)
  have hok : VfsOk P rest (s.records + objs) v1 m := hc.ok.vfs.congr hm
  have hsource := hc.source
  dsimp only at hsource
  rcases hsource with ⟨rfl, rfl⟩ | ⟨rfl, -, hout, p, name, mount, hp, rfl⟩
  · exact ⟨.of_vfs (.refl _) hk, hok, hk⟩
  · obtain ⟨hdrop, hkeep⟩ := hok.dropNode h.vfs.closed hout hp
    exact ⟨.of_vfs (h.vfs.closed.same_dropNode hout hp) (hk.trans hkeep), hdrop, hk.trans hkeep⟩

/-- What a successful `vfs_openat` leaves: one file more, for a node. -/
structure Opened (P : PagePool) (rest objs : Multiset Nat) (flags : Nat) (s : FileSys) (f n : Nat)
    (s' : FileSys) : Prop where
  fresh : f ≠ 0 ∧ f ∉ s.files
  eq : ∃ ops : FileOps, ops ≠ .pipe ∧ s' = { s with
    vfs := s'.vfs
    machine := s'.machine
    files := s.files ++ [f]
    file := update s.file f
      { ops := ops, flags := flags, pipe := none, references := 1, node := n, offset := 0 }
    liveFiles := s.liveFiles + 1 }
  vfs : VfsOk P rest (f ::ₘ (s.records + objs)) s'.vfs s'.machine
  mem : n ∈ s'.vfs.nodes
  grows : ∀ x ∈ s.vfs.nodes, x ∈ s'.vfs.nodes
  keeps : Keeps rest s.machine s'.machine
  /-- Nothing else changes unless the flags ask for it. -/
  quiet : flags &&& oCreat = 0 → flags &&& oTrunc = 0 →
    s'.vfs = s.vfs ∧ Keeps (s.vfs.blockBag + rest) s.machine s'.machine

theorem Opened.ok (ho : Opened P rest objs flags s f n s') (h : s.Ok P rest objs) :
    s'.Ok P rest objs := by
  obtain ⟨ops, hops, heq⟩ := ho.eq
  obtain ⟨v, m, rfl⟩ : ∃ v m, s' = { s with
      vfs := v
      machine := m
      files := s.files ++ [f]
      file := update s.file f
        { ops := ops, flags := flags, pipe := none, references := 1, node := n, offset := 0 }
      liveFiles := s.liveFiles + 1 } := ⟨_, _, heq⟩
  exact h.addFile ho.vfs ho.grows Nat.one_pos fun _ => ho.mem

section

variable (h : s.Ok P rest objs)

include h

/-- **`vfs_openat`** fails and undoes all it did, or opens one file. -/
theorem Ok.vfsOpenat (hroot : root ∈ s.vfs.nodes)
    (hbase : base ∈ s.vfs.nodes) (hrun : s.vfsOpenat root base path flags = (r, s')) :
    (∃ e, r = .error e ∧ Restored P rest objs s s') ∨
    (∃ f n, r = .ok f ∧ Opened P rest objs flags s f n s') := by
  have hrefl : s.machine.Same s.machine := ⟨rfl, rfl, rfl, rfl⟩
  unfold FileSys.vfsOpenat at hrun
  split at hrun
  · cases hrun
    exact .inl ⟨_, rfl, .of_same h hrefl⟩
  split at hrun
  · next e s1 hnode =>
    cases hrun
    rcases h.openNode hroot hbase hnode with ⟨e1, m, hr, hsame, rfl⟩ | ⟨n, hr, -⟩ | ⟨n, p, hr, -⟩
    · exact .inl ⟨_, rfl, .of_same h hsame⟩
    · cases hr
    · cases hr
  next n created s1 hnode =>
  have hc := h.chosen hroot hbase hnode
  obtain ⟨v1, m1, rfl⟩ : ∃ v m, s1 = { s with vfs := v, machine := m } := ⟨_, _, hc.eq⟩
  split at hrun
  · cases hrun
    exact .inl ⟨_, rfl, hc.rollback h ⟨rfl, rfl, rfl, rfl⟩⟩
  dsimp only at hrun
  generalize hops : (if (v1.node n).type = .chr then FileOps.device else FileOps.regular) =
    ops at hrun
  have hpipe : ops ≠ .pipe := by
    rw [← hops]
    split <;> decide
  rcases hnew : FileSys.fileNew { s with vfs := v1, machine := m1 } ops flags with ⟨f, s2⟩
  rw [hnew] at hrun
  rcases hc.ok.fileNew hnew with ⟨rfl, m, hsame, rfl⟩ | ⟨hne, hout, -, m, hvfs, hkeep, rfl⟩
  · cases hrun
    exact .inl ⟨_, rfl, hc.rollback h hsame⟩
  split at hrun
  · next heq =>
    cases heq
    exact absurd rfl hne
  next heq =>
  cases heq
  cases hrun
  have hk : Keeps rest s.machine m :=
    hc.keeps.part.trans hkeep.part
  right
  refine ⟨f, n, rfl, ?_⟩
  by_cases htrunc : flags &&& oTrunc ≠ 0
  · rw [if_pos htrunc]
    obtain ⟨hvfs', hk'⟩ := hvfs.truncate hc.mem
    refine ⟨⟨hne, hout⟩, ⟨ops, hpipe, ?_⟩, hvfs', hc.mem, hc.grows, hk.trans hk',
      fun _ h0 => absurd h0 htrunc⟩
    simp [FileSys.truncate, FileSys.setFile]
  rw [if_neg htrunc]
  refine ⟨⟨hne, hout⟩, ⟨ops, hpipe, ?_⟩, hvfs, hc.mem, hc.grows, hk, fun hcreat _ => ?_⟩
  · simp [FileSys.setFile]
  rcases hc.source with ⟨-, hv⟩ | ⟨-, hno, -⟩
  · exact ⟨hv, hc.keeps.trans (hc.bag ▸ hkeep)⟩
  · exact absurd hcreat hno

/-! ## The other calls -/

/-- **`file_put`** of a file that is not a pipe's; the last one frees its record. -/
theorem Ok.filePut (hf : f ∈ s.files) (hops : (s.file f).ops ≠ .pipe) :
    (s.filePut f).Ok P rest objs ∧ (s.filePut f).vfs = s.vfs ∧ (s.filePut f).pipes = s.pipes ∧
      (∀ g ∈ (s.filePut f).files, g ∈ s.files ∧ ((s.filePut f).file g).ops = (s.file g).ops) ∧
      Keeps (s.vfs.blockBag + rest) s.machine (s.filePut f).machine := by
  have hself : ∀ x, (s.setFile f x).file f = x := fun x => update_self ..
  have hopsOf : ∀ k g, ((s.setFile f { s.file f with references := k }).file g).ops =
      (s.file g).ops := by
    intro k g
    by_cases hgf : g = f
    · rw [hgf, hself]
    · show (update s.file f _ g).ops = _
      rw [update_of_ne hgf]
  unfold FileSys.filePut
  dsimp only
  rw [hself]
  dsimp only
  rw [if_neg hops]
  split
  · have hnd := h.nodup_files
    have hrec : s.records + objs =
        f ::ₘ (((s.files.erase f : List Nat) : Multiset Nat) +
          (s.pipes : Multiset Nat) + objs) := by
      rw [records, ← coe_erase, ← cons_add, ← cons_add,
        cons_erase (Multiset.mem_coe.mpr hf)]
    have hvfs := h.vfs
    rw [hrec] at hvfs
    obtain ⟨hvfs', hk⟩ := hvfs.kfree
    have hne : ∀ g ∈ s.files.erase f, g ∈ s.files ∧ g ≠ f := fun g hg =>
      ⟨List.mem_of_mem_erase hg, fun heq => hnd.not_mem_erase (heq ▸ hg)⟩
    have hfile : ∀ g ∈ s.files.erase f, ∀ x, update s.file f x g = s.file g := fun g hg x =>
      update_of_ne (hne g hg).2 ..
    refine ⟨⟨hvfs', fun g hg => ?_, fun g hg => ?_⟩, rfl, rfl,
      fun g hg => ⟨(hne g hg).1, hopsOf _ g⟩, hk⟩
    · show 0 < (update s.file f _ g).references
      rw [hfile g hg]
      exact h.references g (hne g hg).1
    · show (update s.file f _ g).ops ≠ .pipe → (update s.file f _ g).node ∈ s.vfs.nodes
      rw [hfile g hg]
      exact h.node g (hne g hg).1
  · next hcount =>
    exact ⟨h.setFile (Nat.pos_of_ne_zero hcount) (h.node f hf), rfl, rfl,
      fun g hg => ⟨hg, hopsOf _ g⟩, Keeps.refl _ _⟩

/-- **`regular_write`** through an open file. -/
theorem Ok.written (hf : f ∈ s.files) (hops : (s.file f).ops ≠ .pipe)
    {readonly append : Bool} {buffer : List UInt8} {w : Writing}
    (hrun : regularWrite readonly append buffer (s.writing f) = (r, w)) :
    (s.written f w).Ok P rest objs ∧ Keeps rest s.machine w.machine := by
  have hn := h.node f hf hops
  obtain ⟨others, hsplit, hset⟩ := Vfs.blockBag_split h.vfs.nodup hn
  have hst : Stocked P (s.writing f).machine ((s.writing f).node.blockBag + (others + rest)) := by
    rw [← add_assoc]
    exact hsplit ▸ h.vfs.stock
  obtain ⟨hst', hkept⟩ := regularWrite_spec hst hrun
  have hclosed :=
    h.vfs.closed.setNode (n := (s.file f).node) (x := { s.nodeOf f with toVnode := w.node })
    (h.vfs.closed.parent _ hn) (h.vfs.closed.children _ hn) (h.vfs.closed.mounted _ hn)
  have hvfs : VfsOk P rest (s.records + objs)
      (s.vfs.setNode (s.file f).node { s.nodeOf f with toVnode := w.node }) w.machine := by
    refine ⟨⟨?_, ?_⟩, hclosed⟩
    · rw [hset, add_assoc]
      exact hst'
    · rw [hkept.slabs]
      exact h.vfs.live
  have hfiles := h.setFile (f := f) (x := { s.file f with offset := w.offset })
    (h.references f hf) (h.node f hf)
  exact ⟨⟨hvfs, hfiles.references, hfiles.node⟩, hkept.keeps.part⟩

/-- No pipes, as long as nobody calls `pipe_create`. -/
structure NoPipes (s : FileSys) : Prop where
  pipes : s.pipes = []
  ops : ∀ f ∈ s.files, (s.file f).ops ≠ .pipe

omit h in
theorem NoPipes.same (h : s.NoPipes) (hs : s.Same s') : s'.NoPipes := by
  refine ⟨hs.pipes.trans h.pipes, fun f hf => ?_⟩
  rw [hs.files] at hf
  rw [hs.file f hf]
  exact h.ops f hf

omit h in
/-- A change of a file that leaves its kind alone. -/
theorem NoPipes.setFile (h : s.NoPipes) (hf : f ∈ s.files) (hx : x.ops = (s.file f).ops) :
    (s.setFile f x).NoPipes := by
  refine ⟨h.pipes, fun g hg => ?_⟩
  show (update s.file f x g).ops ≠ .pipe
  by_cases hgf : g = f
  · rw [hgf, update_self, hx]
    exact h.ops f hf
  · rw [update_of_ne hgf]
    exact h.ops g hg

variable (hp : s.NoPipes)

include hp

section

variable (hf : f ∈ s.files)

include hf

theorem Ok.read {size : Nat}
    {r : Except Errno (List UInt8)} (hrun : s.fileRead f size = some (r, s')) :
    s'.Ok P rest objs ∧ s'.NoPipes ∧ Keeps rest s.machine s'.machine := by
  unfold FileSys.fileRead at hrun
  split at hrun
  · cases hrun
    exact ⟨h, hp, Keeps.refl _ _⟩
  split at hrun
  · obtain ⟨x, hx, heq⟩ := Option.map_eq_some_iff.mp hrun
    cases heq
    unfold FileSys.deviceRead at hx
    split at hx
    · cases hx
      exact ⟨h, hp, Keeps.refl _ _⟩
    split at hx
    · cases hx
    · cases hx
      exact ⟨⟨h.vfs, h.references, h.node⟩, ⟨hp.pipes, hp.ops⟩, Keeps.refl _ _⟩
  · next hops => exact absurd hops (hp.ops f hf)
  · split at hrun
    · cases hrun
      exact ⟨h, hp, Keeps.refl _ _⟩
    · cases hrun
      exact ⟨h.setFile (h.references f hf) (h.node f hf), hp.setFile hf rfl, Keeps.refl _ _⟩

theorem Ok.write {buffer : List UInt8} (hrun : s.fileWrite f buffer = some (r, s')) :
    s'.Ok P rest objs ∧ s'.NoPipes ∧ Keeps rest s.machine s'.machine := by
  unfold FileSys.fileWrite at hrun
  split at hrun
  · cases hrun
    exact ⟨h, hp, Keeps.refl _ _⟩
  split at hrun
  · cases hrun
    unfold FileSys.deviceWrite
    split
    · exact ⟨h, hp, Keeps.refl _ _⟩
    · exact ⟨⟨h.vfs, h.references, h.node⟩, ⟨hp.pipes, hp.ops⟩, Keeps.refl _ _⟩
  · next hops => exact absurd hops (hp.ops f hf)
  rcases hw : regularWrite (s.vfs.mountOf (s.file f).node).readonly
      (decide ((s.file f).flags &&& oAppend ≠ 0)) buffer (s.writing f) with ⟨n, w⟩
  simp only [hw] at hrun
  cases hrun
  obtain ⟨hok, hk⟩ := h.written hf (hp.ops f hf) hw
  have hfiles := hp.setFile (x := { s.file f with offset := w.offset }) hf rfl
  exact ⟨hok, ⟨hp.pipes, hfiles.ops⟩, hk⟩

theorem Ok.seek (offset : Int) (whence : Nat) :
    (s.fileSeek f offset whence).2.Ok P rest objs ∧ (s.fileSeek f offset whence).2.NoPipes ∧
      Keeps rest s.machine (s.fileSeek f offset whence).2.machine := by
  unfold FileSys.fileSeek
  split
  · exact ⟨h, hp, Keeps.refl _ _⟩
  dsimp only
  split
  · exact ⟨h, hp, Keeps.refl _ _⟩
  · exact ⟨h.setFile (h.references f hf) (h.node f hf), hp.setFile hf rfl, Keeps.refl _ _⟩

theorem Ok.getdents (size : Nat) :
    (s.fileGetdents f size).2.Ok P rest objs ∧ (s.fileGetdents f size).2.NoPipes ∧
      Keeps rest s.machine (s.fileGetdents f size).2.machine := by
  unfold FileSys.fileGetdents
  split
  · exact ⟨h, hp, Keeps.refl _ _⟩
  split
  · exact ⟨h, hp, Keeps.refl _ _⟩
  · exact ⟨h.setFile (h.references f hf) (h.node f hf), hp.setFile hf rfl, Keeps.refl _ _⟩

end

omit hp in
omit h in
theorem Opened.noPipes (ho : Opened P rest objs flags s f n s') (hp : s.NoPipes) : s'.NoPipes := by
  obtain ⟨ops, hops, heq⟩ := ho.eq
  rw [heq]
  refine ⟨hp.pipes, fun g hg => ?_⟩
  dsimp only at hg ⊢
  by_cases hgf : g = f
  · rw [hgf, update_self]
    exact hops
  · rw [update_of_ne hgf]
    exact hp.ops g ((List.mem_append.mp hg).resolve_right fun hm => hgf (List.mem_singleton.mp hm))

/-- **Every call** keeps the resources of the file system in order. -/
theorem Ok.step {c : FsCall} (hrun : fsStep s c = some s') :
    s'.Ok P rest objs ∧ s'.NoPipes ∧ Keeps rest s.machine s'.machine := by
  cases c with
  | openat root base path flags =>
    rw [fsStep] at hrun
    split at hrun
    · next hmem =>
      rcases hopen : s.vfsOpenat root base path flags with ⟨r, s1⟩
      rw [hopen] at hrun
      cases hrun
      rcases h.vfsOpenat hmem.1 hmem.2 hopen with ⟨e, -, hr⟩ | ⟨f, n, -, ho⟩
      · exact ⟨hr.ok h, hp.same hr.same, hr.keeps.part⟩
      · exact ⟨ho.ok h, ho.noPipes hp, ho.keeps⟩
    · cases hrun
  | get f =>
    rw [fsStep] at hrun
    split at hrun
    · next hf =>
      cases hrun
      exact ⟨h.setFile (Nat.succ_pos _) (h.node f hf), hp.setFile hf rfl, Keeps.refl _ _⟩
    · cases hrun
  | put f =>
    rw [fsStep] at hrun
    split at hrun
    · next hf =>
      cases hrun
      obtain ⟨hok, -, hpipes, hfiles, hk⟩ := h.filePut hf (hp.ops f hf)
      refine ⟨hok, ⟨hpipes.trans hp.pipes, fun g hg => ?_⟩, hk.part⟩
      rw [(hfiles g hg).2]
      exact hp.ops g (hfiles g hg).1
    · cases hrun
  | read f size =>
    rw [fsStep] at hrun
    split at hrun
    · next hf =>
      obtain ⟨⟨r, s1⟩, hread, rfl⟩ := Option.map_eq_some_iff.mp hrun
      exact h.read hp hf hread
    · cases hrun
  | write f buffer =>
    rw [fsStep] at hrun
    split at hrun
    · next hf =>
      obtain ⟨⟨r, s1⟩, hwrite, rfl⟩ := Option.map_eq_some_iff.mp hrun
      exact h.write hp hf hwrite
    · cases hrun
  | seek f offset whence =>
    rw [fsStep] at hrun
    split at hrun
    · next hf =>
      cases hrun
      exact h.seek hp hf offset whence
    · cases hrun
  | getdents f size =>
    rw [fsStep] at hrun
    split at hrun
    · next hf =>
      cases hrun
      exact h.getdents hp hf size
    · cases hrun

/-- What holds in every state of a run. -/
theorem Ok.reach (hreach : Reach fsStep Always s s') : s'.Ok P rest objs ∧ s'.NoPipes := by
  refine hreach.invariant (I := fun s => s.Ok P rest objs ∧ s.NoPipes) ⟨h, hp⟩
    fun s c s' hs _ hstep => ?_
  obtain ⟨hok', hnone', -⟩ := hs.1.step hs.2 hstep
  exact ⟨hok', hnone'⟩

end

/-- A file system that has been started, before any file is open. -/
theorem init_spec {archive : Option (List UInt8)} (hdown : s.vfs.Down) (hfiles : s.files = [])
    (hpipes : s.pipes = []) (hst : Stocked P s.machine rest) (hrun : s.init archive = (true, s')) :
    s'.Ok P rest (liveBag s.machine.slabs) ∧ s'.NoPipes ∧ s'.files = [] ∧ s'.vfs.Tree := by
  unfold FileSys.init at hrun
  rcases hinit : vfsInit archive s.vfs s.machine with ⟨ok, v, m⟩
  rw [hinit] at hrun
  cases hrun
  obtain ⟨-, hdone, -⟩ := vfsInit_spec hdown hst rfl hinit
  obtain ⟨hvfs, htree⟩ := hdone rfl
  refine ⟨⟨?_, ?_, ?_⟩, ⟨hpipes, ?_⟩, hfiles, htree⟩
  · have hnone : FileSys.records { s with vfs := v, machine := m } = 0 := by
      simp [records, hfiles, hpipes]
    rw [hnone, zero_add]
    exact hvfs
  · simp [hfiles]
  · simp [hfiles]
  · simp [hfiles]

end FileSys

/-! ## Pages are conserved -/

/-- Every block pointer is a page of its own, and not a free one. -/
structure BlocksOwned (s : FileSys) : Prop where
  page : ∀ n ∈ s.vfs.nodes, ∀ i < tmpFilePages, (s.vfs.node n).blocks i ≠ 0 →
    IsPage ((s.vfs.node n).blocks i) ∧ (s.vfs.node n).blocks i ∉ s.machine.freeList
  unique : ∀ n ∈ s.vfs.nodes, ∀ i < tmpFilePages, (s.vfs.node n).blocks i ≠ 0 →
    ∀ k ∈ s.vfs.nodes, ∀ j < tmpFilePages, (s.vfs.node k).blocks j = (s.vfs.node n).blocks i →
      k = n ∧ j = i

theorem FileSys.Ok.blocksOwned {P : PagePool} {rest objs : Multiset Nat} {s : FileSys}
    (h : s.Ok P rest objs) : BlocksOwned s := by
  have hmem : ∀ n i, i < tmpFilePages → (s.vfs.node n).blocks i ≠ 0 →
      (s.vfs.node n).blocks i ∈ (s.vfs.node n).blockBag := fun n i hi hne =>
    Vnode.mem_blockBag.mpr ⟨hne, i, hi, rfl⟩
  have hheld : ∀ n ∈ s.vfs.nodes, ∀ i < tmpFilePages, (s.vfs.node n).blocks i ≠ 0 →
      (s.vfs.node n).blocks i ∈ s.vfs.blockBag + rest := fun n hn i hi hne =>
    Multiset.mem_add.mpr (.inl (Vfs.mem_blockBag.mpr ⟨n, hn, hmem n i hi hne⟩))
  have hnd : s.vfs.blockBag.Nodup := (Multiset.nodup_add.mp h.vfs.stock.nodup_rest).1
  constructor
  · intro n hn i hi hne
    exact ⟨h.vfs.stock.isPage_of_mem (hheld n hn i hi hne), h.vfs.stock.not_free
      (hheld n hn i hi hne)⟩
  intro n hn i hi hne k hk j hj heq
  have hne' : (s.vfs.node k).blocks j ≠ 0 := heq ▸ hne
  obtain ⟨rfl, hndk⟩ := owner_unique (fun n => (s.vfs.node n).blockBag) hnd hk hn (hmem k j hj hne')
    (heq ▸ hmem n i hi hne)
  exact ⟨rfl, (owner_unique (fun i => pageBag ((s.vfs.node k).blocks i)) hndk
    (List.mem_range.mpr hj) (List.mem_range.mpr hi) (mem_pageBag.mpr ⟨rfl, hne'⟩)
    (mem_pageBag.mpr ⟨heq, hne⟩)).1⟩

/-- **The pages of the file system are conserved** by every sequence of calls,
with any allocation failing. -/
theorem vfs_pages_conserved {P : PagePool} {rest : Multiset Nat} {s₀ s₁ s : FileSys}
    {archive : Option (List UInt8)} (hst : Stocked P s₀.machine rest) (hdown : s₀.vfs.Down)
    (hfiles : s₀.files = []) (hpipes : s₀.pipes = []) (hinit : s₀.init archive = (true, s₁))
    (hreach : Reach fsStep Always s₁ s) :
    BlocksOwned s ∧ (∀ e ∈ s.machine.frees, e.2 = false) ∧
      (s.files = [] → (∀ e ∈ s.shutdown.machine.frees, e.2 = false) ∧
        ∀ p, p ∈ s.shutdown.machine.freeList ↔ p ∈ s₀.machine.freeList) := by
  obtain ⟨hok, hnone, -, -⟩ := FileSys.init_spec hdown hfiles hpipes hst hinit
  obtain ⟨hok, hnone⟩ := hok.reach hnone hreach
  refine ⟨hok.blocksOwned, hok.vfs.stock.clean, fun hput => ?_⟩
  have hrecords : s.records = 0 := by simp [FileSys.records, hput, hnone.pipes]
  obtain ⟨hst', hlive', -⟩ := hok.vfs.shutdown
  rw [hrecords, zero_add] at hlive'
  exact ⟨hst'.clean, fun p => hst.mem_freeList_iff hst' hlive'⟩

/-- An archive with nothing in it. -/
def emptyArchive : List UInt8 :=
  bytesOf "070701" ++ List.replicate 88 0x30 ++ bytesOf "0000000b00000000TRAILER!!!" ++ [0, 0, 0, 0]

/-- Four free pages and no file system. -/
def bareFileSys : FileSys where
  machine := ⟨fun _ => 0, [0x1000, 0x2000, 0x3000, 0x4000], [], [], []⟩
  vfs := ⟨[], fun _ => ⟨⟨.reg, none, 0, fun _ => 0⟩, [], 0, 0, 0, none, []⟩,
    fun _ => ⟨0, 0, false⟩, 0⟩
  files := []
  file := fun _ => ⟨⟨.regular, 0, none, 0⟩, 0, 0⟩
  pipes := []
  pipe := fun _ => Pipe.fresh
  liveFiles := 0
  input := []
  output := []

/-- Create a file, write to it, and close it. -/
def createCalls (v : Vfs) : List FsCall :=
  [.openat v.root v.root (bytesOf "/tmp/a") (oCreat ||| oWronly), .write 0x3fc0 (bytesOf "hello"),
    .put 0x3fc0]

theorem bareFileSys_stocked : ∃ P, Stocked P bareFileSys.machine 0 := by
  have hpage : ∀ p ∈ bareFileSys.machine.freeList, p % 4096 = 0 ∧ p ≠ 0 ∧ p < 2 ^ 56 := by decide
  refine ⟨⟨bareFileSys.machine.freeList, by decide, fun p hp => ?_⟩,
    by simp [HeapOk, bareFileSys], ?_,
    by simp [bareFileSys]⟩
  · obtain ⟨haligned, hne, hlt⟩ := hpage p (Multiset.mem_coe.mp hp)
    exact ⟨haligned, hne, hlt⟩
  · rfl

theorem vfs_pages_conserved_create : ∃ s₁ s, bareFileSys.init (some emptyArchive) = (true, s₁) ∧
    runSteps fsStep s₁ (createCalls s₁.vfs) = some s ∧ BlocksOwned s ∧
    ∀ p, p ∈ s.shutdown.machine.freeList ↔ p ∈ bareFileSys.machine.freeList := by
  obtain ⟨P, hst⟩ := bareFileSys_stocked
  have hok : (bareFileSys.init (some emptyArchive)).1 = true := by decide +kernel
  have hfiles : (runSteps fsStep (bareFileSys.init (some emptyArchive)).2
      (createCalls (bareFileSys.init (some emptyArchive)).2.vfs)).map FileSys.files = some [] := by
    decide +kernel
  rcases hinit : bareFileSys.init (some emptyArchive) with ⟨ok, s₁⟩
  rw [hinit] at hok hfiles
  dsimp only at hok hfiles
  subst hok
  obtain ⟨s, hrun, hput⟩ := Option.map_eq_some_iff.mp hfiles
  obtain ⟨howned, -, hfree⟩ :=
    vfs_pages_conserved hst ⟨rfl, fun _ => rfl, fun _ => rfl⟩ rfl rfl hinit
    (Reach.of_runSteps hrun fun _ _ _ => trivial)
  exact ⟨s₁, s, rfl, hrun, howned, (hfree hput).2⟩

end MiniCore
