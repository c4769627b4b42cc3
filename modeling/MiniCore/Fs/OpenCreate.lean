import MiniCore.Fs.Resolution
import MiniCore.Fs.VfsRuns

/-!
# MiniCore.Fs.OpenCreate

`vfs_openat` and `vfs_resolve` agree (`src/fs/vfs.c`).

`vfs_openat` finds the parent of a new node with a second walk, along the path up
to its last slash.  Both walks come to the same directory, so a path that is
refused with `ENOENT` there is one whose last name is new, and the new node is
what the path leads to from then on.
-/

namespace MiniCore

open Lib List

variable {P : PagePool} {rest objs : Multiset Nat} {s s' : FileSys} {f n root base flags : Nat}
  {path : List UInt8} {r : Except Errno Nat}

namespace FileSys

variable {v v' : Vfs} {p : Nat} {nofollow : Bool}

/-! ## A path and its parent part -/

theorem splitPath_append (path : List UInt8) : (splitPath path).1 ++ (splitPath path).2 = path := by
  rw [splitPath, ← reverse_append, takeWhile_append_dropWhile, reverse_reverse]

theorem splitPath_noSlash (path : List UInt8) : slash ∉ (splitPath path).2 := by
  intro hm
  rw [splitPath, mem_reverse] at hm
  simpa using mem_takeWhile_imp hm

theorem splitPath_parent (h : (splitPath path).1 ≠ []) :
    (splitPath path).1.getLast? = some slash := by
  rw [splitPath] at h ⊢
  have hne : path.reverse.dropWhile (· ≠ slash) ≠ [] := fun hnil => h (by rw [hnil, reverse_nil])
  have hhead := head_dropWhile_not (fun c => decide (c ≠ slash)) hne
  rw [getLast?_reverse, head?_eq_some_head hne]
  simpa using hhead

theorem splitPath_ne_nil (hne : path ≠ []) (hlast : path.getLast? ≠ some slash) :
    (splitPath path).2 ≠ [] := by
  intro hnil
  rw [splitPath, reverse_eq_nil_iff] at hnil
  obtain ⟨c, l, hcl⟩ := exists_cons_of_ne_nil (List.reverse_ne_nil_iff.mpr hne)
  rw [← head?_reverse, hcl, head?_cons] at hlast
  rw [hcl, takeWhile_cons, if_pos (by simpa using hlast)] at hnil
  cases hnil

/-- The last name of a path that does not end at a slash. -/
theorem lastName_splitPath (hne : path ≠ []) (hlast : path.getLast? ≠ some slash)
    (hzero : 0 ∉ path) : Vfs.LastName (splitPath path).2 := by
  refine ⟨splitPath_ne_nil hne hlast, splitPath_noSlash path, fun hm => hzero ?_⟩
  rw [← splitPath_append path]
  exact mem_append_right _ hm

/-- The parent that `vfs_openat` looks for. -/
def parentOf (v : Vfs) (root base : Nat) (path : List UInt8) : Except Errno Nat :=
  if (splitPath path).1 = [] then .ok base else v.vfsResolve root base (splitPath path).1 false

theorem parentOf_mem (hc : v.Closed) (hroot : root ∈ v.nodes) (hbase : base ∈ v.nodes)
    (h : parentOf v root base path = .ok p) : p ∈ v.nodes := by
  unfold parentOf at h
  split at h
  · cases h
    exact hbase
  · exact hc.vfsResolve_mem hroot hbase h

/-- **The two walks come to the same directory**, whatever nodes are new. -/
theorem resolve_last (ht : v.Tree) (hroot : root ∈ v.nodes) (hbase : base ∈ v.nodes)
    (hne : path ≠ []) (hlen : path.length < pathLimit) (hlast : path.getLast? ≠ some slash)
    (hzero : 0 ∉ path) (hparent : parentOf v root base path = .ok p) :
    (∃ links, ∀ v', v.Extends v' → ∀ r, v'.vfsResolve root base path nofollow = r ↔
      v'.Walk root nofollow (splitPath path).2 p links r) ∨
    ∀ v', v.Extends v' → v'.vfsResolve root base path nofollow = .error .nametoolong := by
  have hname := lastName_splitPath hne hlast hzero
  have hsplit := splitPath_append path
  unfold parentOf at hparent
  split at hparent
  · next hnil =>
    obtain rfl : base = p := Except.ok.inj hparent
    rw [hnil, nil_append] at hsplit
    have hstart : Vfs.startNode root base path = base := by
      refine if_neg fun hhead => ?_
      rw [hsplit] at hname
      exact hname.noSlash (mem_of_mem_head? hhead)
    refine .inl ⟨0, fun v' _ r => ?_⟩
    rw [Vfs.vfsResolve_eq_iff hne hlen, hstart, hsplit]
  next hdir =>
  have hends : Vfs.EndsAtSlash (splitPath path).1 :=
    ⟨splitPath_parent hdir, fun hm => hzero (hsplit ▸ mem_append_left _ hm)⟩
  have hshort : (splitPath path).1.length < pathLimit := by
    rw [← hsplit, length_append] at hlen
    omega
  have hstart : Vfs.startNode root base (splitPath path).1 = Vfs.startNode root base path := by
    rw [Vfs.startNode, Vfs.startNode, ← hsplit, head?_append_of_ne_nil _ hdir, hsplit]
  have hmem : Vfs.startNode root base path ∈ v.nodes := by
    unfold Vfs.startNode
    split
    · exact hroot
    · exact hbase
  rw [Vfs.vfsResolve_eq_iff hdir hshort, hstart] at hparent
  rcases hparent.append ht.closed ht.links hroot hmem hends hname with ⟨links, hiff⟩ | hlong
  · refine .inl ⟨links, fun v' hx r => ?_⟩
    rw [Vfs.vfsResolve_eq_iff hne hlen, ← hiff v' hx r, hsplit]
  refine .inr fun v' hx => ?_
  rw [Vfs.vfsResolve_eq_iff hne hlen]
  have := hlong v' hx
  rwa [hsplit] at this

/-- A walk with nothing left is at its end. -/
theorem walk_nil {links node : Nat} : v.Walk root nofollow [] node links r ↔ r = .ok node :=
  Vfs.walk_of_done (by simp [Vfs.resolveRound])

/-- A path that is refused with `ENOENT` in its last directory has a name there
that a node may have. -/
theorem nameOk_of_noent (ht : v.Tree) (hroot : root ∈ v.nodes) (hbase : base ∈ v.nodes)
    (hne : path ≠ []) (hlast : path.getLast? ≠ some slash) (hzero : 0 ∉ path)
    (hparent : parentOf v root base path = .ok p) (hdir : (v.node p).type = .dir)
    (hnoent : v.vfsResolve root base path nofollow = .error .noent) :
    path.length < pathLimit ∧ NameOk (splitPath path).2 := by
  have hname := lastName_splitPath hne hlast hzero
  have hlen : path.length < pathLimit := by
    refine Nat.lt_of_not_le fun hle => ?_
    rw [Vfs.vfsResolve, if_neg hne, if_pos hle] at hnoent
    cases hnoent
  refine ⟨hlen, ?_⟩
  rcases resolve_last ht hroot hbase hne hlen hlast hzero hparent with ⟨links, hiff⟩ | hlong
  · have hwalk := (hiff v (.refl v) _).mp hnoent
    have hround : v.resolveRound root nofollow (splitPath path).2 p links = _ :=
      Vfs.resolveRound_name hname hdir
    rw [Vfs.resolveName] at hround
    refine ⟨hname.ne_nil, Nat.lt_of_not_le fun hle => ?_, hname.noSlash, hname.noZero,
      fun hdot => ?_, fun hdots => ?_⟩
    · rw [if_pos hle] at hround
      cases (Vfs.walk_of_done hround).mp hwalk
    · rw [if_neg (by rw [hdot]; decide), if_pos hdot] at hround
      cases walk_nil.mp ((Vfs.walk_of_next hround).mp hwalk)
    · rw [if_neg (by rw [hdots]; decide), if_neg (by rw [hdots]; decide), if_pos hdots] at hround
      cases walk_nil.mp ((Vfs.walk_of_next hround).mp hwalk)
  · rw [hlong v (.refl v)] at hnoent
    cases hnoent

/-- **What is created is what the path leads to.** -/
theorem resolve_created (ht : v.Tree) (hroot : root ∈ v.nodes) (hbase : base ∈ v.nodes)
    (hzero : 0 ∉ path) (hcreates : Creates v root base path p)
    (hnoent : v.vfsResolve root base path nofollow = .error .noent) (hn : n ∉ v.nodes)
    {mount : Nat} : (v.addNode n (some p) (splitPath path).2 .reg mount).vfsResolve root base path
      nofollow = .ok n := by
  have hp := hcreates.mem ht.closed hroot hbase
  have hpn : p ≠ n := ne_of_mem_of_not_mem hp hn
  have hself : some p ≠ some n := fun heq => hpn (Option.some.inj heq)
  obtain ⟨-, hok⟩ :=
    nameOk_of_noent ht hroot hbase hcreates.path_ne hcreates.last hzero hcreates.parent hcreates.dir
    hnoent
  have hname := lastName_splitPath hcreates.path_ne hcreates.last hzero
  generalize hv' : v.addNode n (some p) (splitPath path).2 .reg mount = v'
  have hx : v.Extends v' := hv' ▸ Vfs.extends_addNode ht.closed hn
  have hnew : v'.node n = v.freshNode n (some p) (splitPath path).2 .reg mount :=
    hv' ▸ Vfs.addNode_self hself
  have hdir : (v'.node p).type = .dir := (hx.type p hp).trans hcreates.dir
  have hchild : v'.child p (splitPath path).2 = some n := by
    have hold : (v'.node p).children = (v.node p).children ++ [n] := by
      rw [← hv', Vfs.addNode_old hpn, if_pos rfl]
    have hnone : (v.node p).children.find?
        (fun c => decide ((v'.node c).name = (splitPath path).2)) = none := by
      rw [← hcreates.absent]
      refine Vfs.find_name_congr fun c hc => ?_
      rw [← hv', Vfs.addNode_old (ne_of_mem_of_not_mem (ht.closed.children p hp c hc) hn)]
    have hname' : (v'.node n).name = (splitPath path).2 := by
      rw [hnew]
      rfl
    rw [Vfs.child, hold, find?_append, hnone, Option.none_or]
    simp [hname']
  have hacross : v'.across n = n := by
    rw [Vfs.across, hnew]
    rfl
  rcases resolve_last ht hroot hbase hcreates.path_ne hcreates.path_lt hcreates.last hzero
    hcreates.parent with
    ⟨links, hiff⟩ | hlong
  · have hround : v'.resolveRound root nofollow (splitPath path).2 p links = .next [] n links := by
      rw [Vfs.resolveRound_name hname hdir, Vfs.resolveName, if_neg (Nat.not_le.mpr hok.lt),
        if_neg hok.notDot, if_neg hok.notDotdot, hchild]
      dsimp only
      rw [hacross, hnew]
      exact if_neg (by simp [Vfs.freshNode])
    rw [hiff v' hx, Vfs.walk_of_next hround, walk_nil]
  · rw [hlong v (.refl v)] at hnoent
    cases hnoent

/-! ## Opening -/

/-- When `vfs_openat` makes a new node. -/
structure MayCreate (v : Vfs) (root base : Nat) (path : List UInt8) (flags : Nat) : Prop where
  creat : flags &&& oCreat ≠ 0
  notDirectory : flags &&& oDirectory = 0
  path_ne : path ≠ []
  last : path.getLast? ≠ some slash
  noent : v.vfsResolve root base path (flags &&& oNofollow ≠ 0) = .error .noent
  place : ∃ p, parentOf v root base path = .ok p ∧ (v.node p).type = .dir ∧
    (v.mountOf p).readonly = false ∧
    v.child p (splitPath path).2 = none

/-- Then only memory can be missing. -/
theorem MayCreate.openNode (hc : MayCreate s.vfs root base path flags) (ht : s.vfs.Tree)
    (hroot : root ∈ s.vfs.nodes) (hbase : base ∈ s.vfs.nodes) (hzero : 0 ∉ path) :
    (∃ s1, s.openNode root base path flags = (.error .nomem, s1)) ∨
      ∃ n s1, s.openNode root base path flags = (.ok (n, true), s1) := by
  obtain ⟨p, hparent, hdir, hwritable, habsent⟩ := hc.place
  obtain ⟨hlen, hname⟩ :=
    nameOk_of_noent ht hroot hbase hc.path_ne hc.last hzero hparent hdir hc.noent
  have hpath : ¬(path = [] ∨ pathLimit ≤ path.length ∨ path.getLast? = some slash) := by
    rw [not_or, not_or, Nat.not_le]
    exact ⟨hc.path_ne, hlen, hc.last⟩
  unfold parentOf at hparent
  rw [FileSys.openNode, hc.noent]
  dsimp only
  rw [if_pos ⟨rfl, hc.creat⟩, openCreate, if_neg hpath]
  dsimp only
  rw [if_neg (Nat.not_le.mpr hname.lt), hparent]
  dsimp only
  rw [if_neg (not_not.mpr hdir), hwritable, habsent]
  simp only [Bool.false_eq_true, if_false, Option.isSome_none]
  rcases hnew : s.vfs.newNode (some p) (splitPath path).2 .reg (s.vfs.node p).mount s.machine with
    ⟨n, v, m⟩
  cases n with
  | zero => exact .inl ⟨_, rfl⟩
  | succ n => exact .inr ⟨_, _, rfl⟩

/-- **What a call of `vfs_openat` does to the namespace**: `r` is its answer, and
`ENOMEM` is the answer if an allocation fails. -/
structure OpenLaw (s : FileSys) (root base : Nat) (path : List UInt8) (flags : Nat)
    (r : Except Errno Nat) (s' : FileSys) : Prop where
  /-- the path leads to what was opened -/
  resolves : ∀ f, r = .ok f →
    s'.vfs.vfsResolve root base path (flags &&& oNofollow ≠ 0) = .ok (s'.file f).node
  creates : ¬badFlags flags → r ≠ .error .nomem →
    ((∃ n ∈ s'.vfs.nodes, n ∉ s.vfs.nodes) ↔ MayCreate s.vfs root base path flags)
  /-- a new node is all that is new -/
  only : ∀ n ∈ s'.vfs.nodes, n ∉ s.vfs.nodes → n ≠ 0 ∧ ∃ p, parentOf s.vfs root base path = .ok p ∧
    s'.vfs = s.vfs.addNode n (some p) (splitPath path).2 .reg (s.vfs.node p).mount
  others : (∀ n ∈ s'.vfs.nodes, n ∈ s.vfs.nodes) → s.vfs.SameNames s'.vfs
  /-- a failure changes nothing -/
  fails : ∀ e, r = .error e → s.vfs.Same s'.vfs ∧ ∀ n ∈ s.vfs.nodes, ∀ i,
    (s.vfs.node n).data ≠ none ∨ i < tmpFileSize →
    (s'.vfs.node n).byte s'.machine.mem i = (s.vfs.node n).byte s.machine.mem i

/-- A new node is a regular file on a writable mount, which any open is good for
but one of a directory. -/
theorem openCheck_created {v : Vfs} {m : Machine} (hs' : s' = { s with vfs := v, machine := m })
    (hv : v = s.vfs.addNode n (some p) (splitPath path).2 .reg (s.vfs.node p).mount)
      (hn : n ∉ s.vfs.nodes)
    (hcreates : Creates s.vfs root base path p) (hp : p ∈ s.vfs.nodes) :
    s'.openCheck n flags = none ↔ flags &&& oDirectory = 0 := by
  subst hs' hv
  have hself : some p ≠ some n := fun heq => hn (Option.some.inj heq ▸ hp)
  have hnew : (s.vfs.addNode n (some p) (splitPath path).2 .reg (s.vfs.node p).mount).node n =
      s.vfs.freshNode n (some p) (splitPath path).2 .reg (s.vfs.node p).mount :=
        Vfs.addNode_self hself
  have hwritable :
    ((s.vfs.addNode n (some p) (splitPath path).2 .reg (s.vfs.node p).mount).mountOf n).readonly =
      false := by
    rw [Vfs.mountOf, Vfs.addNode_mounts, hnew]
    exact hcreates.writable
  rw [openCheck, hnew, hwritable]
  by_cases hd : flags &&& oDirectory = 0 <;> simp [hd, Vfs.freshNode]

/-- The answer of `vfs_openat` once it has its node. -/
theorem vfsOpenat_of_node (hflags : ¬badFlags flags) {created : Bool} {s1 : FileSys}
    (hnode : s.openNode root base path flags = (.ok (n, created), s1))
    (hcheck : s1.openCheck n flags = none) :
    (∃ s2, s.vfsOpenat root base path flags = (.error .nomem, s2)) ∨
      ∃ f s2, s.vfsOpenat root base path flags = (.ok f, s2) ∧ (s2.file f).node = n ∧
        s2.vfs = if flags &&& oTrunc ≠ 0
          then s1.vfs.setNode n { s1.vfs.node n with blocks := fun _ => 0, size := 0 }
          else s1.vfs := by
  rw [vfsOpenat, if_neg hflags, hnode]
  dsimp only
  rw [hcheck]
  dsimp only
  rw [fileNew]
  generalize hops : (if (s1.vfs.node n).type = .chr then FileOps.device else FileOps.regular) = ops
  rcases hk : kmalloc fileRecordSize s1.machine with ⟨f, m⟩
  cases f with
  | zero => exact .inl ⟨_, rfl⟩
  | succ f =>
    refine .inr ⟨f + 1, _, rfl, ?_, ?_⟩
    · split <;> simp [truncate, setFile]
    · split <;> rfl

theorem vfsOpenat_ok_node (hrun : s.vfsOpenat root base path flags = (.ok f, s')) :
    ¬badFlags flags ∧ ∃ n created s1, s.openNode root base path flags = (.ok (n, created), s1) ∧
      s1.openCheck n flags = none := by
  rw [vfsOpenat] at hrun
  split at hrun
  · cases hrun
  next hflags =>
  split at hrun
  · cases hrun
  next n created s1 hnode =>
  split at hrun
  · cases hrun
  next hcheck => exact ⟨hflags, n, created, s1, hnode, hcheck⟩

/-- A node that may be created is, unless memory is missing. -/
theorem MayCreate.answer (hc : MayCreate s.vfs root base path flags) (h : s.Ok P rest objs)
    (ht : s.vfs.Tree) (hroot : root ∈ s.vfs.nodes) (hbase : base ∈ s.vfs.nodes) (hzero : 0 ∉ path)
    (hflags : ¬badFlags flags) (hrun : s.vfsOpenat root base path flags = (r, s')) :
    r = .error .nomem ∨ ∃ f, r = .ok f := by
  rcases hc.openNode ht hroot hbase hzero with ⟨s1, hnode⟩ | ⟨n, s1, hnode⟩
  · rw [vfsOpenat, if_neg hflags, hnode] at hrun
    cases hrun
    exact .inl rfl
  have hcheck : s1.openCheck n flags = none := by
    rcases h.openNode hroot hbase hnode with ⟨e, m, hr, -⟩ | ⟨x, hr, -⟩ |
      ⟨x, p, hr, -, -, m, hs1, -, hout, hcreates, -⟩
    · cases hr
    · cases hr
    · cases hr
      exact (openCheck_created hs1 rfl hout hcreates (hcreates.mem ht.closed hroot hbase)).mpr
        hc.notDirectory
  rcases vfsOpenat_of_node hflags hnode hcheck with ⟨s2, heq⟩ | ⟨f, s2, heq, -⟩
  · rw [heq] at hrun
    cases hrun
    exact .inl rfl
  · rw [heq] at hrun
    cases hrun
    exact .inr ⟨f, rfl⟩

/-- A call keeps to the law. -/
theorem Ok.openLaw (h : s.Ok P rest objs) (ht : s.vfs.Tree) (hroot : root ∈ s.vfs.nodes)
    (hdir : (s.vfs.node root).type = .dir) (hbase : base ∈ s.vfs.nodes) (hzero : 0 ∉ path)
    (hrun : s.vfsOpenat root base path flags = (r, s')) : OpenLaw s root base path flags r s' := by
  rcases h.vfsOpenat hroot hbase hrun with ⟨e, rfl, hrestored⟩ | ⟨f, -, rfl, -⟩
  · have hsame := hrestored.same.vfs
    refine ⟨fun f hf => ?_, fun hflags hmem => ?_, fun n hn hout => ?_, fun _ => hsame.sameNames,
      fun e' _ => ⟨hsame, fun n hn i hi => ?_⟩⟩
    · cases hf
    · refine ⟨fun ⟨n, hn, hout⟩ => absurd (hsame.nodes ▸ hn) hout, fun hc => ?_⟩
      rcases hc.answer h ht hroot hbase hzero hflags hrun with hr | ⟨f, hr⟩
      · exact absurd hr hmem
      · cases hr
    · exact absurd (hsame.nodes ▸ hn) hout
    · rw [hsame.node n hn]
      refine Vnode.byte_congr fun hd hne => hrestored.same.contents _ ?_
      refine Vfs.mem_blockBag.mpr ⟨n, hn, Vnode.mem_blockBag.mpr ⟨hne, _, ?_, rfl⟩⟩
      exact Writing.index_lt (w := ⟨(s.vfs.node n).toVnode, i, s.machine⟩)
        (hi.resolve_left (not_not.mpr hd))
  obtain ⟨hflags, n, created, s1, hnode, hcheck⟩ := vfsOpenat_ok_node hrun
  obtain ⟨hfile, hvfs⟩ : (s'.file f).node = n ∧ s'.vfs = if flags &&& oTrunc ≠ 0
      then s1.vfs.setNode n { s1.vfs.node n with blocks := fun _ => 0, size := 0 } else s1.vfs := by
    rcases vfsOpenat_of_node hflags hnode hcheck with ⟨s2, heq⟩ | ⟨f', s2, heq, hrest⟩
    · cases hrun.symm.trans heq
    · cases hrun.symm.trans heq
      exact hrest
  rcases h.openNode hroot hbase hnode with ⟨e, m, hr, -⟩ | ⟨x, hr, hmem, rfl, hresolve⟩ |
    ⟨x, p, hr, hcreat, hnoent, m, hs1, hn0, hout, hcreates, -⟩
  · cases hr
  · cases hr
    -- an old node, which may lose its contents
    have hnames : s1.vfs.SameNames s'.vfs := by
      rw [hvfs]
      split
      · have hlnk := ht.vfsResolve_type hroot hdir hbase hresolve
        exact Vfs.sameNames_setNode
          ⟨⟨⟨rfl, rfl, rfl, rfl, rfl⟩, rfl, rfl⟩, (absurd · hlnk), (absurd · hlnk)⟩
      · exact .refl _
    refine ⟨fun g hg => ?_, fun _ _ => ?_, fun x hx hx' => ?_, fun _ => hnames, fun e he => ?_⟩
    · cases hg
      rw [hnames.vfsResolve_eq ht.closed hroot hbase, hfile]
      exact hresolve
    · refine ⟨fun ⟨x, hx, hx'⟩ => absurd (hnames.nodes ▸ hx) hx', fun hc => ?_⟩
      rw [hc.noent] at hresolve
      cases hresolve
    · exact absurd (hnames.nodes ▸ hx) hx'
    · cases he
  cases hr
  have hp := hcreates.mem ht.closed hroot hbase
  have hself : some p ≠ some n := fun heq => hout (Option.some.inj heq ▸ hp)
  -- a new node has no contents to lose
  have hadd : s'.vfs = s.vfs.addNode n (some p) (splitPath path).2 .reg (s.vfs.node p).mount := by
    have hvfs1 : s1.vfs = s.vfs.addNode n (some p) (splitPath path).2 .reg
        (s.vfs.node p).mount := by rw [hs1]
    have hnew : s1.vfs.node n = s.vfs.freshNode n (some p) (splitPath path).2 .reg
        (s.vfs.node p).mount := by
      rw [hvfs1, Vfs.addNode_self hself]
    rw [hvfs, ← hvfs1]
    split
    · have hempty : { s1.vfs.node n with blocks := fun _ => 0, size := 0 } = s1.vfs.node n := by
        rw [hnew]
        rfl
      rw [hempty, Vfs.setNode, Function.update_eq_self]
    · rfl
  have hmem : n ∈ s'.vfs.nodes := by simp [hadd, Vfs.addNode_nodes]
  refine ⟨fun g hg => ?_, fun _ _ => ?_, fun x hx hx' => ?_, fun hall => ?_, fun e he => ?_⟩
  · cases hg
    rw [hadd, hfile]
    exact resolve_created ht hroot hbase hzero hcreates hnoent hout
  · refine ⟨fun _ => ?_, fun _ => ⟨n, hmem, hout⟩⟩
    have hdirectory := (openCheck_created hs1 rfl hout hcreates hp).mp hcheck
    exact ⟨hcreat, hdirectory, hcreates.path_ne, hcreates.last, hnoent, p, hcreates.parent,
      hcreates.dir, hcreates.writable, hcreates.absent⟩
  · obtain rfl : x = n := by
      rw [hadd, Vfs.addNode_nodes, mem_append, mem_singleton] at hx
      exact hx.resolve_left hx'
    exact ⟨hn0, p, hcreates.parent, hadd⟩
  · exact absurd (hall n hmem) hout
  · cases he

/-! ## The namespace stays well formed -/

/-- **`vfs_openat`** leaves a well-formed namespace. -/
theorem Ok.openat_tree (h : s.Ok P rest objs) (ht : s.vfs.Tree) (hroot : root ∈ s.vfs.nodes)
    (hdir : (s.vfs.node root).type = .dir) (hbase : base ∈ s.vfs.nodes) (hzero : 0 ∉ path)
    (hrun : s.vfsOpenat root base path flags = (r, s')) : s'.vfs.Tree := by
  have hlaw := h.openLaw ht hroot hdir hbase hzero hrun
  by_cases hnew : ∀ n ∈ s'.vfs.nodes, n ∈ s.vfs.nodes
  · exact (hlaw.others hnew).tree ht
  obtain ⟨n, hn, hout⟩ : ∃ n ∈ s'.vfs.nodes, n ∉ s.vfs.nodes := by simpa using hnew
  obtain ⟨f, rfl⟩ : ∃ f, r = .ok f := by
    cases r with
    | ok f => exact ⟨f, rfl⟩
    | error e => exact absurd ((hlaw.fails e rfl).1.nodes ▸ hn) hout
  have hmay := (hlaw.creates (vfsOpenat_ok_node hrun).1 (by simp)).mp ⟨n, hn, hout⟩
  obtain ⟨p', hparent', hpdir, -, habsent⟩ := hmay.place
  obtain ⟨hn0, p, hparent, hadd⟩ := hlaw.only n hn hout
  obtain rfl : p = p' := Except.ok.inj (hparent.symm.trans hparent')
  obtain ⟨-, hname⟩ :=
    nameOk_of_noent ht hroot hbase hmay.path_ne hmay.last hzero hparent hpdir hmay.noent
  have hp : ∀ q, some p = some q → q = p := fun q heq => (Option.some.inj heq).symm
  rw [hadd]
  exact ht.addNode ⟨hn0, hout, fun q heq => hp q heq ▸ parentOf_mem ht.closed hroot hbase hparent,
    fun q heq => hp q heq ▸ hpdir, fun hnone => absurd hnone (Option.some_ne_none _),
    fun _ _ => hname, fun q heq => hp q heq ▸ habsent⟩

end FileSys

/-! ## Read-only mounts -/

/-- A file or a directory on a read-only mount. -/
structure Vfs.Fixed (v : Vfs) (n : Nat) : Prop where
  mem : n ∈ v.nodes
  readonly : (v.mountOf n).readonly = true
  type : (v.node n).type = .reg ∨ (v.node n).type = .dir

/-- What a call leaves of a namespace. -/
structure Vfs.Kept (v v' : Vfs) : Prop where
  mounts : v'.mounts = v.mounts
  nodes : ∀ n ∈ v.nodes, n ∈ v'.nodes
  fixed : ∀ n, v.Fixed n → v'.node n = v.node n

theorem Vfs.Kept.of_eq {v v' : Vfs} (h : v' = v) : v.Kept v' := by
  subst h
  exact ⟨rfl, fun _ hn => hn, fun _ _ => rfl⟩

theorem Vfs.Fixed.kept {v v' : Vfs} {n : Nat} (hn : v.Fixed n) (h : v.Kept v') : v'.Fixed n := by
  have hnode := h.fixed n hn
  refine ⟨h.nodes n hn.mem, ?_, hnode ▸ hn.type⟩
  rw [Vfs.mountOf, h.mounts, hnode]
  exact hn.readonly

namespace FileSys

/-- **`vfs_openat`** creates and truncates only on a mount that may be written to. -/
theorem Ok.openat_kept (h : s.Ok P rest objs) (hroot : root ∈ s.vfs.nodes)
    (hbase : base ∈ s.vfs.nodes) (hrun : s.vfsOpenat root base path flags = (r, s')) :
    s.vfs.Kept s'.vfs := by
  rcases h.vfsOpenat hroot hbase hrun with ⟨e, rfl, hr⟩ | ⟨f, m, rfl, -⟩
  · have hsame := hr.same.vfs
    exact ⟨hsame.mounts, fun n hn => hsame.nodes ▸ hn, fun n hn => hsame.node n hn.mem⟩
  obtain ⟨hflags, n, created, s1, hnode, hcheck⟩ := vfsOpenat_ok_node hrun
  have hchosen : s.vfs.Kept s1.vfs := by
    rcases h.openNode hroot hbase hnode with ⟨e, k, hr, -⟩ | ⟨x, -, -, rfl, -⟩ |
      ⟨x, p, -, -, -, k, rfl, -, hout, hcreates, -⟩
    · cases hr
    · exact .of_eq rfl
    refine ⟨Vfs.addNode_mounts, fun c hc => mem_append_left _ hc, fun c hc => ?_⟩
    have hpc : some p ≠ some c := fun heq => by
      have hwritable := hcreates.writable
      rw [Option.some.inj heq, hc.readonly] at hwritable
      cases hwritable
    rw [Vfs.addNode_old (ne_of_mem_of_not_mem hc.mem hout), if_neg hpc, append_nil]
  rcases vfsOpenat_of_node hflags hnode hcheck with ⟨s2, heq⟩ | ⟨f', s2, heq, -, hvfs⟩
  · cases hrun.symm.trans heq
  cases hrun.symm.trans heq
  rw [hvfs]
  split
  · next htrunc =>
    refine ⟨hchosen.mounts, hchosen.nodes, fun c hc => ?_⟩
    have hcn : c ≠ n := by
      rintro rfl
      -- `O_TRUNC` comes with a writing mode, which is refused for what is fixed
      have hwrite : flags &&& oAccmode ≠ 0 := fun h0 => hflags (.inr (.inr ⟨htrunc, h0⟩))
      have hfixed := hc.kept hchosen
      rw [openCheck] at hcheck
      split_ifs at hcheck with hdirectory hisdir hrofs
      exact hfixed.type.elim (fun ht => hrofs ⟨hwrite, ht, hfixed.readonly⟩) fun ht => hisdir
        ⟨hwrite, ht⟩
    rw [Vfs.setNode_of_ne hcn, hchosen.fixed c hc]
  · exact hchosen

/-- **`file_write`** refuses a read-only mount. -/
theorem write_kept {buffer : List UInt8} (hrun : s.fileWrite f buffer = some (r, s')) :
    s.vfs.Kept s'.vfs := by
  unfold fileWrite at hrun
  split at hrun
  · cases hrun
    exact .of_eq rfl
  split at hrun
  · cases hrun
    refine .of_eq ?_
    unfold deviceWrite
    split <;> rfl
  · refine .of_eq ?_
    unfold pipeWrite at hrun
    dsimp only at hrun
    split_ifs at hrun <;> cases hrun <;> rfl
  rcases hw : regularWrite (s.vfs.mountOf (s.file f).node).readonly
      (decide ((s.file f).flags &&& oAppend ≠ 0)) buffer (s.writing f) with ⟨n, w⟩
  simp only [hw] at hrun
  cases hrun
  refine ⟨rfl, fun _ hn => hn, fun c hc => ?_⟩
  by_cases hcn : c = (s.file f).node
  · rw [← hcn, hc.readonly, regularWrite, if_pos rfl] at hw
    cases hw
    rw [hcn]
    exact Vfs.setNode_self ..
  · exact Vfs.setNode_of_ne hcn

theorem step_kept {c : FsCall} (h : s.Ok P rest objs) (hrun : fsStep s c = some s') :
    s.vfs.Kept s'.vfs := by
  cases c
  all_goals obtain ⟨hmem, hrun⟩ := Option.ite_none_right_eq_some.mp hrun
  case openat =>
    cases hrun
    exact h.openat_kept hmem.1 hmem.2 rfl
  case write =>
    obtain ⟨⟨r, s1⟩, hwrite, rfl⟩ := Option.map_eq_some_iff.mp hrun
    exact write_kept hwrite
  case read =>
    obtain ⟨⟨r, s1⟩, hread, rfl⟩ := Option.map_eq_some_iff.mp hrun
    refine .of_eq ?_
    unfold fileRead deviceRead pipeRead at hread
    grind [setFile, setPipe]
  all_goals
    cases hrun
    refine .of_eq ?_
  case get => rfl
  case put =>
    unfold filePut pipeRelease
    grind [setFile, setPipe]
  case seek =>
    unfold fileSeek
    grind [setFile]
  case getdents =>
    unfold fileGetdents
    grind [setFile]

/-- **A read-only mount never changes**: after any calls, in any state that calls have led to
since `vfs_init`, its files and directories are as they were, with their contents and
their children. -/
theorem readonly_frozen {s₀ s₁ : FileSys} {archive : Option (List UInt8)}
    (hst : Stocked P s₀.machine rest) (hdown : s₀.vfs.Down) (hfiles : s₀.files = [])
    (hpipes : s₀.pipes = []) (hinit : s₀.init archive = (true, s₁))
    (hreach : Reach fsStep Always s₁ s) (hn : s.vfs.Fixed n) (hreach' : Reach fsStep Always s s') :
    s'.vfs.Fixed n ∧ s'.vfs.node n = s.vfs.node n := by
  obtain ⟨hok, hnone, -, -⟩ := init_spec hdown hfiles hpipes hst hinit
  refine (hreach'.invariant (I := fun u => (u.Ok P rest (liveBag s₀.machine.slabs) ∧ u.NoPipes) ∧
    u.vfs.Fixed n ∧ u.vfs.node n = s.vfs.node n) ⟨hok.reach hnone hreach, hn, rfl⟩ ?_).2
  rintro u c u' ⟨⟨hok, hnone⟩, hfixed, heq⟩ - hstep
  obtain ⟨hok', hnone', -⟩ := hok.step hnone hstep
  have hkept := step_kept hok hstep
  exact ⟨⟨hok', hnone'⟩, hfixed.kept hkept, (hkept.fixed n hfixed).trans heq⟩

/-- The file system of an archive with nothing in it. -/
def emptyStart : FileSys := (bareFileSys.init (some emptyArchive)).2

theorem readonly_frozen_root :
    ∃ s', runSteps fsStep emptyStart (createCalls emptyStart.vfs) = some s' ∧
    s'.vfs.Fixed emptyStart.vfs.root ∧ s'.vfs.node emptyStart.vfs.root = emptyStart.vfs.node
      emptyStart.vfs.root := by
  obtain ⟨P, hst⟩ := bareFileSys_stocked
  have hdown : bareFileSys.vfs.Down := ⟨rfl, fun _ => rfl, fun _ => rfl⟩
  have hinit : bareFileSys.init (some emptyArchive) = (true, emptyStart) :=
    Prod.ext (by decide +kernel) (by rw [emptyStart])
  have hruns : (runSteps fsStep emptyStart (createCalls emptyStart.vfs)).isSome = true := by
    decide +kernel
  obtain ⟨s', hrun⟩ := Option.isSome_iff_exists.mp hruns
  obtain ⟨-, -, -, ht⟩ := init_spec hdown rfl rfl hst hinit
  exact ⟨s', hrun, readonly_frozen hst hdown rfl rfl hinit .refl
    ⟨ht.root, by decide +kernel, .inr ht.rootDir⟩ (Reach.of_runSteps hrun fun _ _ _ => trivial)⟩

end FileSys

end MiniCore
