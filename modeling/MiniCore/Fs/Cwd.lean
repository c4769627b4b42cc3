import MiniCore.Fs.Resolution
import MiniCore.Fs.VfsRuns

/-!
# MiniCore.Fs.Cwd

`vfs_getcwd` is the inverse of `vfs_resolve` (`src/fs/vfs.c`).

`Descends root d names` is the way from the root of a process down to a node, from
name to name and across mounts.  Every walk of `vfs_resolve` keeps to such ways,
and each `..` leaves off the last name (`Descends.up`).  `vfs_getcwd` reads the way
backwards, and `vfs_resolve` finds it again.
-/

namespace MiniCore

open Lib List

namespace Vfs

variable {v : Vfs} {root base node links n c d q : Nat} {nofollow : Bool}
  {work path name tail : List UInt8}
  {names : List (List UInt8)} {r : Except Errno Nat}

/-- The names on the way from `root` down to a node that is not a link. -/
inductive Descends (v : Vfs) (root : Nat) : Nat → List (List UInt8) → Prop
  | root : Descends v root root []
  | child {q c : Nat} {names : List (List UInt8)} : Descends v root q names →
    c ∈ (v.node q).children →
      (v.node (v.across c)).type ≠ .lnk → Descends v root (v.across c) (names ++ [(v.node c).name])

/-- The directories that a process with this root can come to. -/
inductive Reachable (v : Vfs) (root : Nat) : Nat → Prop
  | root : Reachable v root root
  | resolve {base d : Nat} {path : List UInt8} {nofollow : Bool} : Reachable v root base →
      v.vfsResolve root base path nofollow = .ok d → (v.node d).type = .dir → Reachable v root d

/-- A path with these names. -/
def pathBytes (names : List (List UInt8)) : List UInt8 := names.flatMap (slash :: ·)

/-! ## The ways of a walk -/

theorem Descends.mem (h : v.Descends root d names) (hc : v.Closed) (hroot : root ∈ v.nodes) :
    d ∈ v.nodes := by
  induction h with
  | root => exact hroot
  | child _ hchild _ ih => exact hc.across_mem (hc.children _ ih _ hchild)

theorem Descends.nameOk (h : v.Descends root d names) (ht : v.Tree) (hroot : root ∈ v.nodes) :
    ∀ name ∈ names, NameOk name := by
  induction h with
  | root => simp
  | child hq hchild _ ih =>
    simpa [or_imp, forall_and] using ⟨ih, (ht.child _ (hq.mem ht.closed hroot) _ hchild).name⟩

/-- A node and what is mounted on it. -/
theorem Tree.across_cases (ht : v.Tree) (hq : q ∈ v.nodes) (hc : c ∈ (v.node q).children) :
    v.across c = c ∧ (v.mountOf c).root ≠ c ∨
      (v.mountOf (v.across c)).root = v.across c ∧ (v.mountOf (v.across c)).covered = c ∧
      c ≠ 0 := by
  have hcn := ht.closed.children q hq c hc
  cases hm : (v.node c).mounted with
  | none =>
    have hacross : v.across c = c := by rw [across, hm]; rfl
    exact .inl ⟨hacross, (ht.child q hq c hc).inner⟩
  | some i =>
    have hacross : v.across c = (v.mounts i).root := by rw [across, hm]; rfl
    have hok := ht.mounted c hcn i hm
    have hmount : v.mountOf (v.mounts i).root = v.mounts i := by rw [mountOf, hok.mount]
    rw [hacross, hmount]
    exact .inr ⟨rfl, hok.covered, hok.ne_zero⟩

theorem Tree.inode_across (ht : v.Tree) (hq : q ∈ v.nodes) (hc : c ∈ (v.node q).children) :
    (v.node q).inode < (v.node (v.across c)).inode := by
  have hcn := ht.closed.children q hq c hc
  have hlt := (ht.child q hq c hc).inode
  cases hm : (v.node c).mounted with
  | none =>
    rw [across, hm]
    exact hlt
  | some i =>
    rw [across, hm]
    exact Nat.lt_trans hlt (ht.mounted c hcn i hm).inode

/-- Inode numbers grow on the way, so it never comes back to the root. -/
theorem Descends.inode (h : v.Descends root d names) (ht : v.Tree) (hroot : root ∈ v.nodes) :
    (v.node root).inode + names.length ≤ (v.node d).inode := by
  induction h with
  | root => exact Nat.le_refl _
  | child hq hchild _ ih =>
    have hlt := ht.inode_across (hq.mem ht.closed hroot) hchild
    rw [length_append, length_singleton]
    omega

theorem Descends.eq_root (h : v.Descends root d names) (hnil : names = []) : d = root := by
  cases h with
  | root => rfl
  | child => simp at hnil

theorem Descends.ne_root (h : v.Descends root q names) (ht : v.Tree) (hroot : root ∈ v.nodes)
    (hc : c ∈ (v.node q).children) : v.across c ≠ root := by
  intro heq
  have hlt := ht.inode_across (h.mem ht.closed hroot) hc
  have hle := h.inode ht hroot
  rw [heq] at hlt
  omega

/-- `..` leaves off the last name. -/
theorem Descends.up (h : v.Descends root d names) (ht : v.Tree) (hroot : root ∈ v.nodes) :
    v.Descends root (v.up root d) names.dropLast := by
  cases h with
  | root => simpa [Vfs.up] using Descends.root
  | @child q c names hq hchild hlnk =>
    have hqn := hq.mem ht.closed hroot
    have hup : v.up root (v.across c) = q := by
      rw [Vfs.up, if_neg (hq.ne_root ht hroot hchild)]
      rcases ht.across_cases hqn hchild with ⟨hsame, hinner⟩ | ⟨hmroot, hcov, hne⟩
      · rw [hsame, if_neg fun hand => hinner hand.1]
        exact (ht.child q hqn c hchild).parent
      · rw [hcov, if_pos ⟨hmroot, hne⟩]
        exact (ht.child q hqn c hchild).parent
    rw [hup, dropLast_concat]
    exact hq

/-- Every round of a walk keeps to such a way. -/
theorem resolveRound_descends (ht : v.Tree) (hroot : root ∈ v.nodes)
    (hd : ∃ names, v.Descends root node names) {work' : List UInt8} {links' : Nat}
    (hround : v.resolveRound root nofollow work node links = .next work' n links') :
    ∃ names, v.Descends root n names := by
  obtain ⟨names, hd⟩ := hd
  obtain ⟨-, -, hname⟩ := resolveRound_eq_next hround
  cases (resolveName_next hname).2 with
  | dot => exact ⟨names, hd⟩
  | dotdot => exact ⟨_, hd.up ht hroot⟩
  | child c _ _ hchild htype => exact ⟨_, hd.child (child_eq_some hchild).1 htype⟩
  | link =>
    split
    · exact ⟨[], .root⟩
    · exact ⟨names, hd⟩

/-- **What `vfs_resolve` returns** is at the end of such a way. -/
theorem vfsResolve_descends (ht : v.Tree) (hroot : root ∈ v.nodes)
    (hbase : ∃ names, v.Descends root base names)
    (h : v.vfsResolve root base path nofollow = .ok n) : ∃ names, v.Descends root n names := by
  have hwalk : ∀ {work node links r}, v.Walk root nofollow work node links r → r = .ok n →
      (∃ names, v.Descends root node names) → ∃ names, v.Descends root n names := by
    intro work node links r hw
    induction hw with
    | done hround =>
      rintro rfl hd
      exact (resolveRound_ok hround).1 ▸ hd
    | next hround _ ih => exact fun hr hd => ih hr (resolveRound_descends ht hroot hd hround)
  obtain ⟨hne, hlen⟩ := path_of_ok h
  rw [vfsResolve_eq_iff hne hlen] at h
  refine hwalk h rfl ?_
  unfold startNode
  split
  · exact ⟨[], .root⟩
  · exact hbase

theorem Reachable.descends (h : v.Reachable root d) (ht : v.Tree) (hroot : root ∈ v.nodes) :
    ∃ names, v.Descends root d names := by
  induction h with
  | root => exact ⟨[], .root⟩
  | resolve _ hresolve _ ih => exact vfsResolve_descends ht hroot ih hresolve

/-! ## Down the way -/

/-- One name of a path. -/
theorem resolveRound_child (ht : v.Tree) (hq : q ∈ v.nodes) (hc : c ∈ (v.node q).children)
    (hlnk : (v.node (v.across c)).type ≠ .lnk) (htail : ∀ b ∈ tail.head?, b = slash) :
    v.resolveRound root nofollow (slash :: (v.node c).name ++ tail) q links = .next tail
    (v.across c) links := by
  have hname := (ht.child q hq c hc).name
  have hdir : (v.node q).type = .dir := ht.dir q hq (ne_nil_of_mem hc)
  have hhead : ∀ b ∈ (v.node c).name.head?, b ≠ slash := fun b hb heq =>
    hname.noSlash (heq ▸ mem_of_mem_head? hb)
  have hdrop : (slash :: (v.node c).name ++ tail).dropWhile (· = slash) =
      (v.node c).name ++ tail := by
    obtain ⟨b, l, hbl⟩ := exists_cons_of_ne_nil hname.ne_nil
    rw [hbl] at hhead ⊢
    simp [hhead b rfl]
  have hall : ∀ b ∈ (v.node c).name, decide (b ≠ slash) = true := fun b hb => by
    simpa using fun heq : b = slash => hname.noSlash (heq ▸ hb)
  have htake : tail.takeWhile (· ≠ slash) = [] ∧ tail.dropWhile (· ≠ slash) = tail := by
    cases tail with
    | nil => exact ⟨rfl, rfl⟩
    | cons b tail => simp [htail b rfl]
  rw [resolveRound, hdrop, if_neg (by simp [hname.ne_nil]), if_neg (not_not.mpr hdir),
    takeWhile_append_of_pos hall, dropWhile_append_of_pos hall, htake.1, htake.2, append_nil,
    resolveName, if_neg (Nat.not_le.mpr hname.lt), if_neg hname.notDot, if_neg hname.notDotdot,
    ht.child_eq hq hc]
  dsimp only
  exact if_neg hlnk

section

variable (h : v.Descends root d names)

include h

/-- **A walk down a way** comes to its end, and follows no link. -/
theorem Descends.walk (ht : v.Tree) (hroot : root ∈ v.nodes) (htail : ∀ b ∈ tail.head?, b = slash) :
    v.Walk root nofollow (pathBytes names ++ tail) root links r ↔
      v.Walk root nofollow tail d links r := by
  induction h generalizing tail with
  | root => rfl
  | @child q c names hq hchild hlnk ih =>
    have hround : v.resolveRound root nofollow (slash :: (v.node c).name ++ tail) q links = _ :=
      resolveRound_child ht (hq.mem ht.closed hroot) hchild hlnk htail
    rw [← walk_of_next hround, ← ih (by simp)]
    simp [pathBytes]

/-- The path of a way. -/
def pathOf (names : List (List UInt8)) : List UInt8 :=
  if names = [] then [slash] else pathBytes names

theorem Descends.walk_pathOf (ht : v.Tree) (hroot : root ∈ v.nodes)
    (hdir : (v.node root).type = .dir) :
    v.Walk root nofollow (pathOf names) root links (.ok d) := by
  unfold pathOf
  split
  · next hnil =>
    rw [h.eq_root hnil]
    exact .done (by simp [resolveRound, hdir])
  · have hend : v.Walk root nofollow [] d links (.ok d) := .done (by simp [resolveRound])
    have hwalk := (h.walk ht hroot (by simp)).mpr hend
    rwa [append_nil] at hwalk

/-! ## Up the way -/

theorem getcwdLoop_eq (ht : v.Tree) (hroot : root ∈ v.nodes) :
    ∀ {rounds : Nat} {reverse : List UInt8}, pathLimit ≤ rounds + reverse.length →
      reverse.length < pathLimit →
      v.getcwdLoop root rounds d reverse =
        if pathLimit ≤ (pathBytes names).length + reverse.length then .error .nametoolong
        else .ok (pathBytes names ++ reverse) := by
  induction h with
  | root =>
    intro rounds reverse hrounds hlen
    obtain ⟨rounds, rfl⟩ := Nat.exists_eq_add_one_of_ne_zero (n := rounds) (by omega)
    rw [getcwdLoop, if_pos rfl, if_neg (by simpa [pathBytes] using hlen)]
    rfl
  | @child q c names hq hchild hlnk ih =>
    intro rounds reverse hrounds hlen
    obtain ⟨rounds, rfl⟩ := Nat.exists_eq_add_one_of_ne_zero (n := rounds) (by omega)
    have hqn := hq.mem ht.closed hroot
    have hok := ht.child q hqn c hchild
    -- out of a mount, to the node it covers
    have hout : (if (v.mountOf (v.across c)).root = v.across c ∧
      (v.mountOf (v.across c)).covered ≠ 0
        then (v.mountOf (v.across c)).covered else v.across c) = c := by
      rcases ht.across_cases hqn hchild with ⟨hsame, hinner⟩ | ⟨hmroot, hcov, hne⟩
      · rw [hsame, if_neg fun hand => hinner hand.1]
      · rw [hcov, if_pos ⟨hmroot, hne⟩]
    have hbytes : pathBytes (names ++ [(v.node c).name]) = pathBytes names ++
        (slash :: (v.node c).name) := by
      simp [pathBytes]
    have hpos := List.length_pos_iff.mpr hok.name.ne_nil
    rw [getcwdLoop, if_neg (hq.ne_root ht hroot hchild)]
    dsimp only
    rw [hout, hbytes, length_append, length_cons]
    by_cases hfull : pathLimit - 1 - reverse.length < (v.node c).name.length + 1
    · rw [if_pos hfull, if_pos (by omega)]
    rw [if_neg hfull, hok.parent, ih (by simp; omega) (by simp; omega)]
    simp only [cons_append, length_cons, length_append, append_assoc]
    congr 2
    omega

omit h in
theorem length_pathOf (names : List (List UInt8)) : pathLimit ≤ (pathOf names).length ↔
    pathLimit ≤ (pathBytes names).length := by
  unfold pathOf
  split
  · next hnil =>
    subst hnil
    decide
  · rfl

/-- **`vfs_getcwd`** of a directory that the process can come to. -/
theorem vfsGetcwd_eq (ht : v.Tree) (hroot : root ∈ v.nodes) (size : Nat) : v.vfsGetcwd root d size =
      if pathLimit ≤ (pathOf names).length then .error .nametoolong
      else if size < (pathOf names).length + 1 then .error .inval
      else .ok (pathOf names ++ [0]) := by
  have hpath : (if pathBytes names = [] then [slash] else pathBytes names) = pathOf names := by
    unfold pathOf
    by_cases hnil : names = []
    · rw [if_pos hnil, if_pos (by rw [hnil]; rfl)]
    · obtain ⟨name, names, rfl⟩ := exists_cons_of_ne_nil hnil
      rw [if_neg hnil, if_neg (by simp [pathBytes])]
  rw [vfsGetcwd, getcwdLoop_eq h ht hroot (by simp) (by decide), length_nil,
    Nat.add_zero, append_nil]
  by_cases hlong : pathLimit ≤ (pathBytes names).length
  · rw [if_pos hlong, if_pos ((length_pathOf names).mpr hlong)]
  rw [if_neg hlong, if_neg (mt (length_pathOf names).mp hlong)]
  dsimp only
  rw [hpath, length_append, length_singleton]

end

/-- **What `vfs_getcwd` answers**, for the names on the way to the directory. -/
structure CwdLaw (v : Vfs) (root cwd size : Nat) (names : List (List UInt8)) : Prop where
  /-- no name is a link -/
  way : v.Descends root cwd names
  /-- no name is `.` or `..` -/
  nameOk : ∀ name ∈ names, NameOk name
  /-- the loop ends before its rounds do -/
  terminates : ∀ more, v.getcwdLoop root (pathLimit + more) cwd [] = v.getcwdLoop root
    pathLimit cwd []
  answer : v.vfsGetcwd root cwd size =
    if pathLimit ≤ (pathOf names).length then .error .nametoolong
    else if size < (pathOf names).length + 1 then .error .inval
    else .ok (pathOf names ++ [0])
  inverse : (pathOf names).length < pathLimit → ∀ base nofollow,
    v.vfsResolve root base (pathOf names) nofollow = .ok cwd
  /-- not even if all eight links are used up -/
  noLink : ∀ nofollow, v.Walk root nofollow (pathOf names) root 8 (.ok cwd)

/-- **`vfs_getcwd` inverts `vfs_resolve`.** -/
theorem getcwd_inverts (ht : v.Tree) (hroot : root ∈ v.nodes) (hdir : (v.node root).type = .dir)
    {cwd : Nat} (hcwd : v.Reachable root cwd) (size : Nat) :
    ∃ names, CwdLaw v root cwd size names := by
  obtain ⟨names, hd⟩ := hcwd.descends ht hroot
  refine ⟨names, hd, hd.nameOk ht hroot, fun more => ?_, vfsGetcwd_eq hd ht hroot size,
    fun hlen base nofollow => ?_, fun nofollow => hd.walk_pathOf ht hroot hdir⟩
  · rw [getcwdLoop_eq hd ht hroot (by simp) (by decide), getcwdLoop_eq hd ht hroot (by simp)
      (by decide)]
  have hhead : (pathOf names).head? = some slash := by
    unfold pathOf
    cases names with
    | nil => rfl
    | cons name names => rfl
  have hne : pathOf names ≠ [] := fun hnil => by simp [hnil] at hhead
  rw [vfsResolve_eq_iff hne hlen, startNode, if_pos hhead]
  exact hd.walk_pathOf ht hroot hdir

theorem getcwd_inverts_tmp : ∃ s₁ cwd, bareFileSys.init (some emptyArchive) = (true, s₁) ∧
    s₁.vfs.vfsResolve s₁.vfs.root s₁.vfs.root (bytesOf "tmp/../tmp") false = .ok cwd ∧
    ∃ names, CwdLaw s₁.vfs s₁.vfs.root cwd pathLimit names := by
  obtain ⟨P, hst⟩ := bareFileSys_stocked
  have hok : (bareFileSys.init (some emptyArchive)).1 = true := by decide +kernel
  have htmp : ((bareFileSys.init (some emptyArchive)).2.vfs.vfsResolve
      (bareFileSys.init (some emptyArchive)).2.vfs.root
      (bareFileSys.init (some emptyArchive)).2.vfs.root (bytesOf "tmp/../tmp") false).map
        (fun cwd => ((bareFileSys.init (some emptyArchive)).2.vfs.node cwd).type) = .ok .dir := by
          decide +kernel
  rcases hinit : bareFileSys.init (some emptyArchive) with ⟨ok, s₁⟩
  rw [hinit] at hok htmp
  dsimp only at hok htmp
  subst hok
  obtain ⟨-, -, -, ht⟩ := FileSys.init_spec ⟨rfl, fun _ => rfl, fun _ => rfl⟩ rfl rfl hst hinit
  cases hresolve : s₁.vfs.vfsResolve s₁.vfs.root s₁.vfs.root (bytesOf "tmp/../tmp") false with
  | error e =>
    rw [hresolve] at htmp
    cases htmp
  | ok cwd =>
    rw [hresolve] at htmp
    exact ⟨s₁, cwd, rfl, hresolve,
      getcwd_inverts ht ht.root ht.rootDir (.resolve .root hresolve (Except.ok.inj htmp))
      pathLimit⟩

end Vfs

end MiniCore
