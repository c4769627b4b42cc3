import Mathlib.Data.List.TakeWhile
import MiniCore.Fs.Namespace

/-!
# MiniCore.Fs.Resolution

The walks of `vfs_resolve` (`src/fs/vfs.c`).

`Walk` is the loop as a relation, without a number of rounds.  A path is its
parent part and a last name (`splitPath`), and so is its walk: through the parent
part to a directory, and then a round with the name there (`Walk.append`), unless
the expansion of a link becomes too long with the name behind it.
-/

namespace MiniCore

open Lib List

namespace Vfs

variable {v v' : Vfs} {root base node links n p : Nat} {nofollow : Bool}
  {work path name : List UInt8}
  {r : Except Errno Nat}

variable {work' : List UInt8} {links' node' : Nat}

/-! ## The loop -/

/-- The walk of `vfs_resolve` from a state of its loop to its answer. -/
inductive Walk (v : Vfs) (root : Nat) (nofollow : Bool) :
    List UInt8 → Nat → Nat → Except Errno Nat → Prop
  | done {work : List UInt8} {node links : Nat} {r : Except Errno Nat} :
      v.resolveRound root nofollow work node links = .done r →
        Walk v root nofollow work node links r
  | next {work work' : List UInt8} {node node' links links' : Nat} {r : Except Errno Nat} :
      v.resolveRound root nofollow work node links = .next work' node' links' →
      Walk v root nofollow work' node' links' r → Walk v root nofollow work node links r

theorem Walk.unique {r' : Except Errno Nat} (h : v.Walk root nofollow work node links r)
    (h' : v.Walk root nofollow work node links r') : r = r' := by
  induction h with
  | done hround =>
    cases h' with
    | done hround' => exact Round.done.inj (hround.symm.trans hround')
    | next hround' => cases hround.symm.trans hround'
  | next hround _ ih =>
    cases h' with
    | done hround' => cases hround.symm.trans hround'
    | next hround' hwalk =>
      cases hround.symm.trans hround'
      exact ih hwalk

theorem walk_of_next (h : v.resolveRound root nofollow work node links = .next work' node' links') :
    v.Walk root nofollow work node links r ↔ v.Walk root nofollow work' node' links' r := by
  refine ⟨fun hw => ?_, .next h⟩
  cases hw with
  | done hround => cases h.symm.trans hround
  | next hround hw =>
    cases h.symm.trans hround
    exact hw

theorem walk_of_done {r' : Except Errno Nat}
    (h : v.resolveRound root nofollow work node links = .done r') :
    v.Walk root nofollow work node links r ↔ r = r' := by
  constructor
  · exact fun hw => hw.unique (.done h)
  · rintro rfl
    exact .done h

/-- A walk depends on its next round. -/
theorem walk_congr
    (h : v.resolveRound root nofollow work node links = v.resolveRound root nofollow work'
      node' links') :
    v.Walk root nofollow work node links r ↔ v.Walk root nofollow work' node' links' r := by
  cases hround : v.resolveRound root nofollow work' node' links' with
  | done r' => rw [walk_of_done (h.trans hround), walk_of_done hround]
  | next w n l => rw [walk_of_next (h.trans hround), walk_of_next hround]

theorem resolveLoop_walk : ∀ {rounds : Nat} {work : List UInt8} {node links : Nat},
    roundsLeft work links < rounds → links ≤ 8 → work.length < pathLimit →
    v.Walk root nofollow work node links (v.resolveLoop root nofollow rounds work node links) := by
  intro rounds
  induction rounds with
  | zero =>
    intro work node links h
    cases h
  | succ rounds ih =>
    intro work node links h hlinks hlen
    rw [resolveLoop]
    cases hround : v.resolveRound root nofollow work node links with
    | done result => exact .done hround
    | next work' node' links' =>
      obtain ⟨hless, hlinks', hlen'⟩ := resolveRound_next hround hlinks hlen
      exact .next hround (ih (by omega) hlinks' hlen')

/-- Where a walk begins. -/
def startNode (root base : Nat) (path : List UInt8) : Nat :=
  if path.head? = some slash then root else base

/-- **`vfs_resolve`** walks. -/
theorem vfsResolve_eq_iff (hne : path ≠ []) (hlen : path.length < pathLimit) :
    v.vfsResolve root base path nofollow = r ↔
      v.Walk root nofollow path (startNode root base path) 0 r := by
  have hwalk : v.Walk root nofollow path (startNode root base path) 0
      (v.vfsResolve root base path nofollow) := by
    rw [vfsResolve, if_neg hne, if_neg (Nat.not_le.mpr hlen)]
    refine resolveLoop_walk ?_ (by decide) hlen
    unfold roundsLeft resolveRounds pathLimit at *
    omega
  constructor
  · rintro rfl
    exact hwalk
  · exact hwalk.unique

theorem path_of_ok (h : v.vfsResolve root base path nofollow = .ok n) :
    path ≠ [] ∧ path.length < pathLimit := by
  unfold vfsResolve at h
  split at h
  · cases h
  next hne =>
  split at h
  · cases h
  next hlen => exact ⟨hne, Nat.lt_of_not_le hlen⟩

/-! ## Nodes that are found in both -/

/-- What is found in `v` is found in `v'`. -/
structure Extends (v v' : Vfs) : Prop where
  child : ∀ n ∈ v.nodes, ∀ name c, v.child n name = some c → v'.child n name = some c
  up : ∀ n ∈ v.nodes, ∀ root, v'.up root n = v.up root n
  across : ∀ n ∈ v.nodes, v'.across n = v.across n
  type : ∀ n ∈ v.nodes, (v'.node n).type = (v.node n).type
  size : ∀ n ∈ v.nodes, (v.node n).type = .lnk → (v'.node n).size = (v.node n).size
  target : ∀ n ∈ v.nodes, (v.node n).type = .lnk → v'.target n = v.target n

theorem Extends.refl (v : Vfs) : v.Extends v :=
  ⟨fun _ _ _ _ h => h, fun _ _ _ => rfl, fun _ _ => rfl, fun _ _ => rfl, fun _ _ _ => rfl,
    fun _ _ _ => rfl⟩

theorem find_name_congr {l : List Nat} (h : ∀ c ∈ l, (v'.node c).name = (v.node c).name) :
    l.find? (fun c => decide ((v'.node c).name = name)) = l.find? fun c => decide
    ((v.node c).name = name) := by
  induction l with
  | nil => rfl
  | cons c l ih =>
    rw [forall_mem_cons] at h
    rw [find?_cons, find?_cons, h.1, ih h.2]

section

variable (hs : v.SameNames v')

include hs

theorem SameNames.child_eq (hc : v.Closed) (hn : n ∈ v.nodes) :
    v'.child n name = v.child n name := by
  rw [Vfs.child, Vfs.child, (hs.node n hn).children,
    find_name_congr fun c hcn => (hs.node c (hc.children n hn c hcn)).name]

theorem SameNames.up_eq (hc : v.Closed) (hn : n ∈ v.nodes) : v'.up root n = v.up root n := by
  have hmount := hs.places.mountOf_eq hn
  rw [up, up, hmount, (hs.node n hn).parent]
  split
  · rfl
  split
  · next hcov => exact (hs.node _ (hc.covered _ hcov.2)).parent
  · rfl

theorem SameNames.across_eq (hn : n ∈ v.nodes) : v'.across n = v.across n := by
  rw [across, (hs.node n hn).mounted, hs.mounts, across]

theorem SameNames.resolveRound_eq (hc : v.Closed) (hn : node ∈ v.nodes) :
    v'.resolveRound root nofollow work node links = v.resolveRound root nofollow work
      node links := by
  have hname : ∀ part rest, v'.resolveName root nofollow part rest node links =
      v.resolveName root nofollow part rest node links := by
    intro part rest
    rw [resolveName, resolveName, hs.child_eq hc hn, hs.up_eq hc hn]
    cases hfound : v.child node part with
    | none => rfl
    | some found =>
      have hmem := hc.child_mem hn hfound
      have hmem' := hc.across_mem hmem
      dsimp only
      rw [hs.across_eq hmem, (hs.node _ hmem').type]
      by_cases hl : (v.node (v.across found)).type = .lnk
      · rw [(hs.node _ hmem').size hl, hs.target_eq hmem' hl]
      · rw [if_neg hl, if_neg hl]
  rw [resolveRound, resolveRound, (hs.node node hn).type, hname]

/-- The same names, the same walks. -/
theorem SameNames.vfsResolve_eq (hc : v.Closed) (hroot : root ∈ v.nodes) (hbase : base ∈ v.nodes) :
    v'.vfsResolve root base path nofollow = v.vfsResolve root base path nofollow := by
  have hloop : ∀ {rounds work node links}, node ∈ v.nodes →
      v'.resolveLoop root nofollow rounds work node links = v.resolveLoop root nofollow rounds work
        node links := by
    intro rounds
    induction rounds with
    | zero =>
      intros
      rfl
    | succ rounds ih =>
      intro work node links hnode
      rw [resolveLoop, resolveLoop, hs.resolveRound_eq hc hnode]
      cases hround : v.resolveRound root nofollow work node links with
      | done r => rfl
      | next work' node' links' => exact ih (hc.resolveRound_mem hroot hnode hround)
  rw [vfsResolve, vfsResolve, hloop]
  split
  · exact hroot
  · exact hbase

end

/-- A new node hides nothing. -/
theorem extends_addNode (hc : v.Closed) (hn : n ∉ v.nodes) {parent : Option Nat} {type : NodeType}
    {mount : Nat} : v.Extends (v.addNode n parent name type mount) := by
  have hold : ∀ {c}, c ∈ v.nodes → (v.addNode n parent name type mount).node c =
      { v.node c with children := (v.node c).children ++ if parent = some c then [n] else [] } :=
    fun hc => addNode_old (ne_of_mem_of_not_mem hc hn)
  have hmount : ∀ {c}, c ∈ v.nodes → (v.addNode n parent name type mount).mountOf c =
      v.mountOf c := by
    intro c hcn
    rw [mountOf, addNode_mounts, hold hcn, mountOf]
  refine ⟨fun c hcn part d h => ?_, fun c hcn root => ?_, fun c hcn => ?_, fun c hcn => ?_,
    fun c hcn _ => ?_, fun c hcn _ => ?_⟩
  · rw [Vfs.child, hold hcn]
    dsimp only
    rw [find?_append]
    have hcongr : (v.node c).children.find?
        (fun d => decide (((v.addNode n parent name type mount).node d).name = part)) =
          v.child c part :=
      find_name_congr fun d hd => by rw [hold (hc.children c hcn d hd)]
    rw [hcongr, h, Option.some_or]
  · rw [up, up, hmount hcn, hold hcn]
    split
    · rfl
    split
    · next hcov =>
      have hparent := congrArg Node.parent (hold (hc.covered _ hcov.2))
      exact hparent
    · rfl
  · rw [across, addNode_mounts, hold hcn, across]
  · rw [hold hcn]
  · rw [hold hcn]
  · rw [target, hold hcn, target]

/-! ## No walk ends at a link -/

theorem Tree.up_dir (h : v.Tree) (hn : n ∈ v.nodes) (hdir : (v.node n).type = .dir) :
    (v.node (v.up root n)).type = .dir := by
  unfold up
  split
  · exact hdir
  split
  · next hcov => exact h.parent _ (h.closed.covered _ hcov.2)
  · exact h.parent n hn

/-- Every round goes on from something that is not a link. -/
theorem Tree.resolveRound_next_type (h : v.Tree) (hroot : (v.node root).type = .dir)
    (hn : node ∈ v.nodes)
    (hround : v.resolveRound root nofollow work node links = .next work' node' links') :
    (v.node node').type ≠ .lnk := by
  have hnot : ∀ {n}, (v.node n).type = .dir → (v.node n).type ≠ .lnk := fun hd => by rw [hd]; decide
  obtain ⟨-, hdir, hname⟩ := resolveRound_eq_next hround
  cases (resolveName_next hname).2 with
  | dot => exact hnot hdir
  | dotdot => exact hnot (h.up_dir hn hdir)
  | child c _ _ _ htype => exact htype
  | link =>
    split
    · exact hnot hroot
    · exact hnot hdir

/-- **`vfs_resolve`** never returns a link. -/
theorem Tree.vfsResolve_type (h : v.Tree) (hroot : root ∈ v.nodes)
    (hdir : (v.node root).type = .dir) (hbase : base ∈ v.nodes)
    (hn : v.vfsResolve root base path nofollow = .ok n) : (v.node n).type ≠ .lnk := by
  have hwalk : ∀ {work node links r}, v.Walk root nofollow work node links r → r = .ok n →
    node ∈ v.nodes →
      (v.node node).type ≠ .lnk ∨ work.dropWhile (· = slash) ≠ [] → (v.node n).type ≠ .lnk := by
    intro work node links r hw
    induction hw with
    | @done work node links r hround =>
      rintro rfl hnode hor
      obtain ⟨rfl, hnil⟩ := resolveRound_ok hround
      exact hor.resolve_right (not_not.mpr hnil)
    | next hround _ ih =>
      intro hr hnode _
      exact ih hr (h.closed.resolveRound_mem hroot hnode hround)
        (.inl (h.resolveRound_next_type hdir hnode hround))
  obtain ⟨hne, hlen⟩ := path_of_ok hn
  rw [vfsResolve_eq_iff hne hlen] at hn
  unfold startNode at hn
  split at hn
  · exact hwalk hn rfl hroot (.inl (by rw [hdir]; decide))
  next hhead =>
  refine hwalk hn rfl hbase (.inr ?_)
  obtain ⟨c, l, rfl⟩ := exists_cons_of_ne_nil hne
  rw [dropWhile_cons_of_neg (by simpa using hhead)]
  exact hne

/-! ## The last name -/

/-- What can be the last name of a path. -/
structure LastName (name : List UInt8) : Prop where
  ne_nil : name ≠ []
  noSlash : slash ∉ name
  noZero : 0 ∉ name

/-- A text to walk that ends at a slash. -/
structure EndsAtSlash (work : List UInt8) : Prop where
  last : work.getLast? = some slash
  noZero : 0 ∉ work

theorem EndsAtSlash.of_suffix {l : List UInt8} (h : EndsAtSlash work) (hs : l <:+ work)
    (hne : l ≠ []) : EndsAtSlash l := by
  refine ⟨?_, fun hm => h.noZero (hs.subset hm)⟩
  obtain ⟨t, rfl⟩ := hs
  have hlast := h.last
  rwa [getLast?_append_of_ne_nil _ hne] at hlast

theorem EndsAtSlash.mem (h : EndsAtSlash work) : slash ∈ work := mem_of_getLast? h.last

theorem EndsAtSlash.append {l : List UInt8} (h : EndsAtSlash work) (hl : 0 ∉ l) :
    EndsAtSlash (l ++ work) := by
  refine ⟨?_, by simp [hl, h.noZero]⟩
  rw [getLast?_append_of_ne_nil _ (ne_nil_of_mem h.mem)]
  exact h.last

theorem LastName.dropWhile_eq (h : LastName name) : name.dropWhile (· = slash) = name := by
  obtain ⟨c, l, rfl⟩ := exists_cons_of_ne_nil h.ne_nil
  have hc : c ≠ slash := fun heq => h.noSlash (heq ▸ mem_cons_self)
  simp [hc]

/-- The round of the last name. -/
theorem resolveRound_name (h : LastName name) (hdir : (v.node node).type = .dir) :
    v.resolveRound root nofollow name node links = v.resolveName root nofollow name
    [] node links := by
  have hall : ∀ c ∈ name, decide (c ≠ slash) = true := fun c hc => by
    simpa using fun heq : c = slash => h.noSlash (heq ▸ hc)
  rw [resolveRound, h.dropWhile_eq, if_neg h.ne_nil, if_neg (not_not.mpr hdir),
    List.takeWhile_eq_self_iff.mpr hall, List.dropWhile_eq_nil_iff.mpr hall]

/-- Slashes before a name do nothing. -/
theorem resolveRound_slashes (h : LastName name) (hwork : work.dropWhile (· = slash) = []) :
    v.resolveRound root nofollow (work ++ name) node links = v.resolveRound root nofollow name
      node links := by
  have hdrop : (work ++ name).dropWhile (· = slash) = name := by
    rw [dropWhile_append, hwork]
    exact h.dropWhile_eq
  rw [resolveRound, resolveRound, hdrop, h.dropWhile_eq, if_neg h.ne_nil, if_neg h.ne_nil]

/-- A name on the way: the same with more behind it, but for the length. -/
theorem resolveName_append (hc : v.Closed)
    (hlinks : ∀ n ∈ v.nodes, (v.node n).type = .lnk → 0 ∉ v.target n) (hnode : node ∈ v.nodes)
    {part : List UInt8} (hwork : EndsAtSlash work) (hname : LastName name)
    (h : v.resolveName root false part work node links = .next work' node' links') :
    (EndsAtSlash work' ∧ ∀ v', v.Extends v' →
      v'.resolveName root nofollow part (work ++ name) node links = .next (work' ++ name)
      node' links') ∨
    ∀ v', v.Extends v' →
      v'.resolveName root nofollow part (work ++ name) node links = .done
      (.error .nametoolong) := by
  obtain ⟨hlen, hon⟩ := resolveName_next h
  have hlen := Nat.not_le.mpr hlen
  -- the round in `v'` up to the node that is found
  have hround : ∀ {found}, part ≠ bytesOf "." → part ≠ bytesOf ".." →
    v.child node part = some found →
      ∀ v', v.Extends v' → v'.resolveName root nofollow part (work ++ name) node links =
      if (v.node (v.across found)).type = .lnk then
        if nofollow ∧ work ++ name = [] then .done (.error .loop)
        else if 8 < links + 1 then .done (.error .loop)
        else if (v'.node (v.across found)).size = 0 ∨
            pathLimit ≤ (v'.node (v.across found)).size + (work ++ name).length then .done
              (.error .nametoolong)
        else .next ((v'.target (v.across found) ++ (work ++ name)).takeWhile (· ≠ 0))
          (if ((v'.target (v.across found) ++ (work ++ name)).takeWhile (· ≠ 0)).head? = some slash
            then root else node) (links + 1)
      else .next (work ++ name) (v.across found) links := by
    intro found hdot hdots hfound v' hx
    rw [resolveName, if_neg hlen, if_neg hdot, if_neg hdots, hx.child node hnode part found hfound]
    dsimp only
    rw [hx.across found (hc.child_mem hnode hfound),
      hx.type _ (hc.across_mem (hc.child_mem hnode hfound))]
  cases hon with
  | dot hdot =>
    refine .inl ⟨hwork, fun v' hx => ?_⟩
    rw [resolveName, if_neg hlen, if_pos hdot]
  | dotdot hdot hdots =>
    refine .inl ⟨hwork, fun v' hx => ?_⟩
    rw [resolveName, if_neg hlen, if_neg hdot, if_pos hdots, hx.up node hnode]
  | child found hdot hdots hfound hlnk =>
    exact .inl ⟨hwork, fun v' hx => (hround hdot hdots hfound v' hx).trans (if_neg hlnk)⟩
  | link found hdot hdots hfound hlnk hcount =>
    have hmem := hc.across_mem (hc.child_mem hnode hfound)
    have hne : ¬(nofollow = true ∧ work ++ name = []) := fun hand => by
      simp [hname.ne_nil] at hand
    have hlong : ∀ v', v.Extends v' → v'.resolveName root nofollow part (work ++ name) node
      links = _ :=
      fun v' hx => by
        rw [hround hdot hdots hfound v' hx, if_pos hlnk, if_neg hne, if_neg hcount,
          hx.size _ hmem hlnk, hx.target _ hmem hlnk]
    by_cases hsize : (v.node (v.across found)).size = 0 ∨
        pathLimit ≤ (v.node (v.across found)).size + (work ++ name).length
    · exact .inr fun v' hx => (hlong v' hx).trans (if_pos hsize)
    have hzero := hlinks _ hmem hlnk
    have hall : ∀ l : List UInt8, 0 ∉ l → l.takeWhile (· ≠ 0) = l := fun l hl =>
      List.takeWhile_eq_self_iff.mpr fun c hcl => by
        simpa using fun heq : c = 0 => hl (heq ▸ hcl)
    have hends : EndsAtSlash (v.target (v.across found) ++ work) := hwork.append hzero
    have hboth : 0 ∉ v.target (v.across found) ++ (work ++ name) := by
      simp [hzero, hwork.noZero, hname.noZero]
    rw [hall _ hends.noZero]
    refine .inl ⟨hends, fun v' hx => (hlong v' hx).trans ?_⟩
    rw [if_neg hsize, hall _ hboth, ← append_assoc,
      head?_append_of_ne_nil _ (ne_nil_of_mem hends.mem)]

/-- A round on the way to the last name. -/
theorem resolveRound_append (hc : v.Closed)
    (hlinks : ∀ n ∈ v.nodes, (v.node n).type = .lnk → 0 ∉ v.target n) (hnode : node ∈ v.nodes)
    (hwork : EndsAtSlash work) (hname : LastName name)
    (h : v.resolveRound root false work node links = .next work' node' links') :
    (EndsAtSlash work' ∧ ∀ v', v.Extends v' →
      v'.resolveRound root nofollow (work ++ name) node links = .next (work' ++ name)
      node' links') ∨
    ∀ v', v.Extends v' →
      v'.resolveRound root nofollow (work ++ name) node links = .done (.error .nametoolong) := by
  obtain ⟨hrest, hdir, h⟩ := resolveRound_eq_next h
  have hends : EndsAtSlash (work.dropWhile (· = slash)) :=
    hwork.of_suffix (dropWhile_suffix _) hrest
  have hmore : (work.dropWhile (· = slash)).dropWhile (· ≠ slash) ≠ [] := fun hnil => by
    simpa using List.dropWhile_eq_nil_iff.mp hnil slash hends.mem
  have hdrop : (work ++ name).dropWhile (· = slash) = work.dropWhile (· = slash) ++ name := by
    rw [dropWhile_append, if_neg (by simpa using hrest)]
  have hpart : (work.dropWhile (· = slash) ++ name).takeWhile (· ≠ slash) =
      (work.dropWhile (· = slash)).takeWhile (· ≠ slash) := by
    rw [takeWhile_append, if_neg fun hlen => hmore ?_]
    have hsplit :=
      takeWhile_append_dropWhile (p := fun c => decide (c ≠ slash))
        (l := work.dropWhile (· = slash))
    have hsum := congrArg length hsplit
    rw [length_append, hlen] at hsum
    exact List.length_eq_zero_iff.mp (by omega)
  have hbehind : (work.dropWhile (· = slash) ++ name).dropWhile (· ≠ slash) =
      (work.dropWhile (· = slash)).dropWhile (· ≠ slash) ++ name := by
    rw [dropWhile_append, if_neg (by simpa using hmore)]
  have hround : ∀ v', v.Extends v' → v'.resolveRound root nofollow (work ++ name) node links =
      v'.resolveName root nofollow ((work.dropWhile (· = slash)).takeWhile (· ≠ slash))
        ((work.dropWhile (· = slash)).dropWhile (· ≠ slash) ++ name) node links := by
    intro v' hx
    rw [resolveRound, hdrop, hpart, hbehind, if_neg (by simp [hrest]), hx.type node hnode,
      if_neg (not_not.mpr hdir)]
  rcases resolveName_append hc hlinks hnode (hends.of_suffix (dropWhile_suffix _) hmore)
    hname h with
    ⟨hends', heq⟩ | heq
  · exact .inl ⟨hends', fun v' hx => (hround v' hx).trans (heq v' hx)⟩
  · exact .inr fun v' hx => (hround v' hx).trans (heq v' hx)

/-- **The walk of a path** is the walk of its parent part, and then a round with
its last name. -/
theorem Walk.append (hc : v.Closed)
    (hlinks : ∀ n ∈ v.nodes, (v.node n).type = .lnk → 0 ∉ v.target n) (hroot : root ∈ v.nodes)
    (hnode : node ∈ v.nodes) (hwork : EndsAtSlash work) (hname : LastName name)
    (h : v.Walk root false work node links (.ok p)) : (∃ links', ∀ v', v.Extends v' → ∀ r,
      v'.Walk root nofollow (work ++ name) node links r ↔ v'.Walk root nofollow name p links' r) ∨
    ∀ v', v.Extends v' → v'.Walk root nofollow (work ++ name) node links (.error .nametoolong) := by
  generalize hr : (Except.ok p : Except Errno Nat) = r at h
  induction h with
  | @done work node links r hround =>
    subst hr
    obtain ⟨rfl, hrest⟩ := resolveRound_ok hround
    exact .inl ⟨links, fun v' _ r => walk_congr (resolveRound_slashes hname hrest)⟩
  | @next work work' node node' links links' r hround hwalk ih =>
    have hnode' : node' ∈ v.nodes := hc.resolveRound_mem hroot hnode hround
    rcases resolveRound_append hc hlinks hnode hwork hname hround with ⟨hwork', heq⟩ | heq
    · rcases ih hnode' hwork' hr with ⟨links'', hiff⟩ | hlong
      · exact .inl ⟨links'', fun v' hx r => (walk_of_next (heq v' hx)).trans (hiff v' hx r)⟩
      · exact .inr fun v' hx => .next (heq v' hx) (hlong v' hx)
    · exact .inr fun v' hx => .done (heq v' hx)

end Vfs

end MiniCore
