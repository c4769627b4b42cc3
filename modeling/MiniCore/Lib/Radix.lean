import MiniCore.Lib.Bag
import Mathlib.Algebra.BigOperators.Group.Finset.Basic
import Mathlib.Data.Multiset.Basic
import Mathlib.Algebra.Order.BigOperators.Group.Finset
import Mathlib.Tactic.Abel

/-!
# MiniCore.Lib.Radix

Three-level radix tables with 512 entries per node, seen as data: which page
frame backs the root, the middle and the lowest nodes, and which word every
leaf slot holds.  Slots are numbered across the whole table — leaf `v` sits in
lowest node `v / 512`, lowest node `j` hangs under middle node `j / 512` — so an
update is a pointwise update of a function, never a walk.

The module keeps two things apart:

* the *frames* of a table (`Radix.frames`), the multiset of pages it occupies,
  which changes by exactly one page when a node is added or dropped;
* its *shape*: `WF` (every node hangs under a node), `Tight` (no node is
  empty), and the order `Le` ("every node of `t` is a node of `u`").

A tight table is determined by its leaves inside any larger table
(`Le.eq_of_leaf_eq`).  That is what makes a rolled-back insertion restore the
table exactly, however far it got.
-/

namespace MiniCore.Lib

open Finset

/-! ## Sums over slots -/

/-- Two sums that agree off one index differ by that index's terms. -/
theorem sum_range_exchange {M : Type} [AddCommMonoid M] {f g : Nat → M} {i n : Nat} (hi : i < n)
    (h : ∀ k, k ≠ i → f k = g k) : (∑ k ∈ range n, f k) + g i = (∑ k ∈ range n, g k) + f i := by
  have hmem : i ∈ range n := mem_range.mpr hi
  have hrest : ∑ k ∈ (range n).erase i, f k = ∑ k ∈ (range n).erase i, g k :=
    sum_congr rfl fun k hk => h k (ne_of_mem_erase hk)
  rw [← add_sum_erase _ f hmem, ← add_sum_erase _ g hmem, hrest]
  abel

theorem mem_sum_bag {f : Nat → Option Nat} {n p : Nat} :
    p ∈ ∑ k ∈ range n, bag (f k) ↔ ∃ k < n, f k = some p := by
  simp [Multiset.mem_sum]

/-- A page that occurs once in a sum of bags comes from one index. -/
theorem index_unique_of_nodup {f : Nat → Option Nat} {n i j p : Nat}
    (hnd : (∑ k ∈ range n, bag (f k)).Nodup) (hi : i < n) (hj : j < n)
    (hfi : f i = some p) (hfj : f j = some p) : i = j := by
  by_contra hne
  rw [← add_sum_erase _ _ (mem_range.mpr hi), hfi, bag_some, Multiset.singleton_add,
    Multiset.nodup_cons] at hnd
  refine hnd.1 (Multiset.mem_sum.mpr ⟨j, ?_, ?_⟩)
  · exact mem_erase.mpr ⟨Ne.symm hne, mem_range.mpr hj⟩
  · rw [hfj, bag_some, Multiset.mem_singleton]

/-! ## Tables -/

/-- A three-level table.  `root = 0` stands for "no table"; `width` is the
number of root slots the table owns, the others being borrowed. -/
@[ext] structure Radix where
  root : Nat
  width : Nat
  mid : Nat → Option Nat
  low : Nat → Option Nat
  leaf : Nat → Nat

namespace Radix

/-- The table with a root and nothing below it. -/
def bare (root width : Nat) : Radix := ⟨root, width, fun _ => none, fun _ => none, fun _ => 0⟩

def setMid (t : Radix) (i : Nat) (o : Option Nat) : Radix :=
  { t with mid := Function.update t.mid i o }

def setLow (t : Radix) (j : Nat) (o : Option Nat) : Radix :=
  { t with low := Function.update t.low j o }

def setLeaf (t : Radix) (v e : Nat) : Radix :=
  { t with leaf := Function.update t.leaf v e }

/-- The page of the root, if there is one. -/
def rootPage (t : Radix) : Option Nat := if t.root = 0 then none else some t.root

/-- The pages a table occupies. -/
def frames (t : Radix) : Multiset Nat :=
  bag t.rootPage + ∑ i ∈ range t.width, bag (t.mid i) + ∑ j ∈ range (512 * t.width), bag (t.low j)

/-- Every node hangs under a node. -/
structure WF (t : Radix) : Prop where
  mid_lt : ∀ {i p}, t.mid i = some p → i < t.width
  root_ne : ∀ {i p}, t.mid i = some p → t.root ≠ 0
  low_parent : ∀ {j p}, t.low j = some p → ∃ q, t.mid (j / 512) = some q
  leaf_parent : ∀ {v}, t.leaf v ≠ 0 → ∃ p, t.low (v / 512) = some p

/-- No node is empty. -/
structure Tight (t : Radix) : Prop where
  mid_used : ∀ {i p}, t.mid i = some p → ∃ j < 512, ∃ q, t.low (512 * i + j) = some q
  low_used : ∀ {j p}, t.low j = some p → ∃ k < 512, t.leaf (512 * j + k) ≠ 0

/-- Every node of `t` is a node of `u`, on the same page. -/
structure Le (t u : Radix) : Prop where
  root : t.root = u.root
  width : t.width = u.width
  mid : ∀ {i p}, t.mid i = some p → u.mid i = some p
  low : ∀ {j p}, t.low j = some p → u.low j = some p

/-- `u` has the leaves of `t` and, beyond its nodes, only nodes on the path to
leaf slot `v`: what an insertion at `v` has done before it writes the leaf. -/
structure GrowsAt (v : Nat) (t u : Radix) : Prop where
  le : Le t u
  leaf : u.leaf = t.leaf
  mid_new : ∀ {i p}, u.mid i = some p → t.mid i = some p ∨ i = v / 512 / 512
  low_new : ∀ {j p}, u.low j = some p → t.low j = some p ∨ j = v / 512

variable {t u w : Radix}

theorem Le.refl (t : Radix) : Le t t := ⟨rfl, rfl, id, id⟩

theorem Le.trans (h : Le t u) (h' : Le u w) : Le t w :=
  ⟨h.root.trans h'.root, h.width.trans h'.width, fun hm => h'.mid (h.mid hm),
    fun hl => h'.low (h.low hl)⟩

theorem GrowsAt.refl (v : Nat) (t : Radix) : GrowsAt v t t :=
  ⟨Le.refl t, rfl, .inl, .inl⟩

theorem WF.low_lt (h : t.WF) (hl : t.low j = some p) : j < 512 * t.width := by
  obtain ⟨q, hq⟩ := h.low_parent hl
  have := h.mid_lt hq
  omega

theorem wf_bare (r w : Nat) : (bare r w).WF :=
  ⟨fun h => by simp [bare] at h, fun h => by simp [bare] at h, fun h => by simp [bare] at h,
    fun h => by simp [bare] at h⟩

theorem tight_bare (r w : Nat) : (bare r w).Tight :=
  ⟨fun h => by simp [bare] at h, fun h => by simp [bare] at h⟩

/-- **Tight tables are determined by their leaves**: two tight tables inside
the same table that hold the same leaves are equal. -/
theorem Le.eq_of_leaf_eq (ht : t.WF) (hu : u.WF) (htt : t.Tight) (hut : u.Tight)
    (h : Le t w) (h' : Le u w) (hleaf : t.leaf = u.leaf) : t = u := by
  -- a node of one table has a leaf under it, hence is a node of the other
  have key : ∀ {a b : Radix}, a.Tight → b.WF → Le a w → Le b w → a.leaf = b.leaf →
      (∀ {j p}, a.low j = some p → b.low j = some p) ∧
      (∀ {i p}, a.mid i = some p → b.mid i = some p) := by
    intro a b ha hb hal hbl hab
    have hlow : ∀ {j p}, a.low j = some p → b.low j = some p := by
      intro j p hj
      obtain ⟨k, hk, hne⟩ := ha.low_used hj
      rw [hab] at hne
      obtain ⟨q, hq⟩ := hb.leaf_parent hne
      rw [show (512 * j + k) / 512 = j by omega] at hq
      have := (hal.low hj).symm.trans (hbl.low hq)
      rw [hq, ← Option.some.inj this]
    refine ⟨hlow, fun {i p} hi => ?_⟩
    obtain ⟨j, hj, q, hq⟩ := ha.mid_used hi
    obtain ⟨r, hr⟩ := hb.low_parent (hlow hq)
    rw [show (512 * i + j) / 512 = i by omega] at hr
    have := (hal.mid hi).symm.trans (hbl.mid hr)
    rw [hr, ← Option.some.inj this]
  have hto := key htt hu h h' hleaf
  have hof := key hut ht h' h hleaf.symm
  have hext : ∀ {f g : Nat → Option Nat}, (∀ {i p}, f i = some p → g i = some p) →
      (∀ {i p}, g i = some p → f i = some p) → f = g := by
    intro f g hfg hgf
    funext i
    cases hf : f i with
    | some p => exact (hfg hf).symm
    | none =>
      cases hg : g i with
      | none => rfl
      | some p =>
        rw [hgf hg] at hf
        cases hf
  exact Radix.ext (h.root.trans h'.root.symm) (h.width.trans h'.width.symm)
    (hext hto.2 hof.2) (hext hto.1 hof.1) hleaf

/-- An aborted insertion, once tight again, is undone. -/
theorem GrowsAt.eq_of_tight (h : GrowsAt v t u) (ht : t.WF) (hw : w.WF) (htt : t.Tight)
    (hwt : w.Tight) (hle : Le w u) (hleaf : w.leaf = u.leaf) : w = t :=
  Le.eq_of_leaf_eq hw ht hwt htt hle h.le (hleaf.trans h.leaf)

/-- A completed insertion is tight. -/
theorem GrowsAt.tight_setLeaf (h : GrowsAt v t u) (htt : t.Tight)
    (hlow : u.low (v / 512) = some p) (he : e ≠ 0) (hfree : t.leaf v = 0) :
    (u.setLeaf v e).Tight := by
  have hleaf : ∀ x, t.leaf x ≠ 0 → (u.setLeaf v e).leaf x ≠ 0 := by
    intro x hx
    have hxv : x ≠ v := fun hxv => hx (hxv ▸ hfree)
    simp only [setLeaf, Function.update_of_ne hxv, h.leaf]
    exact hx
  constructor
  · intro i q hi
    rcases h.mid_new hi with hold | hnew
    · obtain ⟨j, hj, r, hr⟩ := htt.mid_used hold
      exact ⟨j, hj, r, h.le.low hr⟩
    refine ⟨v / 512 % 512, Nat.mod_lt _ (by decide), p, ?_⟩
    rw [hnew, Nat.div_add_mod]
    exact hlow
  · intro j q hj
    rcases h.low_new hj with hold | hnew
    · obtain ⟨k, hk, hne⟩ := htt.low_used hold
      exact ⟨k, hk, hleaf _ hne⟩
    refine ⟨v % 512, Nat.mod_lt _ (by decide), ?_⟩
    rw [hnew, Nat.div_add_mod]
    simpa [setLeaf] using he

/-! ### Erasing a leaf

What is left tight when the leaf at `v` goes, its node if that is empty now, and
the node above. -/

section

variable (h : t.Tight)

include h

/-- Lowest nodes off the path to `v` keep a leaf. -/
theorem Tight.low_other (hl : t.low j = some p) (hj : j ≠ v / 512) :
    ∃ k < 512, (t.setLeaf v e).leaf (512 * j + k) ≠ 0 := by
  obtain ⟨k, hk, hne⟩ := h.low_used hl
  have hkv : 512 * j + k ≠ v := by omega
  exact ⟨k, hk, by simpa [setLeaf, Function.update_of_ne hkv] using hne⟩

theorem Tight.eraseLeaf (hused : ∃ k < 512, (t.setLeaf v 0).leaf (512 * (v / 512) + k) ≠ 0) :
    (t.setLeaf v 0).Tight := by
  refine ⟨h.mid_used, fun {j p} hl => ?_⟩
  by_cases hj : j = v / 512
  · exact hj ▸ hused
  · exact h.low_other hl hj

/-- The table without the leaf at `v` and its node. -/
def dropLow (t : Radix) (v : Nat) : Radix := (t.setLeaf v 0).setLow (v / 512) none

theorem Tight.low_used_dropLow (hl : (t.dropLow v).low j = some p) :
    ∃ k < 512, (t.dropLow v).leaf (512 * j + k) ≠ 0 := by
  by_cases hj : j = v / 512
  · simp [dropLow, setLow, hj] at hl
  · have hl' : t.low j = some p := by
      simpa [dropLow, setLow, setLeaf, Function.update_of_ne hj] using hl
    exact h.low_other hl' hj

/-- Middle nodes off the path to `v` keep a node below. -/
theorem Tight.mid_other (hm : t.mid i = some p) (hi : i ≠ v / 512 / 512) :
    ∃ j < 512, ∃ q, (t.dropLow v).low (512 * i + j) = some q := by
  obtain ⟨j, hj, q, hq⟩ := h.mid_used hm
  have hne : 512 * i + j ≠ v / 512 := by omega
  exact ⟨j, hj, q, by simpa [dropLow, setLow, setLeaf, Function.update_of_ne hne] using hq⟩

theorem Tight.dropLow
    (hused : ∃ j < 512, ∃ q, (t.dropLow v).low (512 * (v / 512 / 512) + j) = some q) :
    (t.dropLow v).Tight := by
  refine ⟨fun {i p} hm => ?_, h.low_used_dropLow⟩
  by_cases hi : i = v / 512 / 512
  · exact hi ▸ hused
  · exact h.mid_other hm hi

theorem Tight.dropMid : ((t.dropLow v).setMid (v / 512 / 512) none).Tight := by
  refine ⟨fun {i p} hm => ?_, h.low_used_dropLow⟩
  by_cases hi : i = v / 512 / 512
  · simp [setMid, hi] at hm
  have hm' : t.mid i = some p := by
    simpa [setMid, Radix.dropLow, setLow, setLeaf, Function.update_of_ne hi] using hm
  exact h.mid_other hm' hi

end

/-! ## Frames -/

theorem frames_bare {r : Nat} (hr : r ≠ 0) (n : Nat) : (bare r n).frames = {r} := by
  simp [frames, bare, rootPage, hr]

theorem frames_bare_zero (n : Nat) : (bare 0 n).frames = 0 := by
  simp [frames, bare, rootPage]

theorem frames_setMid (hi : i < t.width) (o : Option Nat) :
    (t.setMid i o).frames + bag (t.mid i) = t.frames + bag o := by
  have hswap := sum_range_exchange (f := fun k => bag (Function.update t.mid i o k))
    (g := fun k => bag (t.mid k)) hi (fun k hk => by simp [Function.update_of_ne hk])
  simp only [Function.update_self] at hswap
  show bag t.rootPage + (∑ k ∈ range t.width, bag (Function.update t.mid i o k)) +
      (∑ j ∈ range (512 * t.width), bag (t.low j)) + bag (t.mid i) = _
  rw [add_right_comm, add_assoc (bag t.rootPage), hswap, frames]
  abel

theorem frames_setLow (hj : j < 512 * t.width) (o : Option Nat) :
    (t.setLow j o).frames + bag (t.low j) = t.frames + bag o := by
  have hswap := sum_range_exchange (f := fun k => bag (Function.update t.low j o k))
    (g := fun k => bag (t.low k)) hj (fun k hk => by simp [Function.update_of_ne hk])
  simp only [Function.update_self] at hswap
  show bag t.rootPage + (∑ i ∈ range t.width, bag (t.mid i)) +
      (∑ k ∈ range (512 * t.width), bag (Function.update t.low j o k)) + bag (t.low j) = _
  rw [add_assoc, hswap, frames]
  abel

/-- The pages under root slot `i`. -/
def branch (t : Radix) (i : Nat) : Multiset Nat :=
  bag (t.mid i) + ∑ j ∈ range 512, bag (t.low (512 * i + j))

theorem frames_eq_branches (t : Radix) :
    t.frames = bag t.rootPage + ∑ i ∈ range t.width, t.branch i := by
  have hlow : ∀ k n, ∑ j ∈ range (k * n), bag (t.low j) =
      ∑ i ∈ range n, ∑ j ∈ range k, bag (t.low (k * i + j)) := by
    intro k n
    induction n with
    | zero => simp
    | succ n ih => rw [Nat.mul_succ, sum_range_add, sum_range_succ, ih]
  rw [frames, hlow, add_assoc, ← sum_add_distrib]
  rfl

theorem branch_of_mid_none (h : t.WF) (hm : t.mid i = none) : t.branch i = 0 := by
  rw [branch, hm, bag_none, zero_add]
  refine sum_eq_zero fun j hj => ?_
  cases hl : t.low (512 * i + j) with
  | none => rfl
  | some p =>
    obtain ⟨q, hq⟩ := h.low_parent hl
    rw [show (512 * i + j) / 512 = i by have := mem_range.mp hj; omega, hm] at hq
    cases hq

theorem le_setMid_none (t : Radix) (i : Nat) : Le (t.setMid i none) t := by
  refine ⟨rfl, rfl, ?_, id⟩
  intro i' p hp
  by_cases hi : i' = i
  · simp [setMid, hi] at hp
  · simpa [setMid, Function.update_of_ne hi] using hp

theorem le_setLow_none (t : Radix) (j : Nat) : Le (t.setLow j none) t := by
  refine ⟨rfl, rfl, id, ?_⟩
  intro j' p hp
  by_cases hj : j' = j
  · simp [setLow, hj] at hp
  · simpa [setLow, Function.update_of_ne hj] using hp

theorem mem_frames (h : t.WF) : p ∈ t.frames ↔
    (t.root ≠ 0 ∧ p = t.root) ∨ (∃ i, t.mid i = some p) ∨ ∃ j, t.low j = some p := by
  have hroot : t.rootPage = some p ↔ t.root ≠ 0 ∧ p = t.root := by
    unfold rootPage
    split <;> simp_all [eq_comm]
  rw [frames, Multiset.mem_add, Multiset.mem_add, mem_sum_bag, mem_sum_bag, mem_bag,
    hroot, or_assoc]
  refine or_congr Iff.rfl (or_congr ⟨?_, ?_⟩ ⟨?_, ?_⟩)
  · rintro ⟨i, _, hi⟩
    exact ⟨i, hi⟩
  · rintro ⟨i, hi⟩
    exact ⟨i, h.mid_lt hi, hi⟩
  · rintro ⟨j, _, hj⟩
    exact ⟨j, hj⟩
  · rintro ⟨j, hj⟩
    exact ⟨j, h.low_lt hj, hj⟩

theorem Le.mem_frames (hle : Le u t) (hu : u.WF) (ht : t.WF) : p ∈ u.frames → p ∈ t.frames := by
  rw [Radix.mem_frames hu, Radix.mem_frames ht, hle.root]
  rintro (hp | ⟨i, hi⟩ | ⟨j, hj⟩)
  · exact .inl hp
  · exact .inr (.inl ⟨i, hle.mid hi⟩)
  · exact .inr (.inr ⟨j, hle.low hj⟩)

/-- A table without a root has no nodes. -/
theorem frames_of_root_zero (h : t.WF) (hr : t.root = 0) : t.frames = 0 := by
  refine Multiset.eq_zero_of_forall_notMem fun p hp => ?_
  rcases (mem_frames h).mp hp with ⟨hne, _⟩ | ⟨i, hm⟩ | ⟨j, hl⟩
  · exact hne hr
  · exact h.root_ne hm hr
  · obtain ⟨q, hm⟩ := h.low_parent hl
    exact h.root_ne hm hr

/-- The nodes of a table sit on pairwise distinct pages. -/
structure Separate (t : Radix) : Prop where
  mid_ne_root : ∀ {i p}, t.mid i = some p → p ≠ t.root
  low_ne_root : ∀ {j p}, t.low j = some p → p ≠ t.root
  mid_ne_low : ∀ {i j p q}, t.mid i = some p → t.low j = some q → p ≠ q
  mid_inj : ∀ {i i' p}, t.mid i = some p → t.mid i' = some p → i = i'
  low_inj : ∀ {j j' p}, t.low j = some p → t.low j' = some p → j = j'

theorem separate_of_nodup (h : t.WF) (hnd : t.frames.Nodup) : t.Separate := by
  obtain ⟨hrm, hlow, hdl⟩ := Multiset.nodup_add.mp hnd
  obtain ⟨_, hmid, hdm⟩ := Multiset.nodup_add.mp hrm
  have memMid : ∀ {i p}, t.mid i = some p → p ∈ ∑ k ∈ range t.width, bag (t.mid k) :=
    fun hi => mem_sum_bag.mpr ⟨_, h.mid_lt hi, hi⟩
  have memLow : ∀ {j p}, t.low j = some p → p ∈ ∑ k ∈ range (512 * t.width), bag (t.low k) :=
    fun hj => mem_sum_bag.mpr ⟨_, h.low_lt hj, hj⟩
  have memRoot : t.root ≠ 0 → t.root ∈ bag t.rootPage := fun hr => by simp [rootPage, hr]
  have hmr : ∀ {i p}, t.mid i = some p → p ≠ t.root := by
    intro i p hi hp
    exact Multiset.disjoint_left.mp hdm (memRoot (h.root_ne hi)) (hp ▸ memMid hi)
  refine ⟨hmr, ?_, ?_, ?_, ?_⟩
  · intro j p hj hp
    obtain ⟨q, hq⟩ := h.low_parent hj
    refine Multiset.disjoint_left.mp hdl ?_ (memLow hj)
    exact Multiset.mem_add.mpr (.inl (hp ▸ memRoot (h.root_ne hq)))
  · intro i j p q hi hj hpq
    exact Multiset.disjoint_left.mp hdl (Multiset.mem_add.mpr (.inr (memMid hi)))
      (hpq ▸ memLow hj)
  · exact fun hi hi' => index_unique_of_nodup hmid (h.mid_lt hi) (h.mid_lt hi') hi hi'
  · exact fun hj hj' => index_unique_of_nodup hlow (h.low_lt hj) (h.low_lt hj') hj hj'

/-- Inside a larger table, a tight table has the lowest nodes with a leaf below. -/
theorem Tight.low_iff (h : u.Tight) (hu : u.WF) (hle : Le u t) (hl : t.low j = some p) :
    u.low j = some p ↔ ∃ v, v / 512 = j ∧ u.leaf v ≠ 0 := by
  constructor
  · intro hj
    obtain ⟨k, hk, hne⟩ := h.low_used hj
    exact ⟨512 * j + k, by omega, hne⟩
  · rintro ⟨v, rfl, hne⟩
    obtain ⟨q, hq⟩ := hu.leaf_parent hne
    rw [hq, ← hl, hle.low hq]

/-- Likewise the middle nodes. -/
theorem Tight.mid_iff (h : u.Tight) (hu : u.WF) (hle : Le u t) (hm : t.mid i = some p) :
    u.mid i = some p ↔ ∃ v, v / 512 / 512 = i ∧ u.leaf v ≠ 0 := by
  constructor
  · intro hi
    obtain ⟨j, hj, q, hq⟩ := h.mid_used hi
    obtain ⟨k, hk, hne⟩ := h.low_used hq
    exact ⟨512 * (512 * i + j) + k, by omega, hne⟩
  · rintro ⟨v, rfl, hne⟩
    obtain ⟨q, hq⟩ := hu.leaf_parent hne
    obtain ⟨r, hr⟩ := hu.low_parent hq
    rw [hr, ← hm, hle.mid hr]

/-- **The nodes a tight table has lost** are those without a leaf below. -/
theorem Tight.lost_iff (h : u.Tight) (hu : u.WF) (hle : Le u t) (ht : t.WF) (hsep : t.Separate) :
    p ∈ t.frames ∧ p ∉ u.frames ↔
      (∃ j, t.low j = some p ∧ ∀ v, v / 512 = j → u.leaf v = 0) ∨
      ∃ i, t.mid i = some p ∧ ∀ v, v / 512 / 512 = i → u.leaf v = 0 := by
  rw [mem_frames ht, mem_frames hu, hle.root]
  constructor
  · rintro ⟨hroot | ⟨i, hi⟩ | ⟨j, hj⟩, hno⟩
    · exact absurd (.inl hroot) hno
    · refine .inr ⟨i, hi, fun v hv => ?_⟩
      by_contra hne
      exact hno (.inr (.inl ⟨i, (h.mid_iff hu hle hi).mpr ⟨v, hv, hne⟩⟩))
    · refine .inl ⟨j, hj, fun v hv => ?_⟩
      by_contra hne
      exact hno (.inr (.inr ⟨j, (h.low_iff hu hle hj).mpr ⟨v, hv, hne⟩⟩))
  rintro (⟨j, hj, hz⟩ | ⟨i, hi, hz⟩)
  · refine ⟨.inr (.inr ⟨j, hj⟩), ?_⟩
    rintro (⟨-, hp⟩ | ⟨i, hi⟩ | ⟨k, hk⟩)
    · exact hsep.low_ne_root hj hp
    · exact hsep.mid_ne_low (hle.mid hi) hj rfl
    obtain rfl := hsep.low_inj (hle.low hk) hj
    obtain ⟨v, hv, hne⟩ := (h.low_iff hu hle hj).mp hk
    exact hne (hz v hv)
  · refine ⟨.inr (.inl ⟨i, hi⟩), ?_⟩
    rintro (⟨-, hp⟩ | ⟨k, hk⟩ | ⟨j, hj⟩)
    · exact hsep.mid_ne_root hi hp
    · obtain rfl := hsep.mid_inj (hle.mid hk) hi
      obtain ⟨v, hv, hne⟩ := (h.mid_iff hu hle hi).mp hk
      exact hne (hz v hv)
    · exact hsep.mid_ne_low hi (hle.low hj) rfl

end Radix

end MiniCore.Lib
