import Mathlib.Logic.Function.Basic
import Mathlib.Data.List.Nodup
import Mathlib.Data.Set.Defs

/-!
# MiniCore.Lib.Links

Intrusive circular lists: every node carries a `prev` and a `next` link, a list
is a ring of nodes through its head.

The operations are the four pointer assignments such lists are written with.
`Ring head l` says which sequence a head stands for; `Ring.pushBack` and
`Ring.remove` are the two sequence operations, and the `_frame` lemmas say that
they touch no link outside the ring they work on. `Partitioned` is a heap of
many rings; the operations keep it.
-/

namespace MiniCore.Lib

open List Function

/-- The links of all nodes. -/
structure Links (ν : Type) where
  prev : ν → ν
  next : ν → ν

namespace Links

variable {ν : Type}

/-! ## Paths and rings -/

/-- `b` follows `a`. -/
def Linked (h : Links ν) (a b : ν) : Prop := h.next a = b ∧ h.prev b = a

/-- Following the links from `a` meets the nodes of `l` and then `b`. -/
def Path (h : Links ν) : ν → List ν → ν → Prop
  | a, [], b => h.Linked a b
  | a, x :: l, b => h.Linked a x ∧ h.Path x l b

/-- Two heaps agree at a node. -/
def SameAt (h h' : Links ν) (x : ν) : Prop := h'.next x = h.next x ∧ h'.prev x = h.prev x

/-- The ring of `head` holds the nodes of `l`, in this order. -/
structure Ring (h : Links ν) (head : ν) (l : List ν) : Prop where
  nodup : (head :: l).Nodup
  path : h.Path head l head

variable {h h' h'' : Links ν} {a b x head node : ν} {l m : List ν}

theorem SameAt.trans (h1 : h.SameAt h' x) (h2 : h'.SameAt h'' x) : h.SameAt h'' x :=
  ⟨h2.1.trans h1.1, h2.2.trans h1.2⟩

theorem path_append : h.Path a (l ++ x :: m) b ↔ h.Path a l x ∧ h.Path x m b := by
  induction l generalizing a with
  | nil => simp [Path]
  | cons y l ih => simp [Path, ih, and_assoc]

section

variable (hp : h.Path a l b)

include hp

theorem Path.next_eq : h.next a = l.headD b := by
  cases l with
  | nil => exact hp.1
  | cons y l => exact hp.1.1

theorem Path.prev_eq : h.prev b = l.getLastD a := by
  induction l generalizing a with
  | nil => exact hp.2
  | cons y l ih =>
    rw [ih hp.2, getLastD_cons]

theorem Path.next_mem : h.next a ∈ b :: l := by
  rw [hp.next_eq]
  cases l <;> simp

theorem Path.prev_mem : h.prev b ∈ a :: l := by
  induction l generalizing a with
  | nil => simp [hp.2]
  | cons y l ih => exact mem_cons_of_mem a (ih hp.2)

/-- A path is a path of other links that agree on it. -/
theorem Path.congr (hnext : ∀ y ∈ a :: l, h'.next y = h.next y)
    (hprev : ∀ y ∈ b :: l, h'.prev y = h.prev y) : h'.Path a l b := by
  induction l generalizing a with
  | nil =>
    have hn := hnext a (by simp)
    have hb := hprev b (by simp)
    exact ⟨hn.trans hp.1, hb.trans hp.2⟩
  | cons y l ih =>
    have hn := hnext a (by simp)
    have hy := hprev y (by simp)
    refine ⟨⟨hn.trans hp.1.1, hy.trans hp.1.2⟩, ih hp.2 ?_ ?_⟩
    · exact fun z hz => hnext z (mem_cons_of_mem _ hz)
    · grind

end

/-- A ring is a ring of other links that agree on its nodes. -/
theorem Ring.congr (hr : h.Ring head l) (heq : ∀ y ∈ head :: l, h.SameAt h' y) : h'.Ring head l :=
  ⟨hr.nodup, hr.path.congr (fun y hy => (heq y hy).1) (fun y hy => (heq y hy).2)⟩

theorem Ring.next_head (hr : h.Ring head l) : h.next head = l.headD head := hr.path.next_eq

theorem Ring.prev_head (hr : h.Ring head l) : h.prev head = l.getLastD head := hr.path.prev_eq

theorem Path.inverse (hp : h.Path a l b) :
    (∀ y ∈ a :: l, h.prev (h.next y) = y) ∧ ∀ y ∈ l ++ [b], h.next (h.prev y) = y := by
  induction l generalizing a with
  | nil => simp [hp.1, hp.2]
  | cons z l ih =>
    obtain ⟨⟨hnext, hprev⟩, hrest⟩ := hp
    obtain ⟨hn, hv⟩ := ih hrest
    constructor
    · intro y hy
      rcases List.mem_cons.mp hy with rfl | hy
      · rw [hnext, hprev]
      · exact hn y hy
    · intro y hy
      rcases List.mem_cons.mp hy with rfl | hy
      · rw [hprev, hnext]
      · exact hv y hy

/-- On a ring `prev` and `next` undo each other. -/
theorem Ring.inverse (hr : h.Ring head l) (hx : x ∈ head :: l) :
    h.next (h.prev x) = x ∧ h.prev (h.next x) = x := by
  obtain ⟨hn, hv⟩ := hr.path.inverse
  refine ⟨hv x ?_, hn x hx⟩
  rcases List.mem_cons.mp hx with rfl | hx
  · simp
  · exact mem_append_left _ hx

/-! ## Many rings -/

/-- A heap of nodes falls into disjoint rings; `seq` gives each head its sequence. -/
structure Partitioned (h : Links ν) (seq : ν → Option (List ν)) : Prop where
  ring : ∀ {head l}, seq head = some l → h.Ring head l
  disjoint : ∀ {a b k l x}, seq a = some k → seq b = some l → x ∈ a :: k → x ∈ b :: l → a = b

/-- The nodes of the heap. -/
def nodesOf (seq : ν → Option (List ν)) : Set ν := {x | ∃ head l, seq head = some l ∧ x ∈ head :: l}

/-- A node on no ring, or on a ring of its own. -/
def Detached (seq : ν → Option (List ν)) (node : ν) : Prop :=
  ∀ a k, seq a = some k → node ∈ a :: k → a = node ∧ k = []

namespace Partitioned

variable {seq seq' : ν → Option (List ν)}

variable (hp : h.Partitioned seq)

include hp

theorem inverse (hx : x ∈ nodesOf seq) : h.next (h.prev x) = x ∧ h.prev (h.next x) = x := by
  obtain ⟨head, l, hl, hx⟩ := hx
  exact (hp.ring hl).inverse hx

/-- **Rule for operations**: the rings inside `S` are rebuilt from the nodes of
`S`, everything outside stays. -/
theorem change (S : List ν) (hold : ∀ a k, seq a = some k → a ∉ S → ∀ x ∈ a :: k, x ∉ S)
    (hout : ∀ a, a ∉ S → seq' a = seq a)
    (hring : ∀ a ∈ S, ∀ k, seq' a = some k → h'.Ring a k ∧ ∀ x ∈ a :: k, x ∈ S)
    (hdisj : ∀ a ∈ S, ∀ b ∈ S, ∀ k l x, seq' a = some k → seq' b = some l → x ∈ a :: k →
      x ∈ b :: l → a = b) (hframe : ∀ x, x ∉ S → h.SameAt h' x) : h'.Partitioned seq' := by
  have hkeep : ∀ {a k}, seq' a = some k → a ∉ S → seq a = some k ∧ ∀ x ∈ a :: k, x ∉ S := by
    intro a k hk ha
    rw [hout a ha] at hk
    exact ⟨hk, hold a k hk ha⟩
  constructor
  · intro a k hk
    by_cases ha : a ∈ S
    · exact (hring a ha k hk).1
    · obtain ⟨hk', hin⟩ := hkeep hk ha
      exact (hp.ring hk').congr fun x hx => hframe x (hin x hx)
  intro a b k l x hk hl hxa hxb
  by_cases ha : a ∈ S
  · by_cases hb : b ∈ S
    · exact hdisj a ha b hb k l x hk hl hxa hxb
    · exact absurd ((hring a ha k hk).2 x hxa) ((hkeep hl hb).2 x hxb)
  · by_cases hb : b ∈ S
    · exact absurd ((hring b hb l hl).2 x hxb) ((hkeep hk ha).2 x hxa)
    · exact hp.disjoint (hkeep hk ha).1 (hkeep hl hb).1 hxa hxb

theorem detached (hn : seq node = some []) : Detached seq node := by
  intro a k hk hin
  obtain rfl := hp.disjoint hk hn hin mem_cons_self
  exact ⟨rfl, Option.some.inj (hk.symm.trans hn)⟩

/-- Only the head of a ring is a head. -/
theorem seq_of_mem (hl : seq head = some l) (hx : x ∈ l) : seq x = none := by
  cases hk : seq x with
  | none => rfl
  | some k =>
    have heq : x = head := hp.disjoint hk hl mem_cons_self (mem_cons_of_mem _ hx)
    exact absurd hx (heq ▸ (List.nodup_cons.mp (hp.ring hl).nodup).1)

end Partitioned

/-! ## The operations -/

variable [DecidableEq ν]

@[simps next]
def setPrev (h : Links ν) (n v : ν) : Links ν := { h with prev := update h.prev n v }

@[simps prev]
def setNext (h : Links ν) (n v : ν) : Links ν := { h with next := update h.next n v }

/-- Make a node a ring of its own. -/
def init (h : Links ν) (n : ν) : Links ν := (h.setPrev n n).setNext n n

def isEmpty (h : Links ν) (head : ν) : Bool := h.next head = head

def insertBefore (h : Links ν) (position node : ν) : Links ν :=
  let h := h.setPrev node (h.prev position)
  let h := h.setNext node position
  let h := h.setNext (h.prev position) node
  h.setPrev position node

/-- Insert at the end of the ring of `head`. -/
def pushBack (h : Links ν) (head node : ν) : Links ν := h.insertBefore head node

def remove (h : Links ν) (node : ν) : Links ν :=
  let h := h.setNext (h.prev node) (h.next node)
  let h := h.setPrev (h.next node) (h.prev node)
  h.init node

section

variable (h : Links ν) (n v x : ν)

@[simp] theorem setPrev_prev : (h.setPrev n v).prev x = if x = n then v else h.prev x := by
  simp [setPrev, update_apply]

@[simp] theorem setNext_next : (h.setNext n v).next x = if x = n then v else h.next x := by
  simp [setNext, update_apply]

end

theorem Ring.isEmpty_iff (hr : h.Ring head l) : h.isEmpty head = true ↔ l = [] := by
  have hnd := hr.nodup
  rw [isEmpty, decide_eq_true_eq, hr.next_head]
  cases l with
  | nil => simp
  | cons y l =>
    simp only [nodup_cons, mem_cons, not_or] at hnd
    simp [Ne.symm hnd.1.1]

theorem init_frame (hx : x ≠ node) : h.SameAt (h.init node) x := by
  simp [SameAt, init, hx]

/-! ## Appending -/

/-- **`pushBack` appends.** -/
theorem Ring.pushBack (hr : h.Ring head l) (hnode : node ∉ head :: l) :
    (h.pushBack head node).Ring head (l ++ [node]) := by
  have hnd := hr.nodup
  have hprev := hr.prev_head
  have hne : head ≠ node := by grind
  refine ⟨by grind, ?_⟩
  rw [path_append]
  rcases eq_nil_or_concat l with rfl | ⟨m, z, rfl⟩
  · -- the empty ring: the head is its own last node
    have hp : h.prev head = head := by simpa using hprev
    simp [Path, Linked, Links.pushBack, insertBefore, hp, hne, Ne.symm hne]
  rw [concat_eq_append] at *
  have hz : h.prev head = z := by simpa using hprev
  have hpath := hr.path
  rw [path_append] at hpath ⊢
  have hkeep : (h.pushBack head node).Path head m z := by
    apply hpath.1.congr
    · intro y hy
      have h1 : y ≠ node := by grind
      have h2 : y ≠ z := by grind
      simp [Links.pushBack, insertBefore, hz, hne, h1, h2]
    · intro y hy
      have h1 : y ≠ node := by grind
      have h2 : y ≠ head := by grind
      simp [Links.pushBack, insertBefore, h1, h2]
  have hzn : z ≠ node := by grind
  refine ⟨⟨hkeep, ?_⟩, ?_⟩
  · simp [Path, Linked, Links.pushBack, insertBefore, hz, hne, Ne.symm hne]
  · simp [Path, Linked, Links.pushBack, insertBefore, hz, hne, Ne.symm hzn]

/-- Appending to a ring leaves the links of all nodes outside it alone. -/
theorem Ring.pushBack_frame (hr : h.Ring head l) (hx : x ∉ head :: l) (hxn : x ≠ node) :
    h.SameAt (h.pushBack head node) x := by
  have hlast : x ≠ h.prev head := fun heq => hx (heq ▸ hr.path.prev_mem)
  have hhead : x ≠ head := by grind
  by_cases hh : head = node
  · subst hh
    simp [SameAt, Links.pushBack, insertBefore, hhead, hlast]
  · simp [SameAt, Links.pushBack, insertBefore, hxn, hhead, hlast, hh]

/-! ## Removing -/

theorem remove_next : (h.remove node).next x =
      if x = node then node else if x = h.prev node then h.next node else h.next x := by
  simp only [Links.remove, init, setPrev_next, setNext_next]

theorem remove_prev (hp : h.prev node ≠ node) : (h.remove node).prev x =
      if x = node then node else if x = h.next node then h.prev node else h.prev x := by
  simp [Links.remove, init, Ne.symm hp]

/-- **`remove` deletes exactly that node.** -/
theorem Ring.remove (hr : h.Ring head (l ++ node :: m)) : (h.remove node).Ring head (l ++ m) := by
  have hnd := hr.nodup
  obtain ⟨hl, hm⟩ := path_append.mp hr.path
  have hprev := hl.prev_eq
  have hnext := hm.next_eq
  refine ⟨by grind, ?_⟩
  -- the two nodes that become neighbours are the last before and the first behind
  rcases eq_nil_or_concat l with rfl | ⟨l', p, rfl⟩
  · have hp : h.prev node = head := by simpa using hprev
    have hpn : h.prev node ≠ node := by grind
    cases m with
    | nil =>
      have hn : h.next node = head := by simpa using hnext
      have hne : head ≠ node := by grind
      simp [Path, Linked, remove_next, remove_prev hpn, hp, hn, hne]
    | cons n m' =>
      have hn : h.next node = n := by simpa using hnext
      refine ⟨⟨?_, ?_⟩, hm.2.congr ?_ ?_⟩ <;> grind [remove_next, remove_prev hpn]
  rw [concat_eq_append] at *
  have hp : h.prev node = p := by simpa using hprev
  have hpn : h.prev node ≠ node := by grind
  have hlp := (path_append.mp hl).1
  cases m with
  | nil =>
    have hn : h.next node = head := by simpa using hnext
    rw [append_nil, path_append]
    refine ⟨hlp.congr ?_ ?_, ?_, ?_⟩ <;> grind [remove_next, remove_prev hpn]
  | cons n m' =>
    have hn : h.next node = n := by simpa using hnext
    rw [append_assoc, singleton_append, path_append]
    refine ⟨hlp.congr ?_ ?_, ⟨?_, ?_⟩, hm.2.congr ?_ ?_⟩ <;>
      grind [remove_next, remove_prev hpn]

/-- Removing a node of a ring leaves the links of all nodes outside it alone. -/
theorem Ring.remove_frame (hr : h.Ring head (l ++ node :: m)) (hx : x ∉ head :: (l ++ node :: m)) :
    h.SameAt (h.remove node) x := by
  obtain ⟨hl, hm⟩ := path_append.mp hr.path
  have hprev := hl.prev_mem
  have hnext := hm.next_mem
  have hpn : h.prev node ≠ node := by grind [hr.nodup]
  constructor <;> grind [remove_next, remove_prev hpn]

theorem init_ring : (h.init node).Ring node [] := ⟨by simp, by simp [Path, Linked, init]⟩

/-- A node on a ring of its own can be removed: nothing changes. -/
theorem Ring.remove_self (hr : h.Ring node []) : h.remove node = h := by
  have hnext : h.next node = node := hr.path.1
  have hprev : h.prev node = node := hr.path.2
  have hn : update h.next node node = h.next := update_eq_self_iff.mpr hnext.symm
  have hv : update h.prev node node = h.prev := update_eq_self_iff.mpr hprev.symm
  simp [Links.remove, init, setNext, setPrev, hnext, hprev, hn, hv]

/-- A removed node is on a ring of its own. -/
theorem remove_ring (hp : h.prev node ≠ node) : (h.remove node).Ring node [] :=
  ⟨by simp, by simp [Path, Linked, remove_next, remove_prev hp]⟩

/-! ## The operations on many rings -/

variable {seq : ν → Option (List ν)}

/-- `node` goes behind the sequence `l` of `head`, and is no head any more. -/
def appended (seq : ν → Option (List ν)) (head node : ν) (l : List ν) : ν → Option (List ν) :=
  update (update seq node none) head (some (l ++ [node]))

/-- `head` has the sequence `l`, and `alone` is left a ring of its own. -/
def handOver (seq : ν → Option (List ν)) (head alone : ν) (l : List ν) : ν → Option (List ν) :=
  update (update seq head (some l)) alone (some [])

theorem appended_apply : appended seq head node l x =
    if x = head then some (l ++ [node]) else if x = node then none else seq x := by
  simp [appended, update_apply]

theorem handOver_apply : handOver seq head a l x =
    if x = a then some [] else if x = head then some l else seq x := by
  simp [handOver, update_apply]

namespace Partitioned

variable (hp : h.Partitioned seq)

include hp

/-- **A detached node is appended.** -/
theorem pushBack (hl : seq head = some l) (hn : Detached seq node)
    (hne : node ≠ head) : (h.pushBack head node).Partitioned (appended seq head node l) := by
  have hnode : node ∉ head :: l := fun hin => hne (hn head l hl hin).1.symm
  have hseq : ∀ {a k}, a ∈ head :: (l ++ [node]) → appended seq head node l a = some k →
      a = head ∧ k = l ++ [node] := by
    intro a k ha hk
    have hmem := fun ha => hp.seq_of_mem (x := a) hl ha
    grind [appended_apply]
  refine hp.change (head :: (l ++ [node])) ?_ ?_ ?_ ?_ ?_
  · intro a k hk ha x hx hin
    have h1 := fun hx' => hp.disjoint (x := x) hl hk hx' hx
    have h2 := hn a k hk
    grind
  · intro a ha
    grind [appended_apply]
  · intro a ha k hk
    obtain ⟨rfl, rfl⟩ := hseq ha hk
    exact ⟨(hp.ring hl).pushBack hnode, fun x hx => hx⟩
  · intro a ha b hb k m x hk hm _ _
    rw [(hseq ha hk).1, (hseq hb hm).1]
  · intro x hx
    exact (hp.ring hl).pushBack_frame (by grind) (by grind)

/-- **A node is deleted** and becomes a ring of its own. -/
theorem remove (hl : seq head = some (l ++ node :: m)) :
    (h.remove node).Partitioned (handOver seq head node (l ++ m)) := by
  have hr := hp.ring hl
  have hnd := hr.nodup
  have hprev : h.prev node ≠ node := by
    have hmem := (path_append.mp hr.path).1.prev_mem
    grind
  have hseq : ∀ {a k}, a ∈ head :: (l ++ node :: m) → handOver seq head node (l ++ m) a = some k →
      a = head ∧ k = l ++ m ∨ a = node ∧ k = [] := by
    intro a k ha hk
    have hmem := fun ha => hp.seq_of_mem (x := a) hl ha
    grind [handOver_apply]
  refine hp.change (head :: (l ++ node :: m)) ?_ ?_ ?_ ?_ ?_
  · intro a k hk ha x hx hin
    exact ha (hp.disjoint hl hk hin hx ▸ mem_cons_self)
  · intro a ha
    grind [handOver_apply]
  · intro a ha k hk
    rcases hseq ha hk with ⟨rfl, rfl⟩ | ⟨rfl, rfl⟩
    · exact ⟨hr.remove, by grind⟩
    · exact ⟨remove_ring hprev, by grind⟩
  · intro a ha b hb k m' x hk hm hxa hxb
    have hka := hseq ha hk
    have hkb := hseq hb hm
    grind
  · exact fun x hx => hr.remove_frame hx

/-- A node that is no entry is made a ring; what it was the head of is given up. -/
theorem init (hn : ∀ a k, seq a = some k → node ∉ k) :
    (h.init node).Partitioned (update seq node (some [])) := by
  refine hp.change [node] ?_ ?_ ?_ ?_ ?_
  · intro a k hk ha x hx hin
    have hnk := hn a k hk
    grind
  · exact fun a ha => update_of_ne (ne_of_not_mem_cons ha) _ _
  · intro a ha k hk
    obtain rfl := List.mem_singleton.mp ha
    rw [update_self] at hk
    cases hk
    exact ⟨init_ring, by simp⟩
  · intro a ha b hb _ _ _ _ _ _ _
    rw [List.mem_singleton.mp ha, List.mem_singleton.mp hb]
  · exact fun x hx => init_frame (ne_of_not_mem_cons hx)

end Partitioned

end Links

end MiniCore.Lib
