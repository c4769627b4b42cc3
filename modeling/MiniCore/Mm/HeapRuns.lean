import MiniCore.Mm.HeapLinks

/-!
# MiniCore.Mm.HeapRuns

Runs of the kernel heap: any sequence of `kmalloc`, `kfree` of a live pointer
and stores to live blocks, with `page_alloc` failing wherever the schedule says.

`Backed` carries the list-level heap of `MiniCore.Mm.Heap` along the run;
`kernel_heap_sound` reads the guarantees of the heap off it.
-/

namespace MiniCore

open Lib List Multiset

variable {P : PagePool} {s s' : HeapRun} {m : Machine}

/-- The size of the block `kmalloc(n)` hands out; 0 if no class is large enough. -/
def blockSize (n : Nat) : Nat :=
  match classSizes.findIdx? (max n 1 ≤ ·) with
  | none => 0
  | some c => classSize c

/-- The heap, and the blocks its callers hold: address and requested size. -/
structure HeapRun where
  heap : LinkedHeap
  live : List (Nat × Nat)

namespace HeapRun

def pointers (s : HeapRun) : List Nat := s.live.map Prod.fst

end HeapRun

inductive HeapAction where
  | kmalloc (size : Nat)
  | kfree (pointer : Nat)
  | store (pointer offset : Nat) (byte : UInt8)

/-- One call, or one store of a caller to a block it holds. -/
def heapStep (s : HeapRun) : HeapAction → Option HeapRun
  | .kmalloc size =>
    let r := s.heap.kmalloc size
    some ⟨r.2, if r.1 = 0 then s.live else (r.1, size) :: s.live⟩
  | .kfree pointer =>
    if pointer ∈ s.pointers then
      some ⟨s.heap.kfree pointer, s.live.eraseP (·.1 == pointer)⟩
    else none
  | .store pointer offset byte =>
    if ∃ e ∈ s.live, e.1 = pointer ∧ offset < blockSize e.2 then
      some { s with heap := { s.heap with
        mem := fill s.heap.mem (pointer + offset) 1 fun _ => byte } }
    else none

/-! ## Size classes -/

theorem blockSize_eq {n c : Nat} (h : classSizes.findIdx? (max n 1 ≤ ·) = some c) :
    blockSize n = classSize c := by
  rw [blockSize, h]

/-- The class that is found is large enough. -/
theorem le_classSize {n c : Nat} (h : classSizes.findIdx? (max n 1 ≤ ·) = some c) :
    max n 1 ≤ classSize c := by
  obtain ⟨hlt, hle, -⟩ := List.findIdx?_eq_some_iff_getElem.mp h
  rw [classSize, getD_eq_getElem?_getD, getElem?_eq_getElem hlt, Option.getD_some]
  exact of_decide_eq_true hle

/-- Only a request beyond the largest class finds none. -/
theorem no_class_iff {n : Nat} : classSizes.findIdx? (max n 1 ≤ ·) = none ↔ 2048 < n := by
  rw [findIdx?_eq_none_iff]
  simp only [classSizes, List.mem_cons, not_mem_nil, or_false, forall_eq_or_imp, forall_eq,
    decide_eq_false_iff_not]
  omega

/-! ## The invariant -/

/-- The list-level heap `m` along the run: its live objects are the callers'
blocks, each in a slab of the class of its size. -/
structure Backed (P : PagePool) (s : HeapRun) (m : Machine) : Prop where
  linked : Linked s.heap m
  stocked : Stocked P m 0
  live : liveBag m.slabs = (s.pointers : Multiset Nat)
  served : ∀ e ∈ s.live, ∃ c, classSizes.findIdx? (max e.2 1 ≤ ·) = some c ∧
    ∃ t ∈ m.slabs, t.Serves c e.1

namespace Backed

variable (h : Backed P s m)

include h

theorem mem_live {a : Nat} : a ∈ liveBag m.slabs ↔ a ∈ s.pointers := by
  rw [h.live, mem_coe]

/-- No block is held twice. -/
theorem pointers_nodup : s.pointers.Nodup := by
  have hnd := h.stocked.nodup_live
  rwa [h.live, coe_nodup] at hnd

theorem zero_not_free : 0 ∉ s.heap.freeList := by
  rw [← h.linked.freeList]
  exact fun hmem => (P.isPage 0 (h.stocked.mem_freeList.mp hmem).1).ne_zero rfl

/-- **`kmalloc`** adds one live object, in a slab of its class, or nothing. -/
theorem kmalloc {size : Nat} (hs : heapStep s (.kmalloc size) = some s') :
    ∃ m', Backed P s' m' := by
  cases hs
  cases hidx : classSizes.findIdx? (max size 1 ≤ ·) with
  | none =>
    have hk : s.heap.kmalloc size = (0, s.heap) := by simp only [LinkedHeap.kmalloc, hidx]
    rw [hk]
    exact ⟨m, h.linked, h.stocked, h.live, h.served⟩
  | some c =>
    rcases h.linked.kmalloc h.stocked hidx with ⟨-, h0, hk⟩ | ⟨hne, m', ha⟩
    · rw [hk, LinkedHeap.pageAlloc_fail h.zero_not_free h0]
      exact ⟨m, ⟨h.linked.freeList, h.linked.slabs⟩, h.stocked, h.live, h.served⟩
    rw [if_neg hne]
    refine ⟨m', ha.linked, ha.stocked, ?_, ?_⟩
    · rw [ha.live, h.live]
      rfl
    intro e he
    rcases List.mem_cons.mp he with rfl | he
    · exact ⟨c, hidx, ha.served⟩
    · obtain ⟨d, hd, hserved⟩ := h.served e he
      exact ⟨d, hd, ha.keeps d e.1 hserved⟩

/-- A freed pointer takes its own entry with it. -/
theorem mem_eraseP {p : Nat} {e : Nat × Nat} :
    e ∈ s.live.eraseP (·.1 == p) ↔ e ∈ s.live ∧ e.1 ≠ p := by
  have hnd := h.pointers_nodup
  rw [HeapRun.pointers] at hnd
  have hpair : s.live.Pairwise fun a b => a.1 ≠ b.1 := List.pairwise_map.mp hnd
  clear hnd h
  generalize s.live = live at hpair ⊢
  induction live with
  | nil => simp
  | cons x l ih =>
    obtain ⟨hx, hl⟩ := List.pairwise_cons.mp hpair
    by_cases hp : x.1 = p
    · rw [eraseP_cons_of_pos (by simpa using hp)]
      constructor
      · intro he
        exact ⟨List.mem_cons_of_mem _ he, fun heq => hx e he (hp.trans heq.symm)⟩
      rintro ⟨he, hne⟩
      rcases List.mem_cons.mp he with rfl | he
      · exact absurd hp hne
      · exact he
    have htail := ih hl
    rw [eraseP_cons_of_neg (by simpa using hp)]
    simp only [List.mem_cons, htail]
    constructor
    · rintro (rfl | ⟨he, hne⟩)
      · exact ⟨.inl rfl, hp⟩
      · exact ⟨.inr he, hne⟩
    · rintro ⟨rfl | he, hne⟩
      · exact .inl rfl
      · exact .inr ⟨he, hne⟩

/-- **`kfree`** leaves the other blocks in their slabs. -/
theorem kfree {p : Nat} (hs : heapStep s (.kfree p) = some s') :
    Backed P s' (MiniCore.kfree p m) := by
  simp only [heapStep, Option.ite_none_right_eq_some, Option.some.injEq] at hs
  obtain ⟨hp, rfl⟩ := hs
  have hlive := h.mem_live.mpr hp
  obtain ⟨hst, hbag, -⟩ := kfree_spec h.stocked (Multiset.cons_erase hlive).symm
  have hnew : liveBag (MiniCore.kfree p m).slabs =
      ((s.live.eraseP (·.1 == p)).map Prod.fst : List Nat) := by
    rw [hbag, h.live, coe_erase, HeapRun.pointers, erase_eq_eraseP', eraseP_map]
    rfl
  refine ⟨h.linked.kfree h.stocked hlive, hst, hnew, ?_⟩
  intro e he
  obtain ⟨hmem, hne⟩ := h.mem_eraseP.mp he
  obtain ⟨c, hc, t, ht, htc, hto⟩ := h.served e hmem
  -- the slab that holds the block now is the slab of its page before
  have hstill : e.1 ∈ liveBag (MiniCore.kfree p m).slabs := by
    rw [hnew]
    exact Multiset.mem_coe.mpr (List.mem_map_of_mem he)
  obtain ⟨u, hu, hul⟩ := mem_liveBag.mp hstill
  have hup := (hst.heap u hu).pageDown_live (hst.isPage_of_slab hu) hul
  have huo := (hst.heap u hu).mem_objects hul
  have hslabs : (MiniCore.kfree p m).slabs = (putObject p m.slabs).1 := by
    unfold MiniCore.kfree
    have hne0 : p ≠ 0 := by
      rintro rfl
      obtain ⟨v, hv, hvl⟩ := mem_liveBag.mp hlive
      have := mem_slabObjects (h.stocked.heap v hv).class_lt ((h.stocked.heap v hv).mem_objects hvl)
      omega
    rw [if_neg hne0, pageFree]
    split <;> rfl
  rw [hslabs] at hu
  obtain ⟨v, hv, hvp, hvc⟩ := putObject_origin hu
  have htp := pageDown_object (h.stocked.heap t ht).class_lt (h.stocked.isPage_of_slab ht) hto
  obtain rfl := h.stocked.slab_unique hv ht (hvp.trans (hup.symm.trans htp))
  rw [← hslabs] at hu
  exact ⟨c, hc, u, hu, hvc.symm.trans htc, huo⟩

/-- A store to a live block does not meet a free list. -/
theorem store {p off : Nat} {byte : UInt8}
    (hs : heapStep s (.store p off byte) = some s') : Backed P s' m := by
  simp only [heapStep, Option.ite_none_right_eq_some, Option.some.injEq] at hs
  obtain ⟨⟨e, he, rfl, hoff⟩, rfl⟩ := hs
  obtain ⟨c, hc, t, ht, htc, hto⟩ := h.served e he
  rw [blockSize_eq hc, ← htc] at hoff
  have hlive := h.mem_live.mpr (List.mem_map_of_mem he)
  have hin : e.1 + off + 1 ≤ e.1 + classSize t.classIndex := by omega
  have hwrite := h.stocked.write_live (f := fun _ => byte) h.linked.slabs hlive ht hto
    (Nat.le_add_right e.1 off) hin
  exact ⟨⟨h.linked.freeList, hwrite⟩, h.stocked, h.live, h.served⟩

end Backed

/-! ## What the heap guarantees -/

/-- The block of `size` bytes at `a` lies in a slab of that size, behind the
header, and is aligned to it. -/
def InSlab (slabs : List SlabHead) (a size : Nat) : Prop :=
  ∃ head ∈ slabs, classSize head.classIndex = size ∧ head.page + slabHeader ≤ a ∧
    a + size ≤ head.page + pageSize ∧ a % size = 0

/-- Two blocks, given by address and requested size, do not overlap. -/
def BlocksApart (e e' : Nat × Nat) : Prop :=
  e.1 + blockSize e.2 ≤ e'.1 ∨ e'.1 + blockSize e'.2 ≤ e.1

namespace HeapRun

/-- The state of the heap between two calls, if `free₀` were the free pages at
the start. -/
structure Sound (free₀ : List Nat) (s : HeapRun) : Prop where
  /-- A live block is as large as was asked for and lies inside its slab. -/
  block : ∀ e ∈ s.live, max e.2 1 ≤ blockSize e.2 ∧ InSlab s.heap.slabs e.1 (blockSize e.2)
  apart : s.live.Pairwise BlocksApart
  /-- The free list of a slab, followed through memory: distinct objects of the
  slab that nobody holds, as many as the used ones leave. -/
  slab : ∀ head ∈ s.heap.slabs, ∃ free, Chain (nextFree s.heap.mem) 0 head.free free ∧
    free.Nodup ∧
      head.used + free.length = (slabObjects head.page (classSize head.classIndex)).length ∧
    ∀ a ∈ free, a ∈ slabObjects head.page (classSize head.classIndex) ∧ a ∉ s.pointers
  /-- The free pages are the ones from the start that have no live block. -/
  pages : ∀ p, p ∈ s.heap.freeList ↔ p ∈ free₀ ∧ ∀ a ∈ s.pointers, pageDown a ≠ p
  slabPages : ∀ p, p ∈ s.heap.slabs.map SlabHead.page ↔ ∃ a ∈ s.pointers, pageDown a = p
  /-- With no block left the free pages are those of the start. -/
  restored : s.live = [] → s.heap.freeList.Perm free₀ ∧ s.heap.slabs = []

/-- What `kmalloc(n)` does in the state. -/
structure Kmalloc (s : HeapRun) (n : Nat) : Prop where
  zeroed : (s.heap.kmalloc n).1 ≠ 0 →
    ∀ i < blockSize n, (s.heap.kmalloc n).2.mem ((s.heap.kmalloc n).1 + i) = 0
  block : (s.heap.kmalloc n).1 ≠ 0 → max n 1 ≤ blockSize n ∧
    InSlab (s.heap.kmalloc n).2.slabs (s.heap.kmalloc n).1 (blockSize n) ∧
    ∀ e ∈ s.live, BlocksApart ((s.heap.kmalloc n).1, n) e
  /-- It fails for want of a class, or of a page where no slab has room. -/
  fails : (s.heap.kmalloc n).1 = 0 → 2048 < n ∨ s.heap.pageAlloc.1 = 0 ∧
    ∀ head ∈ s.heap.slabs, classSize head.classIndex = blockSize n → head.free = 0
  unchanged : (s.heap.kmalloc n).1 = 0 →
    ∃ outcomes, (s.heap.kmalloc n).2 = { s.heap with outcomes := outcomes }

/-- `kfree(a)` gives the page of the block back exactly when no other live
block is in it. -/
def Kfree (s : HeapRun) (a : Nat) : Prop :=
  ∀ p, p ∈ (s.heap.kfree a).freeList ↔
    p ∈ s.heap.freeList ∨ p = pageDown a ∧ ∀ b ∈ s.pointers, pageDown b = p → b = a

end HeapRun

theorem forall₂_mem_left {α β : Type} {r : α → β → Prop} {l : List α} {l' : List β}
    (h : Forall₂ r l l') {x : α} (hx : x ∈ l) : ∃ y ∈ l', r x y := by
  induction h with
  | nil => cases hx
  | cons hr _ ih =>
    rcases List.mem_cons.mp hx with rfl | hx
    · exact ⟨_, List.mem_cons_self, hr⟩
    · obtain ⟨y, hy, hr⟩ := ih hx
      exact ⟨y, List.mem_cons_of_mem _ hy, hr⟩

/-- The headers in memory name the pages of the slabs. -/
theorem threads_pages {mem : Memory} {heads : List SlabHead} {slabs : List Slab}
    (h : Forall₂ (Threads mem) heads slabs) : heads.map SlabHead.page = slabs.map Slab.page := by
  induction h with
  | nil => rfl
  | cons hr _ ih => rw [List.map_cons, List.map_cons, hr.page, ih]

/-- Nothing to pop: every slab of the class is full. -/
theorem popObject_none {mem : Memory} {c : Nat} {heads : List SlabHead}
    (h : popObject mem c heads = none) : ∀ s ∈ heads, s.classIndex = c → s.free = 0 := by
  induction heads with
  | nil => simp
  | cons s rest ih =>
    rw [popObject] at h
    split at h
    · cases h
    next hc =>
    intro x hx hxc
    rcases List.mem_cons.mp hx with rfl | hx
    · by_contra hne
      exact hc ⟨hxc, hne⟩
    · exact ih (Option.map_eq_none_iff.mp h) x hx hxc

theorem classSize_inj {c d : Nat} (hc : c < 8) (hd : d < 8) (h : classSize c = classSize d) :
    c = d := by
  have hall : ∀ c < 8, ∀ d < 8, classSize c = classSize d → c = d := by decide
  exact hall c hc d hd h

namespace Backed

variable (h : Backed P s m)

include h

/-- A live block together with its slab. -/
theorem slab_of {e : Nat × Nat} (he : e ∈ s.live) :
    ∃ t ∈ m.slabs, e.1 ∈ t.objects ∧ blockSize e.2 = classSize t.classIndex ∧
      max e.2 1 ≤ blockSize e.2 := by
  obtain ⟨c, hc, t, ht, rfl, hto⟩ := h.served e he
  exact ⟨t, ht, hto, blockSize_eq hc, blockSize_eq hc ▸ le_classSize hc⟩

/-- A live block lies inside its slab and is as large as was asked for. -/
theorem block {e : Nat × Nat} (he : e ∈ s.live) :
    max e.2 1 ≤ blockSize e.2 ∧ InSlab s.heap.slabs e.1 (blockSize e.2) := by
  obtain ⟨t, ht, hto, hsize, hle⟩ := h.slab_of he
  refine ⟨hle, ?_⟩
  obtain ⟨head, hhead, hthr⟩ := forall₂_mem_left h.linked.slabs.flip ht
  have hrange := mem_slabObjects (h.stocked.heap t ht).class_lt hto
  refine ⟨head, hhead, ?_, ?_, ?_, ?_⟩
  · rw [hsize, hthr.classIndex]
  · rw [hthr.page]
    exact hrange.1
  · rw [hthr.page, hsize]
    exact hrange.2
  · rw [hsize]
    exact object_aligned (h.stocked.heap t ht).class_lt (h.stocked.isPage_of_slab ht) hto

/-- Two live blocks do not overlap. -/
theorem blocksApart {e e' : Nat × Nat} (he : e ∈ s.live) (he' : e' ∈ s.live)
    (hne : e.1 ≠ e'.1) : BlocksApart e e' := by
  obtain ⟨t, ht, hto, hsize, -⟩ := h.slab_of he
  obtain ⟨t', ht', hto', hsize', -⟩ := h.slab_of he'
  unfold BlocksApart
  rw [hsize, hsize']
  exact h.stocked.apart ht ht' hto hto' hne

/-- A page is a slab as long as a block of it is live. -/
theorem mem_slabBag {p : Nat} : p ∈ slabBag m.slabs ↔ ∃ a ∈ s.pointers, pageDown a = p := by
  rw [mem_slabBag_iff h.stocked.heap fun q hq => h.stocked.isPage_slab hq, h.live]
  simp only [mem_coe]

/-- The free pages are those without a live block. -/
theorem pages {p : Nat} : p ∈ s.heap.freeList ↔ p ∈ P.pages ∧ ∀ a ∈ s.pointers, pageDown a ≠ p := by
  rw [← h.linked.freeList, h.stocked.mem_freeList, h.mem_slabBag]
  simp

/-- What the list-level heap says about the state. -/
theorem sound {free0 : List Nat} (hP : P.pages = (free0 : Multiset Nat)) : s.Sound free0 := by
  refine ⟨fun e he => h.block he, ?_, ?_, ?_, ?_, ?_⟩
  · have hnd : s.live.Pairwise fun e e' => e.1 ≠ e'.1 := List.pairwise_map.mp h.pointers_nodup
    refine List.Pairwise.imp_of_mem ?_ hnd
    intro e e' he he' hne
    exact h.blocksApart he he' hne
  · intro head hhead
    obtain ⟨t, ht, hthr⟩ := forall₂_mem_left h.linked.slabs hhead
    have hok := h.stocked.heap t ht
    refine ⟨t.free, hthr.chain, hok.free_nodup, ?_, ?_⟩
    · rw [hthr.used, hthr.page, hthr.classIndex]
      exact hok.used_eq
    intro a ha
    rw [hthr.page, hthr.classIndex]
    exact ⟨hok.free_mem ha, fun hp => h.stocked.live_ne_free (h.mem_live.mpr hp) ht ha rfl⟩
  · intro p
    rw [h.pages, hP, mem_coe]
  · intro p
    rw [threads_pages h.linked.slabs]
    exact h.mem_slabBag
  · intro hnil
    have hnone : slabBag m.slabs = 0 := by
      refine eq_zero_of_forall_notMem fun p hp => ?_
      obtain ⟨a, ha, -⟩ := h.mem_slabBag.mp hp
      simp [HeapRun.pointers, hnil] at ha
    have hslabs : m.slabs = [] := by
      rw [slabBag, coe_eq_zero, map_eq_nil_iff] at hnone
      exact hnone
    constructor
    · have hpool := h.stocked.pool
      rw [Machine.stock, hnone, add_zero, add_zero, hP, coe_eq_coe, h.linked.freeList] at hpool
      exact hpool
    · have hl := h.linked.slabs
      rw [hslabs] at hl
      exact List.forall₂_nil_right_iff.mp hl

/-- What it says about the next `kmalloc`. -/
theorem kmallocSound (n : Nat) : s.Kmalloc n := by
  have hnext : heapStep s (.kmalloc n) = some ⟨(s.heap.kmalloc n).2,
      if (s.heap.kmalloc n).1 = 0 then s.live else ((s.heap.kmalloc n).1, n) :: s.live⟩ := rfl
  obtain ⟨m1, h1⟩ := h.kmalloc hnext
  have hblock : (s.heap.kmalloc n).1 ≠ 0 → max n 1 ≤ blockSize n ∧
      InSlab (s.heap.kmalloc n).2.slabs (s.heap.kmalloc n).1 (blockSize n) ∧
      ∀ e ∈ s.live, BlocksApart ((s.heap.kmalloc n).1, n) e := by
    intro hne
    rw [if_neg hne] at h1
    obtain ⟨hle, hin⟩ := h1.block List.mem_cons_self
    refine ⟨hle, hin, fun e he => h1.blocksApart List.mem_cons_self (List.mem_cons_of_mem _ he) ?_⟩
    exact fun heq => (List.nodup_cons.mp h1.pointers_nodup).1 (heq ▸ List.mem_map_of_mem he)
  cases hidx : classSizes.findIdx? (max n 1 ≤ ·) with
  | none =>
    have hk : s.heap.kmalloc n = (0, s.heap) := by simp only [LinkedHeap.kmalloc, hidx]
    refine ⟨?_, hblock, fun _ => .inl (no_class_iff.mp hidx),
      fun _ => ⟨s.heap.outcomes, by rw [hk]⟩⟩
    intro hne
    rw [hk] at hne
    exact absurd rfl hne
  | some c =>
    rcases h.linked.kmalloc h.stocked hidx with ⟨hnone, h0, hk⟩ | ⟨hne, m', ha⟩
    · have hfail := LinkedHeap.pageAlloc_fail h.zero_not_free h0
      refine ⟨?_, hblock, fun _ => .inr ⟨h0, ?_⟩,
        fun _ => ⟨s.heap.outcomes.tail, by rw [hk, hfail]⟩⟩
      · intro hne
        rw [hk] at hne
        exact absurd rfl hne
      intro head hhead hsize
      obtain ⟨t, ht, hthr⟩ := forall₂_mem_left h.linked.slabs hhead
      rw [blockSize_eq hidx] at hsize
      have hlt : head.classIndex < 8 := hthr.classIndex ▸ (h.stocked.heap t ht).class_lt
      exact popObject_none hnone head hhead (classSize_inj hlt (classIndex_lt hidx) hsize)
    · refine ⟨fun _ => ?_, hblock, fun h0 => absurd h0 hne, fun h0 => absurd h0 hne⟩
      rw [blockSize_eq hidx]
      exact ha.zeroed

/-- What it says about the next `kfree`. -/
theorem kfreeSound {a : Nat} (ha : a ∈ s.pointers) : s.Kfree a := by
  have hnext : heapStep s (.kfree a) =
      some ⟨s.heap.kfree a, s.live.eraseP (·.1 == a)⟩ := by
    rw [heapStep, if_pos ha]
  have h1 := h.kfree hnext
  have hmem : ∀ b, b ∈ (s.live.eraseP (·.1 == a)).map Prod.fst ↔ b ∈ s.pointers ∧ b ≠ a := by
    intro b
    simp only [List.mem_map, h.mem_eraseP, HeapRun.pointers]
    constructor
    · rintro ⟨e, ⟨he, hne⟩, rfl⟩
      exact ⟨⟨e, he, rfl⟩, hne⟩
    · rintro ⟨⟨e, he, rfl⟩, hne⟩
      exact ⟨e, ⟨he, hne⟩, rfl⟩
  intro p
  rw [h1.pages, h.pages]
  simp only [HeapRun.pointers, hmem]
  constructor
  · rintro ⟨hp, hout⟩
    by_cases hpa : p = pageDown a
    · refine .inr ⟨hpa, fun b hb hbp => ?_⟩
      by_contra hne
      exact hout b ⟨hb, hne⟩ hbp
    refine .inl ⟨hp, fun b hb hbp => ?_⟩
    by_cases hne : b = a
    · exact hpa (hbp ▸ hne ▸ rfl)
    · exact hout b ⟨hb, hne⟩ hbp
  · rintro (⟨hp, hout⟩ | ⟨rfl, honly⟩)
    · exact ⟨hp, fun b hb => hout b hb.1⟩
    · refine ⟨?_, fun b hb hbp => hb.2 (honly b hb.1 hbp)⟩
      have hslab : pageDown a ∈ slabBag m.slabs := h.mem_slabBag.mpr ⟨a, ha, rfl⟩
      rw [← h.stocked.pool]
      exact Multiset.mem_add.mpr (.inl (Multiset.mem_add.mpr (.inr hslab)))

end Backed

/-- **The kernel heap.**  From an empty heap, after any calls of `kmalloc` and
`kfree` of live pointers and any stores to live blocks, whichever allocations of
pages failed: blocks lie in their slabs, apart from each other; free lists and
counts agree; `kmalloc` hands out zeroed blocks, fails only for want of a class
or a page and then changes nothing; and a page goes back with its last block. -/
theorem kernel_heap_sound {h₀ : LinkedHeap} (hempty : h₀.slabs = []) (hnd : h₀.freeList.Nodup)
    (hpages : ∀ p ∈ h₀.freeList, IsPage p) {s : HeapRun}
    (hr : Reach heapStep Always ⟨h₀, []⟩ s) :
    s.Sound h₀.freeList ∧ (∀ n, s.Kmalloc n) ∧ ∀ a ∈ s.pointers, s.Kfree a := by
  let P : PagePool := ⟨(h₀.freeList : Multiset Nat), Multiset.coe_nodup.mpr hnd,
    fun p hp => hpages p (Multiset.mem_coe.mp hp)⟩
  have hinit : Backed P ⟨h₀, []⟩ ⟨h₀.mem, h₀.freeList, [], h₀.outcomes, []⟩ := by
    refine ⟨⟨rfl, by rw [hempty]; exact .nil⟩, ⟨?_, ?_, ?_⟩, rfl, ?_⟩
    · intro t ht
      cases ht
    · simp [Machine.stock, P]
    · intro e he
      cases he
    · intro e he
      cases he
  have hinv : ∃ m, Backed P s m := by
    refine Reach.invariant (I := fun s => ∃ m, Backed P s m) ⟨_, hinit⟩ ?_ hr
    rintro s a s' ⟨m, h⟩ - hs
    cases a with
    | kmalloc size => exact h.kmalloc hs
    | kfree p => exact ⟨_, h.kfree hs⟩
    | store p off byte => exact ⟨m, h.store hs⟩
  obtain ⟨m, h⟩ := hinv
  exact ⟨h.sound rfl, h.kmallocSound, fun a ha => h.kfreeSound ha⟩

/-- A heap over two pages whose second page is refused once. -/
def twoPageHeap : LinkedHeap := ⟨fun _ => 7, [], [0x1000, 0x2000], [true, false]⟩

def twoPageCalls : List HeapAction :=
  [.kmalloc 2000, .kmalloc 1, .kmalloc 40, .store 0x1800 1999 3, .kmalloc 100, .kfree 0x1800]

/-- One block refused for want of a page, another for want of a free page, one
freed again with its page. -/
theorem kernel_heap_two_pages :
    ∃ s, runSteps heapStep ⟨twoPageHeap, []⟩ twoPageCalls = some s ∧ s.live = [(0x2fc0, 40)] ∧
      s.heap.freeList = [0x1000] ∧ s.Sound [0x1000, 0x2000] ∧ (∀ n, s.Kmalloc n) ∧
      ∀ a ∈ s.pointers, s.Kfree a := by
  have hfacts : (runSteps heapStep ⟨twoPageHeap, []⟩ twoPageCalls).map
      (fun s => (s.live, s.heap.freeList)) = some ([(0x2fc0, 40)], [0x1000]) := by decide +kernel
  obtain ⟨s, hs, hfacts⟩ := Option.map_eq_some_iff.mp hfacts
  have hpages : ∀ p ∈ twoPageHeap.freeList, IsPage p := by
    intro p hp
    simp only [twoPageHeap, List.mem_cons, not_mem_nil, or_false] at hp
    rcases hp with rfl | rfl
    · exact ⟨by decide, by decide, by decide⟩
    · exact ⟨by decide, by decide, by decide⟩
  exact ⟨s, hs, congrArg Prod.fst hfacts, congrArg Prod.snd hfacts,
    kernel_heap_sound rfl (by decide) hpages (Reach.of_runSteps hs fun _ _ _ => trivial)⟩

end MiniCore
