import MiniCore.Lib.Chain
import MiniCore.Lib.Transition
import MiniCore.Mm.Heap
import Mathlib.Data.List.Forall2

/-!
# MiniCore.Mm.HeapLinks

The kernel heap with its free lists where `src/mm/heap.c` keeps them: a slab
header points at the first free object, and each free object holds the address
of the next one in its first eight bytes.  A caller may write to any byte of a
block it has been given.

`Linked` relates this heap to the one of `MiniCore.Mm.Heap`, which keeps the
lists themselves: the two take the same object and give back the same page, as
no write to a live block reaches a free one (`Stocked.apart`).
-/

namespace MiniCore

open Lib List Multiset

variable {mem : Memory} {a c : Nat} {s t : Slab} {P : PagePool} {m : Machine} {rest : Multiset Nat}

variable {page : Nat}

/-- `struct slab`; `free` is the address of the first free object, 0 if there is none. -/
structure SlabHead where
  page : Nat
  classIndex : Nat
  used : Nat
  free : Nat
deriving DecidableEq, Repr

/-- What `heap.c` works on: memory, the slabs of all classes in the order of
their lists, and the page allocator with the outcomes it has still to give. -/
structure LinkedHeap where
  mem : Memory
  slabs : List SlabHead
  freeList : List Nat
  outcomes : List Bool

/-- `object->next` -/
def nextFree (mem : Memory) (object : Nat) : Nat := loadLE mem object 8

/-- `object->next = next` -/
def setNextFree (mem : Memory) (object next : Nat) : Memory := storeLE mem object 8 next

/-- The loop of `new_slab`: each object is pushed in front of the ones before it. -/
def threadObjects : List Nat → Nat → Memory → Nat × Memory
  | [], free, mem => (free, mem)
  | object :: rest, free, mem => threadObjects rest object (setNextFree mem object free)

/-- `new_slab` on the page just allocated. -/
def buildSlab (page c : Nat) (mem : Memory) : SlabHead × Memory :=
  let cleared := fill mem page slabHeader fun _ => 0
  let threaded := threadObjects (slabObjects page (classSize c)) 0 cleared
  (⟨page, c, 0, threaded.1⟩, threaded.2)

/-- Pop the first free object of a slab. -/
def SlabHead.pop (mem : Memory) (slab : SlabHead) : Nat × SlabHead :=
  (slab.free, { slab with free := nextFree mem slab.free, used := slab.used + 1 })

/-- Pop an object from the first slab of class `c` that has one. -/
def popObject (mem : Memory) (c : Nat) : List SlabHead → Option (Nat × List SlabHead)
  | [] => none
  | slab :: rest =>
    if slab.classIndex = c ∧ slab.free ≠ 0 then
      some ((slab.pop mem).1, (slab.pop mem).2 :: rest)
    else (popObject mem c rest).map fun r => (r.1, slab :: r.2)

/-- Push an object back onto the slab at the start of its page.  The first
component is what goes into `object->next`, the last one the page of an emptied
slab, 0 if there is none; `none` if the page has no slab in use. -/
def pushObject (pointer : Nat) : List SlabHead → Option (Nat × List SlabHead × Nat)
  | [] => none
  | slab :: rest =>
    if slab.page = pageDown pointer then
      if slab.used = 0 then none
      else if slab.used = 1 then some (slab.free, rest, slab.page)
      else some (slab.free, { slab with free := pointer, used := slab.used - 1 } :: rest, 0)
    else (pushObject pointer rest).map fun r => (r.1, slab :: r.2.1, r.2.2)

namespace LinkedHeap

/-- `page_alloc`; 0 on failure. -/
def pageAlloc (h : LinkedHeap) : Nat × LinkedHeap :=
  let h' := { h with outcomes := h.outcomes.tail }
  if h.outcomes.headD true then
    match h.freeList with
    | [] => (0, h')
    | page :: rest => (page, { h' with freeList := rest })
  else (0, h')

/-- `page_free`; a null or unaligned address is ignored. -/
def pageFree (physical : Nat) (h : LinkedHeap) : LinkedHeap :=
  if pageOffset physical ≠ 0 ∨ physical = 0 then h
  else { h with freeList := physical :: h.freeList }

/-- `kmalloc`; 0 on failure. -/
def kmalloc (size : Nat) (h : LinkedHeap) : Nat × LinkedHeap :=
  match classSizes.findIdx? (max size 1 ≤ ·) with
  | none => (0, h)
  | some c =>
    match popObject h.mem c h.slabs with
    | some (object, slabs) =>
      (object, { h with slabs := slabs, mem := fill h.mem object (classSize c) fun _ => 0 })
    | none =>
      match h.pageAlloc with
      | (0, h') => (0, h')
      | (page, h') =>
        let built := buildSlab page c h'.mem
        let popped := built.1.pop built.2
        (popped.1, { h' with
          slabs := h'.slabs ++ [popped.2]
          mem := fill built.2 popped.1 (classSize c) fun _ => 0 })

/-- `kfree`; a null pointer is ignored. -/
def kfree (pointer : Nat) (h : LinkedHeap) : LinkedHeap :=
  if pointer = 0 then h
  else
    match pushObject pointer h.slabs with
    | none => h
    | some (next, slabs, page) =>
      pageFree page { h with slabs := slabs, mem := setNextFree h.mem pointer next }

end LinkedHeap

/-! ## Where blocks lie -/

theorem slabObjects_pairwise (page size : Nat) :
    (slabObjects page size).Pairwise fun a b => a + size ≤ b := by
  rw [slabObjects, pairwise_map]
  refine List.pairwise_lt_range.imp ?_
  intro i j hij
  have := Nat.mul_le_mul_right size (Nat.succ_le_of_lt hij)
  rw [Nat.succ_mul] at this
  omega

theorem slabObjects_apart {size b : Nat} (ha : a ∈ slabObjects page size)
    (hb : b ∈ slabObjects page size) (hne : a ≠ b) : a + size ≤ b ∨ b + size ≤ a := by
  obtain ⟨i, -, rfl⟩ := List.mem_map.mp ha
  obtain ⟨j, -, rfl⟩ := List.mem_map.mp hb
  rcases Nat.lt_trichotomy i j with hij | rfl | hij
  · have := Nat.mul_le_mul_right size (Nat.succ_le_of_lt hij)
    rw [Nat.succ_mul] at this
    omega
  · exact absurd rfl hne
  · have := Nat.mul_le_mul_right size (Nat.succ_le_of_lt hij)
    rw [Nat.succ_mul] at this
    omega

theorem slabObjects_nodup (page : Nat) (hc : c < 8) : (slabObjects page (classSize c)).Nodup := by
  have := classSize_range hc
  refine (slabObjects_pairwise page (classSize c)).imp ?_
  intro a b hab
  omega

/-- An object is aligned to the size of its class. -/
theorem object_aligned (hc : c < 8) (hp : IsPage page) (ha : a ∈ slabObjects page (classSize c)) :
    a % classSize c = 0 := by
  have hdiv : ∀ c < 8, classSize c ∣ 4096 ∧ classSize c ∣ firstOffset (classSize c) := by decide
  have hpage : classSize c ∣ page :=
    (hdiv c hc).1.trans (Nat.dvd_of_mod_eq_zero hp.aligned)
  obtain ⟨i, -, rfl⟩ := List.mem_map.mp ha
  exact Nat.mod_eq_zero_of_dvd
    (Nat.dvd_add (Nat.dvd_add hpage (hdiv c hc).2) (Nat.dvd_mul_left _ _))

theorem mem_liveBag {slabs : List Slab} : a ∈ liveBag slabs ↔ ∃ s ∈ slabs, a ∈ s.live := by
  induction slabs with
  | nil => simp
  | cons s rest ih => simp [mem_add, ih]

theorem Slab.Ok.free_not_live (h : s.Ok) (ha : a ∈ s.free) : a ∉ s.live := by
  have hnd : (s.live + (s.free : Multiset Nat)).Nodup := by
    rw [h.live_add_free]
    exact Multiset.coe_nodup.mpr (slabObjects_nodup s.page h.class_lt)
  exact fun hl => Multiset.disjoint_left.mp (Multiset.nodup_add.mp hnd).2.2 hl
    (Multiset.mem_coe.mpr ha)

theorem Slab.Ok.free_nodup (h : s.Ok) : s.free.Nodup :=
  Multiset.coe_nodup.mp
    (nodup_of_le h.free_le (Multiset.coe_nodup.mpr (slabObjects_nodup s.page h.class_lt)))

theorem Slab.Ok.free_mem (h : s.Ok) (ha : a ∈ s.free) : a ∈ s.objects :=
  Multiset.mem_coe.mp (mem_of_le h.free_le (Multiset.mem_coe.mpr ha))

namespace Stocked

variable (h : Stocked P m rest)

include h

theorem isPage_of_slab (hs : s ∈ m.slabs) : IsPage s.page :=
  h.isPage_slab (Multiset.mem_coe.mpr (List.mem_map_of_mem hs))

/-- A page is the page of one slab at most. -/
theorem slab_unique (hs : s ∈ m.slabs) (ht : t ∈ m.slabs) (hp : s.page = t.page) : s = t :=
  List.inj_on_of_nodup_map (Multiset.coe_nodup.mp h.nodup_slabs) hs ht hp

/-- **Blocks do not overlap**, whatever slabs and classes they are from. -/
theorem apart (hs : s ∈ m.slabs) (ht : t ∈ m.slabs) (ha : a ∈ s.objects)
    (hb : b ∈ t.objects) (hne : a ≠ b) :
    a + classSize s.classIndex ≤ b ∨ b + classSize t.classIndex ≤ a := by
  by_cases hp : s.page = t.page
  · obtain rfl := h.slab_unique hs ht hp
    exact slabObjects_apart ha hb hne
  have hdisj := (h.isPage_of_slab hs).disjoint (h.isPage_of_slab ht) hp
  have := mem_slabObjects (h.heap s hs).class_lt ha
  have := mem_slabObjects (h.heap t ht).class_lt hb
  omega

theorem live_ne_free (ha : a ∈ liveBag m.slabs) (ht : t ∈ m.slabs) (hb : b ∈ t.free) : a ≠ b := by
  rintro rfl
  obtain ⟨s, hs, hal⟩ := mem_liveBag.mp ha
  have hps := (h.heap s hs).pageDown_live (h.isPage_of_slab hs) hal
  have hpt :=
    pageDown_object (h.heap t ht).class_lt (h.isPage_of_slab ht) ((h.heap t ht).free_mem hb)
  obtain rfl := h.slab_unique hs ht (hps.symm.trans hpt)
  exact (h.heap s hs).free_not_live hb hal

/-- **No object is handed out twice.** -/
theorem nodup_live : (liveBag m.slabs).Nodup := by
  have hall : ∀ slabs : List Slab, HeapOk slabs → (slabBag slabs).Nodup →
      (∀ p ∈ slabBag slabs, IsPage p) → (liveBag slabs).Nodup := by
    intro slabs
    induction slabs with
    | nil => simp
    | cons t rest ih =>
      intro hok hnd hpage
      have ht := hok t List.mem_cons_self
      have hrest : HeapOk rest := fun x hx => hok x (List.mem_cons_of_mem _ hx)
      rw [slabBag_cons, Multiset.nodup_cons] at hnd
      have hpages : ∀ p ∈ slabBag rest, IsPage p := fun p hp => hpage p (by simp [hp])
      rw [liveBag_cons, nodup_add]
      refine ⟨?_, ih hrest hnd.2 hpages, Multiset.disjoint_left.mpr fun ha hb => hnd.1 ?_⟩
      · exact nodup_of_le (Multiset.sub_le_self _ _)
          (Multiset.coe_nodup.mpr (slabObjects_nodup t.page ht.class_lt))
      · exact (mem_slabBag_iff hrest hpages).mpr
          ⟨_, hb, ht.pageDown_live (hpage t.page (by simp)) ha⟩
  exact hall m.slabs h.heap h.nodup_slabs fun p hp => h.isPage_slab hp

end Stocked

/-! ## Free lists in memory -/

/-- A slab header whose free list in memory is the list of the slab. -/
structure Threads (mem : Memory) (head : SlabHead) (slab : Slab) : Prop where
  page : head.page = slab.page
  classIndex : head.classIndex = slab.classIndex
  used : head.used = slab.used
  chain : Chain (nextFree mem) 0 head.free slab.free

theorem nextFree_fill {f : Nat → UInt8} {n b : Nat} (h : b + 8 ≤ a ∨ a + n ≤ b) :
    nextFree (fill mem a n f) b = nextFree mem b :=
  loadLE_fill_of_disjoint h

theorem nextFree_set_self {v : Nat} (hv : v < 2 ^ 64) : nextFree (setNextFree mem a v) a = v :=
  loadLE_store_self hv

theorem Threads.congr {mem' : Memory} {head : SlabHead} {slab : Slab} (h : Threads mem head slab)
    (heq : ∀ b ∈ slab.free, nextFree mem' b = nextFree mem b) : Threads mem' head slab :=
  ⟨h.page, h.classIndex, h.used, h.chain.congr heq⟩

section

variable {mem' : Memory} {heads : List SlabHead} {slabs : List Slab}

variable (h : Forall₂ (Threads mem) heads slabs)

include h

theorem threads_congr (heq : ∀ t ∈ slabs, ∀ b ∈ t.free, nextFree mem' b = nextFree mem b) :
    Forall₂ (Threads mem') heads slabs := by
  induction h with
  | nil => exact .nil
  | cons hhead _ ih =>
    exact .cons (hhead.congr (heq _ List.mem_cons_self))
      (ih fun t ht => heq t (List.mem_cons_of_mem _ ht))

/-- Both heaps pop from the same slab. -/
theorem popObject_threads {c : Nat} : (popObject mem c heads = none ∧ takeObject c slabs = none) ∨
    ∃ a heads' slabs', popObject mem c heads = some (a, heads') ∧
      takeObject c slabs = some (a, slabs') ∧ Forall₂ (Threads mem) heads' slabs' := by
  induction h with
  | nil => exact .inl ⟨rfl, rfl⟩
  | @cons head slab heads slabs hhead hrest ih =>
    have hfree : head.free ≠ 0 ↔ slab.free ≠ [] := not_congr hhead.chain.eq_null_iff
    by_cases hc : head.classIndex = c ∧ head.free ≠ 0
    · have hc' : slab.classIndex = c ∧ slab.free ≠ [] :=
        ⟨hhead.classIndex ▸ hc.1, hfree.mp hc.2⟩
      obtain ⟨a, l, hl⟩ := exists_cons_of_ne_nil hc'.2
      have hchain := hhead.chain
      rw [hl] at hchain
      have hpop : Threads mem (head.pop mem).2 (takeFrom slab).2 := by
        refine ⟨hhead.page, hhead.classIndex, congrArg (· + 1) hhead.used, ?_⟩
        simp only [SlabHead.pop, takeFrom, hl, tail_cons]
        exact hchain.pop
      have hfst : (head.pop mem).1 = (takeFrom slab).1 := by
        simp only [SlabHead.pop, takeFrom, hl, headD_cons]
        exact hchain.1
      refine .inr ⟨(takeFrom slab).1, (head.pop mem).2 :: heads, (takeFrom slab).2 :: slabs,
        ?_, ?_, .cons hpop hrest⟩
      · rw [popObject, if_pos hc, hfst]
      · rw [takeObject, if_pos hc']
    · have hc' : ¬(slab.classIndex = c ∧ slab.free ≠ []) := by
        rwa [← hhead.classIndex, ← hfree]
      rw [popObject, if_neg hc, takeObject, if_neg hc']
      rcases ih with ⟨hn, hn'⟩ | ⟨a, heads', slabs', hs, hs', hl⟩
      · exact .inl ⟨by rw [hn]; rfl, by rw [hn']; rfl⟩
      · exact .inr ⟨a, head :: heads', slab :: slabs', by rw [hs]; rfl, by rw [hs']; rfl,
          .cons hhead hl⟩

/-- Both heaps push onto the same slab and give back the same page. -/
theorem pushObject_threads {a : Nat}
    (hok : HeapOk slabs) (hpage : pageDown a ∈ slabs.map Slab.page) (ha : a ≠ 0) :
    ∃ next heads', pushObject a heads = some (next, heads', (putObject a slabs).2) ∧
      ((next = 0 ∨ ∃ t ∈ slabs, next ∈ t.free) ∧
      ∀ mem', Forall₂ (Threads mem') heads slabs → nextFree mem' a = next →
        Forall₂ (Threads mem') heads' (putObject a slabs).1) := by
  induction h with
  | nil => simp at hpage
  | @cons head slab heads slabs hhead hrest ih =>
    have hs := hok slab List.mem_cons_self
    by_cases hp : slab.page = pageDown a
    · have hused := hs.used_pos
      have hnext : head.free = 0 ∨ ∃ t ∈ slab :: slabs, head.free ∈ t.free := by
        cases hl : slab.free with
        | nil => exact .inl (hhead.chain.eq_null_iff.mpr hl)
        | cons b l =>
          have hchain := hhead.chain
          rw [hl] at hchain
          exact .inr ⟨slab, List.mem_cons_self, by rw [hl, hchain.1]; exact List.mem_cons_self⟩
      by_cases h1 : slab.used = 1
      · refine ⟨head.free, heads, ?_, hnext, ?_⟩
        · rw [pushObject, putObject, if_pos (hhead.page.trans hp), if_pos hp, hhead.used,
            if_neg (by omega), if_pos h1, if_neg (by omega), if_pos h1, hhead.page]
        · intro mem' hl _
          rw [putObject, if_pos hp, if_neg (by omega), if_pos h1]
          cases hl with
          | cons _ hl => exact hl
      refine ⟨head.free, { head with free := a, used := head.used - 1 } :: heads, ?_, hnext, ?_⟩
      · rw [pushObject, putObject, if_pos (hhead.page.trans hp), if_pos hp, hhead.used,
          if_neg (by omega), if_neg h1, if_neg (by omega), if_neg h1]
      intro mem' hl hn
      rw [putObject, if_pos hp, if_neg (by omega), if_neg h1]
      cases hl with
      | cons hh hl =>
        refine .cons ⟨hh.page, hh.classIndex, congrArg (· - 1) hh.used, rfl, ha, ?_⟩ hl
        rw [hn]
        exact hh.chain
    · have hmem : pageDown a ∈ slabs.map Slab.page := by
        rcases List.mem_cons.mp hpage with heq | hmem
        · exact absurd heq.symm hp
        · exact hmem
      obtain ⟨next, heads', hpush, hnext, hall⟩ :=
        ih (fun x hx => hok x (List.mem_cons_of_mem _ hx)) hmem
      refine ⟨next, head :: heads', ?_, ?_, ?_⟩
      · rw [pushObject, putObject, if_neg (by rwa [hhead.page]), if_neg hp, hpush]
        rfl
      · rcases hnext with h0 | ⟨t, ht, hb⟩
        · exact .inl h0
        · exact .inr ⟨t, List.mem_cons_of_mem _ ht, hb⟩
      · intro mem' hl hn
        rw [putObject, if_neg hp]
        cases hl with
        | cons hh hl => exact .cons hh (hall mem' hl hn)

end

/-! ### A new slab -/

/-- The threading loop writes to the objects it threads only. -/
theorem threadObjects_frame {l : List Nat} {free : Nat} {x : Nat}
    (hx : ∀ a ∈ l, x < a ∨ a + 8 ≤ x) : (threadObjects l free mem).2 x = mem x := by
  induction l generalizing free mem with
  | nil => rfl
  | cons a l ih =>
    rw [threadObjects, ih fun b hb => hx b (List.mem_cons_of_mem _ hb)]
    rw [setNextFree, storeLE, fill_of_not_mem (hx a List.mem_cons_self)]

/-- **The threading loop** turns a list of objects into a free list, the last
object first. -/
theorem threadObjects_chain {l done : List Nat} {free : Nat}
    (hdone : Chain (nextFree mem) 0 free done) (hfree : free < 2 ^ 64)
    (hsort : l.Pairwise fun a b => a + 8 ≤ b) (hbefore : ∀ d ∈ done, ∀ a ∈ l, d + 8 ≤ a)
    (hbound : ∀ a ∈ l, a ≠ 0 ∧ a < 2 ^ 64) :
    Chain (nextFree (threadObjects l free mem).2) 0 (threadObjects l free mem).1
      (l.reverse ++ done) := by
  induction l generalizing done free mem with
  | nil => exact hdone
  | cons a l ih =>
    obtain ⟨hhead, htail⟩ := List.pairwise_cons.mp hsort
    obtain ⟨ha, halt⟩ := hbound a List.mem_cons_self
    rw [threadObjects, reverse_cons, append_assoc]
    refine ih ?_ halt htail ?_ fun b hb => hbound b (List.mem_cons_of_mem _ hb)
    · refine ⟨rfl, ha, ?_⟩
      rw [nextFree_set_self hfree]
      refine hdone.congr fun d hd => nextFree_fill ?_
      exact .inl (hbefore d hd a List.mem_cons_self)
    · intro d hd b hb
      rcases List.mem_cons.mp hd with rfl | hd
      · exact hhead b hb
      · exact hbefore d hd b (List.mem_cons_of_mem _ hb)

theorem buildSlab_threads (mem : Memory) (hp : IsPage page) (hc : c < 8) :
    Threads (buildSlab page c mem).2 (buildSlab page c mem).1 (newSlab page c) := by
  refine ⟨rfl, rfl, rfl, ?_⟩
  have hsize := classSize_range hc
  have hlt := hp.lt
  have hempty : Chain (nextFree (fill mem page slabHeader fun _ => 0)) 0 0 [] := rfl
  have hsort : (slabObjects page (classSize c)).Pairwise fun a b => a + 8 ≤ b :=
    (slabObjects_pairwise page (classSize c)).imp fun hab => by omega
  have hbound : ∀ a ∈ slabObjects page (classSize c), a ≠ 0 ∧ a < 2 ^ 64 := by
    intro a ha
    have := mem_slabObjects hc ha
    omega
  have hchain := threadObjects_chain hempty (by decide) hsort (by simp) hbound
  rw [append_nil] at hchain
  exact hchain

/-- Building a slab writes to its page only. -/
theorem buildSlab_frame {x : Nat} (hc : c < 8) (hx : x < page ∨ page + 4096 ≤ x) :
    (buildSlab page c mem).2 x = mem x := by
  have hframe : (buildSlab page c mem).2 x = fill mem page slabHeader (fun _ => 0) x := by
    refine threadObjects_frame fun a ha => ?_
    have := mem_slabObjects hc ha
    have := classSize_range hc
    omega
  rw [hframe]
  exact fill_of_not_mem (by unfold slabHeader; omega)

/-! ## Two levels of the heap -/

/-- The heap `m` keeps as lists the free lists that `h` keeps in memory. -/
structure Linked (h : LinkedHeap) (m : Machine) : Prop where
  freeList : m.freeList = h.freeList
  slabs : Forall₂ (Threads h.mem) h.slabs m.slabs

/-- The free list and the schedule decide what `page_alloc` does. -/
theorem pageAlloc_linked {h : LinkedHeap} {m : Machine} (hf : m.freeList = h.freeList)
    (ho : m.outcomes = h.outcomes) :
    (pageAlloc m).1 = h.pageAlloc.1 ∧ (pageAlloc m).2.freeList = h.pageAlloc.2.freeList ∧
      (pageAlloc m).2.slabs = m.slabs ∧ h.pageAlloc.2.slabs = h.slabs ∧
      h.pageAlloc.2.mem = h.mem := by
  simp only [pageAlloc, LinkedHeap.pageAlloc, Machine.grants, Machine.nextOutcome_freeList, hf, ho]
  cases h.outcomes.headD true with
  | false => exact ⟨rfl, hf, rfl, rfl, rfl⟩
  | true =>
    cases hl : h.freeList with
    | nil => exact ⟨rfl, hf.trans hl, rfl, rfl, rfl⟩
    | cons page rest => exact ⟨rfl, rfl, rfl, rfl, rfl⟩

/-- A `page_alloc` that fails uses up an outcome and nothing else. -/
theorem LinkedHeap.pageAlloc_fail {h : LinkedHeap} (hpages : 0 ∉ h.freeList)
    (h0 : h.pageAlloc.1 = 0) : h.pageAlloc.2 = { h with outcomes := h.outcomes.tail } := by
  unfold pageAlloc at h0 ⊢
  cases hg : h.outcomes.headD true with
  | false => simp
  | true =>
    cases hl : h.freeList with
    | nil => simp
    | cons page rest =>
      simp only [hg, hl, if_true] at h0
      exact absurd (by rw [hl, h0]; exact List.mem_cons_self) hpages

section

variable {h : LinkedHeap}

/-- A write to a live block leaves the free lists as they are. -/
theorem Stocked.write_live {mem : Memory} {heads : List SlabHead} {f : Nat → UInt8} {b n : Nat}
    (hst : Stocked P m rest) (hl : Forall₂ (Threads mem) heads m.slabs)
    (hlive : a ∈ liveBag m.slabs) (ht : t ∈ m.slabs) (ha : a ∈ t.objects) (hb : a ≤ b)
    (hn : b + n ≤ a + classSize t.classIndex) :
    Forall₂ (Threads (fill mem b n f)) heads m.slabs := by
  refine threads_congr hl fun u hu x hx => nextFree_fill ?_
  have hne := hst.live_ne_free hlive hu hx
  have hapart := hst.apart ht hu ha ((hst.heap u hu).free_mem hx) hne
  have := classSize_range (hst.heap u hu).class_lt
  omega

/-- The live block is an object of a slab of class `c`. -/
def Slab.Serves (c a : Nat) (t : Slab) : Prop := t.classIndex = c ∧ a ∈ t.objects

theorem takeObject_serves {slabs slabs' : List Slab} {d b : Nat}
    (ht : takeObject c slabs = some (a, slabs')) (hmem : t ∈ slabs) (hs : t.Serves d b) :
    ∃ t' ∈ slabs', t'.Serves d b := by
  induction slabs generalizing slabs' with
  | nil => simp at hmem
  | cons s rest ih =>
    rw [takeObject] at ht
    by_cases hc : s.classIndex = c ∧ s.free ≠ []
    · rw [if_pos hc] at ht
      cases ht
      rcases List.mem_cons.mp hmem with rfl | hmem
      · exact ⟨_, List.mem_cons_self, hs⟩
      · exact ⟨t, List.mem_cons_of_mem _ hmem, hs⟩
    rw [if_neg hc] at ht
    obtain ⟨⟨x, rest'⟩, hr, hx⟩ := Option.map_eq_some_iff.mp ht
    cases hx
    rcases List.mem_cons.mp hmem with rfl | hmem
    · exact ⟨t, List.mem_cons_self, hs⟩
    · obtain ⟨t', ht', hs'⟩ := ih hr hmem
      exact ⟨t', List.mem_cons_of_mem _ ht', hs'⟩

/-- A slab left by `putObject` was there before, with the same page and class. -/
theorem putObject_origin {slabs : List Slab} (ht : t ∈ (putObject a slabs).1) :
    ∃ s ∈ slabs, s.page = t.page ∧ s.classIndex = t.classIndex := by
  induction slabs with
  | nil => simp [putObject] at ht
  | cons s rest ih =>
    have hkeep : t ∈ rest → ∃ s' ∈ s :: rest, s'.page = t.page ∧ s'.classIndex = t.classIndex :=
      fun hmem => ⟨t, List.mem_cons_of_mem _ hmem, rfl, rfl⟩
    have hself : ∀ u : Slab, u.page = s.page → u.classIndex = s.classIndex → t = u →
        ∃ s' ∈ s :: rest, s'.page = t.page ∧ s'.classIndex = t.classIndex := by
      rintro u hp hc rfl
      exact ⟨s, List.mem_cons_self, hp.symm, hc.symm⟩
    rw [putObject] at ht
    split at ht
    · split at ht
      · exact (List.mem_cons.mp ht).elim (hself s rfl rfl) hkeep
      · split at ht
        · exact hkeep ht
        · exact (List.mem_cons.mp ht).elim (hself _ rfl rfl) hkeep
    · rcases List.mem_cons.mp ht with heq | hmem
      · exact hself s rfl rfl heq
      · obtain ⟨s', hs', hsame⟩ := ih hmem
        exact ⟨s', List.mem_cons_of_mem _ hs', hsame⟩

/-- What a successful `kmalloc` of class `c` leaves: the block `a` is one more
live object, and every block keeps its slab. -/
structure Allocates (P : PagePool) (m : Machine) (c a : Nat) (h' : LinkedHeap) (m' : Machine) :
    Prop where
  linked : Linked h' m'
  stocked : Stocked P m' 0
  live : liveBag m'.slabs = a ::ₘ liveBag m.slabs
  served : ∃ t ∈ m'.slabs, t.Serves c a
  keeps : ∀ d b, (∃ t ∈ m.slabs, t.Serves d b) → ∃ t ∈ m'.slabs, t.Serves d b
  zeroed : ∀ i < classSize c, h'.mem (a + i) = 0

/-- Zeroing the block that was just popped. -/
theorem Allocates.of_threads (m' : Machine) {mem : Memory} (hf : m'.freeList = h.freeList)
    (hl : Forall₂ (Threads mem) h.slabs m'.slabs) (hst : Stocked P m' 0)
    (hlive : liveBag m'.slabs = a ::ₘ liveBag m.slabs) (hserved : ∃ t ∈ m'.slabs, t.Serves c a)
    (hkeeps : ∀ d b, (∃ t ∈ m.slabs, t.Serves d b) → ∃ t ∈ m'.slabs, t.Serves d b)
    (hmem : h.mem = fill mem a (classSize c) fun _ => 0) : Allocates P m c a h m' := by
  obtain ⟨t, ht, htc, hta⟩ := hserved
  have hin : a ∈ liveBag m'.slabs := hlive ▸ Multiset.mem_cons_self _ _
  refine ⟨⟨hf, ?_⟩, hst, hlive, ⟨t, ht, htc, hta⟩, hkeeps, ?_⟩
  · rw [hmem]
    exact hst.write_live hl hin ht hta (Nat.le_refl a) (by rw [htc])
  intro i hi
  rw [hmem]
  exact fill_of_mem hi

/-- The first object of the slab that was just built. -/
theorem buildSlab_pop (mem : Memory) {page : Nat} (hpage : IsPage page) (hc : c < 8) :
    let built := buildSlab page c mem
    Threads built.2 (built.1.pop built.2).2 (takeFrom (newSlab page c)).2 ∧
      (built.1.pop built.2).1 = (takeFrom (newSlab page c)).1 := by
  obtain ⟨b, l, hbl⟩ := exists_cons_of_ne_nil (newSlab_free_ne_nil page hc)
  have hchain := (buildSlab_threads mem hpage hc).chain
  rw [hbl] at hchain
  simp only [SlabHead.pop, takeFrom, hbl, headD_cons, tail_cons]
  exact ⟨⟨rfl, rfl, rfl, hchain.pop⟩, hchain.1⟩

/-- **`kmalloc`** of a class, run on both heaps: it fails where the class has
no free object and `page_alloc` fails, and else adds a live block. -/
theorem Linked.kmalloc (hl : Linked h m) (hst : Stocked P m 0) {size : Nat}
    (hidx : classSizes.findIdx? (max size 1 ≤ ·) = some c) :
    (popObject h.mem c h.slabs = none ∧ h.pageAlloc.1 = 0 ∧ h.kmalloc size = (0, h.pageAlloc.2)) ∨
    (h.kmalloc size).1 ≠ 0 ∧ ∃ m', Allocates P m c (h.kmalloc size).1 (h.kmalloc size).2 m' := by
  have hc := classIndex_lt hidx
  -- the list-level heap consults the schedule for the call itself first
  have hst0 : Stocked P { m with outcomes := true :: h.outcomes } 0 := hst.congr rfl rfl rfl
  have hspec := kmalloc_spec hst0 size
  rcases popObject_threads (c := c) hl.slabs with ⟨hnone, hnone'⟩ | ⟨a, heads', slabs',
    hpop, htake, hl'⟩
  · have hboth := pageAlloc_linked (h := h) (m := { m with outcomes := h.outcomes }) hl.freeList rfl
    rcases hrun : pageAlloc { m with outcomes := h.outcomes } with ⟨page, m1⟩
    rcases hrun' : h.pageAlloc with ⟨page', h1⟩
    simp only [hrun, hrun'] at hboth
    obtain ⟨rfl, hpf, hps, hhs, hhm⟩ := hboth
    cases page with
    | zero =>
      left
      refine ⟨hnone, rfl, ?_⟩
      simp only [LinkedHeap.kmalloc, hidx, hnone, hrun']
    | succ n =>
      right
      obtain ⟨-, -, ha⟩ := takeFrom_newSlab (n + 1) hc
      simp only [MiniCore.kmalloc, hidx, Machine.grants, headD_cons, if_true,
        Machine.nextOutcome, tail_cons, hnone', hrun] at hspec
      rcases hspec with ⟨h0, -⟩ | ⟨hne, hst', -, hlv⟩
      · have := mem_slabObjects hc ha
        omega
      have hps' : m1.slabs = m.slabs := hps
      have hpage : IsPage (n + 1) := by
        refine hst'.isPage_of_slab (s := (takeFrom (newSlab (n + 1) c)).2) ?_
        exact List.mem_append.mpr (.inr (List.mem_singleton.mpr rfl))
      obtain ⟨hpop, hfst⟩ := buildSlab_pop h1.mem hpage hc
      -- the old slabs are on other pages than the one that is built
      have hold : Forall₂ (Threads (buildSlab (n + 1) c h1.mem).2) h1.slabs m1.slabs := by
        rw [hhs, hps', hhm]
        refine threads_congr hl.slabs fun t ht b hb => loadLE_congr fun i hi => ?_
        have hpn : t.page ≠ n + 1 := by
          intro heq
          have hnd := hst'.nodup_slabs
          simp only [zeroObject, hps', slabBag_append, nodup_add] at hnd
          refine Multiset.disjoint_left.mp hnd.2.2 (List.mem_map_of_mem ht) ?_
          rw [heq, slabBag_cons]
          exact Multiset.mem_cons_self _ _
        have := (hst.isPage_of_slab ht).disjoint hpage hpn
        have := mem_slabObjects (hst.heap t ht).class_lt ((hst.heap t ht).free_mem hb)
        have := classSize_range (hst.heap t ht).class_lt
        exact buildSlab_frame hc (by omega)
      simp only [LinkedHeap.kmalloc, hidx, hnone, hrun', hfst]
      refine ⟨hne, _, Allocates.of_threads (zeroObject (takeFrom (newSlab (n + 1) c)).1 c
        { m1 with slabs := m1.slabs ++ [(takeFrom (newSlab (n + 1) c)).2] }) hpf
        (rel_append hold (.cons hpop .nil)) hst' hlv ?_ ?_ rfl⟩
      · exact ⟨_, List.mem_append.mpr (.inr (List.mem_singleton.mpr rfl)), rfl, ha⟩
      · rintro d b ⟨t, ht, hs⟩
        exact ⟨t, List.mem_append.mpr (.inl (hps' ▸ ht)), hs⟩
  · right
    simp only [MiniCore.kmalloc, hidx, Machine.grants, headD_cons, if_true, Machine.nextOutcome,
      tail_cons, htake] at hspec
    simp only [LinkedHeap.kmalloc, hidx, hpop]
    obtain ⟨-, -, -, s, hs, hsc, ha⟩ := takeObject_spec hst.heap htake
    rcases hspec with ⟨rfl, -⟩ | ⟨hne, hst', -, hlv⟩
    · have := mem_slabObjects (hst.heap s hs).class_lt ha
      omega
    refine ⟨hne, _, Allocates.of_threads
      (zeroObject a c { m with outcomes := h.outcomes, slabs := slabs' }) hl.freeList hl'
      hst' hlv ?_ ?_ rfl⟩
    · exact takeObject_serves htake hs ⟨hsc, ha⟩
    · rintro d b ⟨t, ht, hsv⟩
      exact takeObject_serves htake ht hsv

/-- **`kfree`** of a live block, run on both heaps. -/
theorem Linked.kfree (hl : Linked h m) (hst : Stocked P m 0) (ha : a ∈ liveBag m.slabs) :
    Linked (h.kfree a) (MiniCore.kfree a m) := by
  obtain ⟨t, ht, hat⟩ := mem_liveBag.mp ha
  have htok := hst.heap t ht
  have hobj := htok.mem_objects hat
  have hrange := mem_slabObjects htok.class_lt hobj
  have hsize := classSize_range htok.class_lt
  have hne : a ≠ 0 := by omega
  have hpage : pageDown a ∈ m.slabs.map Slab.page := by
    rw [htok.pageDown_live (hst.isPage_of_slab ht) hat]
    exact List.mem_map_of_mem ht
  obtain ⟨next, heads', hpush, hnext, hall⟩ := pushObject_threads hl.slabs hst.heap hpage hne
  have hlt : next < 2 ^ 64 := by
    rcases hnext with rfl | ⟨u, hu, hb⟩
    · decide
    have := mem_slabObjects (hst.heap u hu).class_lt ((hst.heap u hu).free_mem hb)
    have := (hst.isPage_of_slab hu).lt
    have := classSize_range (hst.heap u hu).class_lt
    omega
  have hwrite : Forall₂ (Threads (setNextFree h.mem a next)) h.slabs m.slabs := by
    unfold setNextFree storeLE
    exact hst.write_live hl.slabs ha ht hobj (Nat.le_refl a) (by omega)
  have hnew := hall _ hwrite (nextFree_set_self hlt)
  have hk : h.kfree a = LinkedHeap.pageFree (putObject a m.slabs).2
      { h with slabs := heads', mem := setNextFree h.mem a next } := by
    simp only [LinkedHeap.kfree, if_neg hne, hpush]
  rw [hk, MiniCore.kfree, if_neg hne, LinkedHeap.pageFree, pageFree]
  split
  · exact ⟨hl.freeList, hnew⟩
  · exact ⟨congrArg _ hl.freeList, hnew⟩

end

end MiniCore
