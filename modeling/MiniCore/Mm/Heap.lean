import MiniCore.Mm.PageAlloc
import Mathlib.Data.Multiset.AddSub
import Mathlib.Algebra.BigOperators.Group.Multiset.Basic

/-!
# MiniCore.Mm.Heap

The kernel heap (`src/mm/heap.c`): size classes of slabs, one page each.

`classes[c]` is the sublist of `slabs` with class index `c`; pushing a slab at
the end and removing one keep the order the source's per-class lists have.
Slab headers and the links of free objects are kept in `Slab`; what reaches
physical memory is the zeroing of the block `kmalloc` hands out.

The heap is described by its *live* objects (`liveBag`): `kmalloc` adds the
address it returns, `kfree` takes it out again, and the pages held by slabs are
exactly the pages of live objects (`mem_slabBag_iff`).
-/

namespace MiniCore

open Lib Multiset

variable {c : Nat} {rest : Multiset Nat} {m m' : Machine} {P : PagePool}

variable {slabs : List Slab} {a : Nat}

def classSizes : List Nat := [16, 32, 64, 128, 256, 512, 1024, 2048]

def classSize (c : Nat) : Nat := classSizes.getD c 2048

/-- `sizeof(struct slab)` -/
def slabHeader : Nat := 32

/-- Offset of a slab's first object: the header rounded up to the object size. -/
def firstOffset (size : Nat) : Nat := (slabHeader + size - 1) / size * size

/-- The object addresses of a slab, in the order its free list is built. -/
def slabObjects (page size : Nat) : List Nat :=
  (List.range ((pageSize - firstOffset size) / size)).map fun i => page + firstOffset
    size + i * size

/-- `new_slab` on the page just allocated: every object is free, the last one first. -/
def newSlab (page c : Nat) : Slab := ⟨page, c, 0, (slabObjects page (classSize c)).reverse⟩

/-- Pop the first free object of a slab. -/
def takeFrom (slab : Slab) : Nat × Slab :=
  (slab.free.headD 0, { slab with free := slab.free.tail, used := slab.used + 1 })

/-- Pop an object from the first slab of class `c` that has one. -/
def takeObject (c : Nat) : List Slab → Option (Nat × List Slab)
  | [] => none
  | slab :: rest =>
    if slab.classIndex = c ∧ slab.free ≠ [] then
      some ((takeFrom slab).1, (takeFrom slab).2 :: rest)
    else (takeObject c rest).map fun r => (r.1, slab :: r.2)

/-- Push an object back onto the slab of its page.  An emptied slab leaves the
list and its page is returned for freeing; 0 if there is none. -/
def putObject (pointer : Nat) : List Slab → List Slab × Nat
  | [] => ([], 0)
  | slab :: rest =>
    if slab.page = pageDown pointer then
      if slab.used = 0 then (slab :: rest, 0)
      else if slab.used = 1 then (rest, slab.page)
      else ({ slab with free := pointer :: slab.free, used := slab.used - 1 } :: rest, 0)
    else (slab :: (putObject pointer rest).1, (putObject pointer rest).2)

/-- `memset(result, 0, class_sizes[class_index])` -/
def zeroObject (object c : Nat) (m : Machine) : Machine :=
  { m with mem := fill m.mem object (classSize c) fun _ => 0 }

/-- `kmalloc`; 0 on failure. -/
def kmalloc (size : Nat) (m : Machine) : Nat × Machine :=
  match classSizes.findIdx? (max size 1 ≤ ·) with
  | none => (0, m)
  | some c =>
    let m' := m.nextOutcome
    if m.grants then
      match takeObject c m'.slabs with
      | some (object, slabs) => (object, zeroObject object c { m' with slabs := slabs })
      | none =>
        match pageAlloc m' with
        | (0, m'') => (0, m'')
        | (page, m'') =>
          let taken := takeFrom (newSlab page c)
          (taken.1, zeroObject taken.1 c { m'' with slabs := m''.slabs ++ [taken.2] })
    else (0, m')

/-- `kfree`; a null pointer is ignored. -/
def kfree (pointer : Nat) (m : Machine) : Machine :=
  if pointer = 0 then m
  else pageFree (putObject pointer m.slabs).2 { m with slabs := (putObject pointer m.slabs).1 }

/-! ## Slabs -/

namespace Slab

def objects (s : Slab) : List Nat := slabObjects s.page (classSize s.classIndex)

/-- The objects of a slab that are handed out. -/
def live (s : Slab) : Multiset Nat := (s.objects : Multiset Nat) - (s.free : Multiset Nat)

/-- A slab between two heap calls: its free list is made of its own objects and
at least one object is out. -/
structure Ok (s : Slab) : Prop where
  class_lt : s.classIndex < 8
  free_le : (s.free : Multiset Nat) ≤ (s.objects : Multiset Nat)
  used_eq : s.used + s.free.length = s.objects.length
  used_pos : 0 < s.used

end Slab

/-- Pages held by slabs. -/
def slabBag (slabs : List Slab) : Multiset Nat := (slabs.map Slab.page : List Nat)

/-- Addresses of the objects handed out. -/
def liveBag (slabs : List Slab) : Multiset Nat := (slabs.map Slab.live).sum

@[simp] theorem slabBag_nil : slabBag [] = 0 := rfl

@[simp] theorem slabBag_cons (s : Slab) (l : List Slab) :
    slabBag (s :: l) = s.page ::ₘ slabBag l := rfl

@[simp] theorem liveBag_nil : liveBag [] = 0 := rfl

@[simp] theorem liveBag_cons (s : Slab) (l : List Slab) :
    liveBag (s :: l) = s.live + liveBag l := by
  simp [liveBag]

theorem slabBag_append (l l' : List Slab) : slabBag (l ++ l') = slabBag l + slabBag l' := by
  simp [slabBag]

theorem liveBag_append (l l' : List Slab) : liveBag (l ++ l') = liveBag l + liveBag l' := by
  simp [liveBag]

/-! ## Where the objects lie -/

theorem classSize_range (hc : c < 8) : 16 ≤ classSize c ∧ classSize c ≤ 2048 := by
  have hall : ∀ c < 8, 16 ≤ classSize c ∧ classSize c ≤ 2048 := by decide
  exact hall c hc

theorem firstOffset_range (hc : c < 8) :
    32 ≤ firstOffset (classSize c) ∧ firstOffset (classSize c) + classSize c ≤ 4096 := by
  have hall : ∀ c < 8, 32 ≤ firstOffset (classSize c) ∧
      firstOffset (classSize c) + classSize c ≤ 4096 := by decide
  exact hall c hc

/-- An object lies inside its slab's page, behind the header. -/
theorem mem_slabObjects {page : Nat} (hc : c < 8) (h : a ∈ slabObjects page (classSize c)) :
    page + 32 ≤ a ∧ a + classSize c ≤ page + 4096 := by
  obtain ⟨i, hi, rfl⟩ := List.mem_map.mp h
  have hsize := classSize_range hc
  have hfirst := firstOffset_range hc
  have hlt : i + 1 ≤ (pageSize - firstOffset (classSize c)) / classSize c := List.mem_range.mp hi
  have hmul : (i + 1) * classSize c ≤ 4096 - firstOffset (classSize c) :=
    (Nat.le_div_iff_mul_le (by omega)).mp hlt
  rw [Nat.add_mul] at hmul
  constructor <;> omega

theorem slabObjects_ne_nil (page : Nat) (hc : c < 8) : slabObjects page (classSize c) ≠ [] := by
  have hsize := classSize_range hc
  have hfirst := firstOffset_range hc
  have hpos : 1 ≤ (pageSize - firstOffset (classSize c)) / classSize c :=
    (Nat.le_div_iff_mul_le (by omega)).mpr (by unfold pageSize; omega)
  intro hnil
  have hlen := congrArg List.length hnil
  rw [slabObjects, List.length_map, List.length_range, List.length_nil] at hlen
  omega

theorem pageDown_object {page : Nat} (hc : c < 8) (hp : IsPage page)
    (h : a ∈ slabObjects page (classSize c)) : pageDown a = page := by
  have hrange := mem_slabObjects hc h
  have hsize := classSize_range hc
  have := hp.aligned
  rw [pageDown_eq]
  omega

namespace Slab

variable {s : Slab}

theorem Ok.live_add_free (h : s.Ok) :
    s.live + (s.free : Multiset Nat) = (s.objects : Multiset Nat) :=
  Multiset.sub_add_cancel h.free_le

theorem Ok.card_live (h : s.Ok) : card s.live = s.used := by
  have hcard := congrArg card h.live_add_free
  rw [card_add, coe_card, coe_card] at hcard
  have := h.used_eq
  omega

theorem Ok.mem_objects (h : s.Ok) (ha : a ∈ s.live) : a ∈ s.objects := by
  rw [← mem_coe, ← h.live_add_free]
  exact Multiset.mem_add.mpr (.inl ha)

theorem Ok.pageDown_live (h : s.Ok) (hp : IsPage s.page) (ha : a ∈ s.live) : pageDown a = s.page :=
  pageDown_object h.class_lt hp (h.mem_objects ha)

/-- Popping a free object makes it live. -/
theorem takeFrom_ok (hc : s.classIndex < 8) (hle : (s.free : Multiset Nat) ≤ s.objects)
    (hused : s.used + s.free.length = s.objects.length) (hne : s.free ≠ []) :
    (takeFrom s).2.Ok ∧ (takeFrom s).2.live = (takeFrom s).1 ::ₘ s.live ∧
      (takeFrom s).1 ∈ s.objects := by
  cases hf : s.free with
  | nil => exact absurd hf hne
  | cons a rest =>
    have hobj : (takeFrom s).2.objects = s.objects := rfl
    have hfree : (takeFrom s).2.free = rest := by simp [takeFrom, hf]
    have hfst : (takeFrom s).1 = a := by simp [takeFrom, hf]
    rw [hf, ← cons_coe] at hle
    have hrest : (rest : Multiset Nat) ≤ s.objects := (le_cons_self _ _).trans hle
    have hsum : s.live + (a ::ₘ (rest : Multiset Nat)) = (s.objects : Multiset Nat) := by
      unfold live
      rw [hf, ← cons_coe]
      exact Multiset.sub_add_cancel hle
    refine ⟨⟨hc, ?_, ?_, ?_⟩, ?_, ?_⟩
    · rw [hfree, hobj]
      exact hrest
    · rw [hfree, hobj, ← hused, hf, List.length_cons]
      show s.used + 1 + rest.length = _
      omega
    · exact Nat.succ_pos _
    · have hlive : (takeFrom s).2.live = (s.objects : Multiset Nat) - (rest : Multiset Nat) := by
        unfold live
        rw [hobj, hfree]
      rw [hlive, hfst, ← hsum, add_cons, ← cons_add]
      exact Multiset.add_sub_cancel_right
    · rw [hfst, ← mem_coe, ← hsum]
      exact Multiset.mem_add.mpr (.inr (Multiset.mem_cons_self _ _))

/-- Pushing a live object back, from a slab with another one out. -/
theorem Ok.put (h : s.Ok) (ha : a ∈ s.live) (h1 : s.used ≠ 1) :
    ({ s with free := a :: s.free, used := s.used - 1 } : Slab).Ok ∧
      s.live = a ::ₘ ({ s with free := a :: s.free, used := s.used - 1 } : Slab).live := by
  obtain ⟨l, hl⟩ := exists_cons_of_mem ha
  have hsum : l + (a ::ₘ (s.free : Multiset Nat)) = (s.objects : Multiset Nat) := by
    rw [← h.live_add_free, hl, add_cons, cons_add]
  have hpos := h.used_pos
  have heq := h.used_eq
  have hnew : ({ s with free := a :: s.free, used := s.used - 1 } : Slab).live = l := by
    show (s.objects : Multiset Nat) - ((a :: s.free : List Nat) : Multiset Nat) = l
    rw [← cons_coe, ← hsum]
    exact Multiset.add_sub_cancel_right
  refine ⟨⟨h.class_lt, ?_, ?_, ?_⟩, ?_⟩
  · show ((a :: s.free : List Nat) : Multiset Nat) ≤ (s.objects : Multiset Nat)
    rw [← cons_coe, ← hsum]
    exact Multiset.le_add_left _ _
  · show s.used - 1 + (a :: s.free).length = s.objects.length
    rw [List.length_cons]
    omega
  · show 0 < s.used - 1
    omega
  · rw [hnew, hl]

/-- The last live object of a slab is all that is live in it. -/
theorem Ok.live_of_used_one (h : s.Ok) (ha : a ∈ s.live) (h1 : s.used = 1) : s.live = {a} := by
  obtain ⟨b, hb⟩ := Multiset.card_eq_one.mp (h.card_live.trans h1)
  rw [hb, Multiset.mem_singleton] at ha
  rw [hb, ha]

end Slab

/-! ## The heap -/

/-- Every slab is well formed. -/
def HeapOk (slabs : List Slab) : Prop := ∀ s ∈ slabs, s.Ok

/-- **The pages held by the heap are the pages of its live objects.** -/
theorem mem_slabBag_iff (h : HeapOk slabs) (hpage : ∀ p ∈ slabBag slabs, IsPage p) {p : Nat} :
    p ∈ slabBag slabs ↔ ∃ a ∈ liveBag slabs, pageDown a = p := by
  induction slabs with
  | nil => simp
  | cons s rest ih =>
    have hs := h s (List.mem_cons_self)
    have hsp := hpage s.page (by simp)
    have hrest := ih (fun x hx => h x (List.mem_cons_of_mem _ hx))
      (fun q hq => hpage q (by simp [hq]))
    have hpos : 0 < card s.live := by
      rw [hs.card_live]
      exact hs.used_pos
    obtain ⟨a, ha⟩ := Multiset.card_pos_iff_exists_mem.mp hpos
    rw [slabBag_cons, Multiset.mem_cons, hrest, liveBag_cons]
    constructor
    · rintro (rfl | ⟨b, hb, hbp⟩)
      · exact ⟨a, Multiset.mem_add.mpr (.inl ha), hs.pageDown_live hsp ha⟩
      · exact ⟨b, Multiset.mem_add.mpr (.inr hb), hbp⟩
    rintro ⟨b, hb, hbp⟩
    rcases Multiset.mem_add.mp hb with hb | hb
    · exact .inl (hbp.symm.trans (hs.pageDown_live hsp hb))
    · exact .inr ⟨b, hb, hbp⟩

theorem takeObject_spec {slabs' : List Slab} (h : HeapOk slabs)
    (ht : takeObject c slabs = some (a, slabs')) :
    HeapOk slabs' ∧ liveBag slabs' = a ::ₘ liveBag slabs ∧ slabBag slabs' = slabBag slabs ∧
      ∃ s ∈ slabs, s.classIndex = c ∧ a ∈ s.objects := by
  induction slabs generalizing slabs' with
  | nil => simp [takeObject] at ht
  | cons s rest ih =>
    have hs := h s (List.mem_cons_self)
    have hrest : HeapOk rest := fun x hx => h x (List.mem_cons_of_mem _ hx)
    rw [takeObject] at ht
    by_cases hc : s.classIndex = c ∧ s.free ≠ []
    · rw [if_pos hc] at ht
      cases ht
      obtain ⟨hok, hlive, hmem⟩ := Slab.takeFrom_ok hs.class_lt hs.free_le hs.used_eq hc.2
      refine ⟨?_, ?_, rfl, s, List.mem_cons_self, hc.1, hmem⟩
      · intro x hx
        rcases List.mem_cons.mp hx with rfl | hx
        · exact hok
        · exact hrest x hx
      · rw [liveBag_cons, liveBag_cons, hlive, cons_add]
    rw [if_neg hc] at ht
    obtain ⟨⟨b, rest'⟩, hr, hb⟩ := Option.map_eq_some_iff.mp ht
    cases hb
    obtain ⟨hok, hlive, hbag, x, hx, hxc, hxa⟩ := ih hrest hr
    refine ⟨?_, ?_, ?_, x, List.mem_cons_of_mem _ hx, hxc, hxa⟩
    · intro y hy
      rcases List.mem_cons.mp hy with rfl | hy
      · exact hs
      · exact hok y hy
    · rw [liveBag_cons, liveBag_cons, hlive, add_cons]
    · rw [slabBag_cons, slabBag_cons, hbag]

theorem putObject_spec (h : HeapOk slabs) (hpage : ∀ p ∈ slabBag slabs, IsPage p)
    (hnd : (slabBag slabs).Nodup) (ha : a ∈ liveBag slabs) :
    HeapOk (putObject a slabs).1 ∧ liveBag slabs = a ::ₘ liveBag (putObject a slabs).1 ∧
      ((putObject a slabs).2 = 0 ∧ slabBag (putObject a slabs).1 = slabBag slabs ∨
       IsPage (putObject a slabs).2 ∧
         slabBag slabs = (putObject a slabs).2 ::ₘ slabBag (putObject a slabs).1) := by
  induction slabs with
  | nil => simp at ha
  | cons s rest ih =>
    have hs := h s (List.mem_cons_self)
    have hsp := hpage s.page (by simp)
    have hrest : HeapOk rest := fun x hx => h x (List.mem_cons_of_mem _ hx)
    rw [slabBag_cons, Multiset.nodup_cons] at hnd
    have hpages : ∀ p ∈ slabBag rest, IsPage p := fun q hq => hpage q (by simp [hq])
    rw [liveBag_cons, mem_add] at ha
    rw [putObject]
    by_cases hp : s.page = pageDown a
    · -- the object belongs to this slab: any other slab is on another page
      have hlive : a ∈ s.live := by
        rcases ha with ha | ha
        · exact ha
        · exact absurd ((mem_slabBag_iff hrest hpages).mpr ⟨a, ha, hp.symm⟩) hnd.1
      have hpos := hs.used_pos
      rw [if_pos hp, if_neg (by omega)]
      by_cases h1 : s.used = 1
      · rw [if_pos h1]
        refine ⟨hrest, ?_, .inr ⟨hsp, rfl⟩⟩
        rw [liveBag_cons, hs.live_of_used_one hlive h1, singleton_add]
      rw [if_neg h1]
      obtain ⟨hok, hl⟩ := hs.put hlive h1
      refine ⟨?_, ?_, .inl ⟨rfl, rfl⟩⟩
      · intro x hx
        rcases List.mem_cons.mp hx with rfl | hx
        · exact hok
        · exact hrest x hx
      · rw [liveBag_cons, liveBag_cons, hl, cons_add]
    · have ha' : a ∈ liveBag rest := by
        rcases ha with ha | ha
        · exact absurd (hs.pageDown_live hsp ha).symm hp
        · exact ha
      obtain ⟨hok, hl, hb⟩ := ih hrest hpages hnd.2 ha'
      rw [if_neg hp]
      refine ⟨?_, ?_, ?_⟩
      · intro x hx
        rcases List.mem_cons.mp hx with rfl | hx
        · exact hs
        · exact hok x hx
      · rw [liveBag_cons, liveBag_cons, hl, add_cons]
      · rcases hb with ⟨h0, hb⟩ | ⟨hisp, hb⟩
        · exact .inl ⟨h0, by rw [slabBag_cons, slabBag_cons, hb]⟩
        · refine .inr ⟨hisp, ?_⟩
          rw [slabBag_cons, slabBag_cons, hb, cons_swap]

/-! ## Allocator and heap against a pool of pages -/

/-- Pages on the free list or under a slab. -/
def Machine.stock (m : Machine) : Multiset Nat := (m.freeList : Multiset Nat) + slabBag m.slabs

/-- The heap is well formed, and the free pages, the heap's pages and the pages
`rest` held by everyone else make up the pool. -/
structure Stocked (P : PagePool) (m : Machine) (rest : Multiset Nat) : Prop where
  heap : HeapOk m.slabs
  pool : m.stock + rest = P.pages
  clean : ∀ e ∈ m.frees, e.2 = false

/-- The pages `rest` keep their contents and are not freed. -/
structure Keeps (rest : Multiset Nat) (m m' : Machine) : Prop where
  bytes : ∀ p ∈ rest, Set.EqOn m'.mem m.mem (pageBytes p)
  frees : ∀ e ∈ m'.frees, e ∈ m.frees ∨ e.1 ∉ rest

namespace Keeps

variable {m'' : Machine}

theorem of_bytes (h : ∀ p ∈ rest, Set.EqOn m'.mem m.mem (pageBytes p))
    (hf : m'.frees = m.frees) : Keeps rest m m' :=
  ⟨h, fun _ he => .inl (hf ▸ he)⟩

theorem of_eq (h : m'.mem = m.mem) (hf : m'.frees = m.frees) : Keeps rest m m' :=
  of_bytes (fun _ _ => h ▸ Set.eqOn_refl _ _) hf

theorem of_same (h : m.Same m') : Keeps rest m m' := of_eq h.mem h.frees

theorem refl (rest : Multiset Nat) (m : Machine) : Keeps rest m m := of_eq rfl rfl

theorem trans (h : Keeps rest m m') (h' : Keeps rest m' m'') : Keeps rest m m'' := by
  refine ⟨fun p hp => (h'.bytes p hp).trans (h.bytes p hp), ?_⟩
  intro e he
  rcases h'.frees e he with he | hout
  · exact h.frees e he
  · exact .inr hout

theorem mono {rest' : Multiset Nat} (h : Keeps rest m m') (hle : rest' ≤ rest) :
    Keeps rest' m m' := by
  refine ⟨fun p hp => h.bytes p (mem_of_le hle hp), ?_⟩
  intro e he
  rcases h.frees e he with he | hout
  · exact .inl he
  · exact .inr fun hin => hout (mem_of_le hle hin)

theorem part {own : Multiset Nat} (h : Keeps (own + rest) m m') : Keeps rest m m' :=
  h.mono (Multiset.le_add_left _ _)

end Keeps

namespace Stocked

section

variable (h : Stocked P m rest)

include h

/-- Memory contents do not matter to the pool. -/
theorem congr (hf : m'.freeList = m.freeList) (hs : m'.slabs = m.slabs)
    (hl : m'.frees = m.frees) : Stocked P m' rest :=
  ⟨by rw [hs]; exact h.heap, by rw [Machine.stock, hf, hs]; exact h.pool, by rw [hl]; exact h.clean⟩

theorem of_same (hs : m.Same m') : Stocked P m' rest :=
  h.congr hs.freeList hs.slabs hs.frees

/-- A page somebody holds is not free. -/
theorem not_free (hp : p ∈ rest) : p ∉ m.freeList := fun hf =>
  Multiset.disjoint_left.mp (Multiset.nodup_add.mp (h.pool ▸ P.nodup)).2.2
    (Multiset.mem_add.mpr (.inl (Multiset.mem_coe.mpr hf))) hp

theorem isPage_of_mem (hp : p ∈ rest) : IsPage p :=
  P.isPage p (h.pool ▸ Multiset.mem_add.mpr (.inr hp))

theorem nodup_rest : rest.Nodup :=
  (Multiset.nodup_add.mp (h.pool ▸ P.nodup)).2.1

theorem isPage_slab (hp : p ∈ slabBag m.slabs) : IsPage p :=
  P.isPage p (h.pool ▸ Multiset.mem_add.mpr (.inl (Multiset.mem_add.mpr (.inr hp))))

theorem nodup_slabs : (slabBag m.slabs).Nodup :=
  (Multiset.nodup_add.mp (Multiset.nodup_add.mp (h.pool ▸ P.nodup)).1).2.1

/-- No page of the heap is held by anyone else. -/
theorem slab_not_mem (hp : p ∈ slabBag m.slabs) : p ∉ rest := fun hr =>
  Multiset.disjoint_left.mp (Multiset.nodup_add.mp (h.pool ▸ P.nodup)).2.2
    (Multiset.mem_add.mpr (.inr hp)) hr

/-- A page of the pool is free if neither the heap nor anyone else has it. -/
theorem mem_freeList : p ∈ m.freeList ↔ p ∈ P.pages ∧ p ∉ slabBag m.slabs ∧ p ∉ rest := by
  have hnd := Multiset.nodup_add.mp (h.pool ▸ P.nodup)
  have hdisj : p ∈ (m.freeList : Multiset Nat) → p ∉ slabBag m.slabs :=
    fun hf => Multiset.disjoint_left.mp (Multiset.nodup_add.mp hnd.1).2.2 hf
  rw [← h.pool, Machine.stock, mem_add, mem_add, mem_coe]
  constructor
  · intro hf
    exact ⟨.inl (.inl hf), hdisj (Multiset.mem_coe.mpr hf), fun hr => h.not_free hr hf⟩
  rintro ⟨(hf | hs) | hr, hns, hnr⟩
  · exact hf
  · exact absurd hs hns
  · exact absurd hr hnr

/-- The pages of the heap are decided by its live objects, so two states with
the same holders and the same live objects have the same free pages. -/
theorem mem_freeList_iff (h' : Stocked P m' rest)
    (hl : liveBag m'.slabs = liveBag m.slabs) : p ∈ m'.freeList ↔ p ∈ m.freeList := by
  have hslab : p ∈ slabBag m'.slabs ↔ p ∈ slabBag m.slabs := by
    rw [mem_slabBag_iff h'.heap fun q hq => h'.isPage_slab hq,
      mem_slabBag_iff h.heap fun q hq => h.isPage_slab hq, hl]
  rw [h.mem_freeList, h'.mem_freeList, hslab]

end

/-- Pages given up, while no object was handed out, are free. -/
theorem mem_freeList_of_given {given : Multiset Nat} (h : Stocked P m (given + rest))
    (h' : Stocked P m' rest) (hle : liveBag m'.slabs ≤ liveBag m.slabs) (hp : p ∈ given) :
    p ∈ m'.freeList := by
  have hheld : p ∈ given + rest := Multiset.mem_add.mpr (.inl hp)
  refine h'.mem_freeList.mpr ⟨h.pool ▸ Multiset.mem_add.mpr (.inr hheld), fun hslab => ?_, ?_⟩
  · obtain ⟨a, ha, hpage⟩ := (mem_slabBag_iff h'.heap fun q hq => h'.isPage_slab hq).mp hslab
    have hold := (mem_slabBag_iff h.heap fun q hq => h.isPage_slab hq).mpr
      ⟨a, mem_of_le hle ha, hpage⟩
    exact h.slab_not_mem hold hheld
  · exact Multiset.disjoint_left.mp (Multiset.nodup_add.mp h.nodup_rest).2.2 hp

end Stocked

/-- `page_alloc` fails and changes nothing, or hands one page of the pool over. -/
theorem pageAlloc_spec (h : Stocked P m rest) : ((pageAlloc m).1 = 0 ∧ m.Same (pageAlloc m).2) ∨
    (IsPage (pageAlloc m).1 ∧ Stocked P (pageAlloc m).2 ((pageAlloc m).1 ::ₘ rest) ∧
      (pageAlloc m).2.mem = m.mem ∧ (pageAlloc m).2.slabs = m.slabs ∧
      (pageAlloc m).2.frees = m.frees) := by
  rcases pageAlloc_cases m with hfail | ⟨page, free, hfree, heq⟩
  · exact .inl hfail
  right
  rw [heq]
  have hpool : ({ m.nextOutcome with freeList := free } : Machine).stock + (page ::ₘ rest) =
      P.pages := by
    rw [← h.pool, Machine.stock, Machine.stock, hfree, ← cons_coe, add_cons,
      cons_add, cons_add]
    rfl
  refine ⟨?_, ⟨h.heap, hpool, h.clean⟩, rfl, rfl, rfl⟩
  exact P.isPage page (hpool ▸ Multiset.mem_add.mpr (.inr (Multiset.mem_cons_self _ _)))

/-- `page_free` takes a page back. -/
theorem pageFree_spec (h : Stocked P m (p ::ₘ rest)) :
    Stocked P (pageFree p m) rest ∧ (pageFree p m).mem = m.mem ∧
      (pageFree p m).slabs = m.slabs ∧ Keeps rest m (pageFree p m) := by
  have hp : IsPage p := h.isPage_of_mem (Multiset.mem_cons_self _ _)
  have hnf : p ∉ m.freeList := h.not_free (Multiset.mem_cons_self _ _)
  have hnr : p ∉ rest := (Multiset.nodup_cons.mp h.nodup_rest).1
  rw [pageFree_of_isPage hp]
  refine ⟨⟨h.heap, ?_, ?_⟩, rfl, rfl, ⟨fun q _ => Set.eqOn_refl _ _, ?_⟩⟩
  · rw [← h.pool, Machine.stock, Machine.stock, add_cons]
    show ((p :: m.freeList : List Nat) : Multiset Nat) + slabBag m.slabs + rest = _
    rw [← cons_coe, cons_add, cons_add]
  · intro e he
    rcases List.mem_cons.mp he with rfl | he
    · simp [hnf]
    · exact h.clean e he
  · intro e he
    rcases List.mem_cons.mp he with rfl | he
    · exact .inr hnr
    · exact .inl he

theorem classIndex_lt {size : Nat} (h : classSizes.findIdx? (max size 1 ≤ ·) = some c) : c < 8 := by
  have hlt := (List.findIdx?_eq_some_iff_getElem.mp h).1
  simpa [classSizes] using hlt

/-- Zeroing an object of a slab touches that slab's page only. -/
theorem Stocked.zeroObject {page a : Nat} (h : Stocked P m rest) (hs : page ∈ slabBag m.slabs)
    (hc : c < 8) (ha : a ∈ slabObjects page (classSize c)) :
    a ≠ 0 ∧ Stocked P (zeroObject a c m) rest ∧ Keeps rest m (zeroObject a c m) := by
  obtain ⟨hlo, hhi⟩ := mem_slabObjects hc ha
  refine ⟨by omega, ⟨h.heap, h.pool, h.clean⟩, Keeps.of_bytes (fun p hp => ?_) rfl⟩
  have hne : p ≠ page := fun heq => h.slab_not_mem hs (heq ▸ hp)
  show Set.EqOn (fill m.mem a (classSize c) fun _ => 0) m.mem (pageBytes p)
  exact eqOn_fill_page (h.isPage_slab hs) (h.isPage_of_mem hp) hne
    (Nat.le_trans (Nat.le_add_right _ _) hlo) hhi

theorem newSlab_free_ne_nil (page : Nat) (hc : c < 8) : (newSlab page c).free ≠ [] := by
  intro hnil
  exact slabObjects_ne_nil page hc (List.reverse_eq_nil_iff.mp hnil)

/-- A new slab with its first object popped. -/
theorem takeFrom_newSlab (page : Nat) (hc : c < 8) : (takeFrom (newSlab page c)).2.Ok ∧
      (takeFrom (newSlab page c)).2.live = {(takeFrom (newSlab page c)).1} ∧
      (takeFrom (newSlab page c)).1 ∈ slabObjects page (classSize c) := by
  have hfree : ((newSlab page c).free : Multiset Nat) = ((newSlab page c).objects : Multiset Nat) :=
    coe_reverse _
  have hused : (newSlab page c).used + (newSlab page c).free.length =
      (newSlab page c).objects.length := by
    rw [← coe_card, ← coe_card, hfree]
    exact Nat.zero_add _
  obtain ⟨hok, hlive, hmem⟩ := Slab.takeFrom_ok hc hfree.le hused (newSlab_free_ne_nil page hc)
  have hnone : (newSlab page c).live = 0 := by
    rw [Slab.live, hfree]
    exact Multiset.le_zero.mp (Multiset.sub_le_iff_le_add.mpr (Multiset.zero_add _).ge)
  refine ⟨hok, ?_, hmem⟩
  rw [hlive, hnone]
  rfl

/-- **`kmalloc`** fails and changes nothing, or adds one live object. -/
theorem kmalloc_spec (h : Stocked P m rest) (size : Nat) :
    ((kmalloc size m).1 = 0 ∧ m.Same (kmalloc size m).2) ∨
    ((kmalloc size m).1 ≠ 0 ∧ Stocked P (kmalloc size m).2 rest ∧
      Keeps rest m (kmalloc size m).2 ∧
      liveBag (kmalloc size m).2.slabs = (kmalloc size m).1 ::ₘ liveBag m.slabs) := by
  unfold kmalloc
  cases hidx : classSizes.findIdx? (max size 1 ≤ ·) with
  | none => exact .inl ⟨rfl, rfl, rfl, rfl, rfl⟩
  | some c =>
    have hc := classIndex_lt hidx
    by_cases hg : m.grants = true
    · simp only [hg, if_true]
      cases ht : takeObject c m.nextOutcome.slabs with
      | some r =>
        obtain ⟨a, slabs⟩ := r
        obtain ⟨hok, hlive, hbag, s, hs, hsc, ha⟩ := takeObject_spec h.heap ht
        have hst : Stocked P { m.nextOutcome with slabs := slabs } rest := by
          refine ⟨hok, ?_, h.clean⟩
          rw [← h.pool, Machine.stock, Machine.stock]
          show _ + slabBag slabs + rest = _
          rw [hbag]
          rfl
        have hsp : s.page ∈ slabBag slabs := by
          rw [hbag]
          exact List.mem_map_of_mem hs
        rw [Slab.objects, hsc] at ha
        obtain ⟨hne, hst', hk⟩ := hst.zeroObject hsp hc ha
        exact .inr ⟨hne, hst', ⟨hk.bytes, hk.frees⟩, hlive⟩
      | none =>
        have hpage := pageAlloc_spec (h.of_same ⟨rfl, rfl, rfl, rfl⟩ : Stocked P m.nextOutcome rest)
        generalize pageAlloc m.nextOutcome = r at hpage ⊢
        obtain ⟨page, m''⟩ := r
        rcases hpage with ⟨rfl, hsame⟩ | ⟨hpage, hst, hmem, hslabs, hfrees⟩
        · exact .inl ⟨rfl, hsame.mem, hsame.freeList, hsame.slabs, hsame.frees⟩
        obtain ⟨n, rfl⟩ := Nat.exists_eq_succ_of_ne_zero hpage.ne_zero
        obtain ⟨hok, hlive, ha⟩ := takeFrom_newSlab (n + 1) hc
        have hst' : Stocked P { m'' with
            slabs := m''.slabs ++ [(takeFrom (newSlab (n + 1) c)).2] } rest := by
          refine ⟨?_, ?_, hst.clean⟩
          · intro x hx
            rcases List.mem_append.mp hx with hx | hx
            · exact hst.heap x hx
            · rw [List.mem_singleton] at hx
              exact hx ▸ hok
          · rw [← hst.pool, Machine.stock, Machine.stock]
            show _ + slabBag (m''.slabs ++ [(takeFrom (newSlab (n + 1) c)).2]) + rest = _
            rw [slabBag_append, slabBag_cons, slabBag_nil, add_cons, add_cons, add_cons, cons_add,
              add_zero]
            rfl
        have hsp : n + 1 ∈ slabBag (m''.slabs ++ [(takeFrom (newSlab (n + 1) c)).2]) := by
          rw [slabBag_append, slabBag_cons]
          exact Multiset.mem_add.mpr (.inr (Multiset.mem_cons_self _ _))
        obtain ⟨hne, hst', hk⟩ := hst'.zeroObject hsp hc ha
        refine .inr ⟨hne, hst', .trans (.of_eq hmem hfrees) ⟨hk.bytes, hk.frees⟩, ?_⟩
        show liveBag (m''.slabs ++ [(takeFrom (newSlab (n + 1) c)).2]) = _
        rw [liveBag_append, liveBag_cons, liveBag_nil, hlive, hslabs, add_zero, add_comm,
          singleton_add]
        rfl
    · simp only [hg]
      exact .inl ⟨rfl, rfl, rfl, rfl, rfl⟩

/-- **`kfree`** of a live object takes it out and leaves the pages of others alone. -/
theorem kfree_spec (h : Stocked P m rest) {objs : Multiset Nat}
    (hobjs : liveBag m.slabs = a ::ₘ objs) :
    Stocked P (kfree a m) rest ∧ liveBag (kfree a m).slabs = objs ∧ Keeps rest m (kfree a m) := by
  have ha : a ∈ liveBag m.slabs := hobjs ▸ Multiset.mem_cons_self _ _
  obtain ⟨hok, hlive, hbag⟩ :=
    putObject_spec h.heap (fun p hp => h.isPage_slab hp) h.nodup_slabs ha
  rw [hobjs, Multiset.cons_inj_right] at hlive
  have hne : a ≠ 0 := by
    -- an object lies behind the header of a slab
    intro h0
    obtain ⟨p, hp, hap⟩ : ∃ p ∈ slabBag m.slabs, pageDown a = p :=
      ⟨_, (mem_slabBag_iff h.heap fun p hp => h.isPage_slab hp).mpr ⟨a, ha, rfl⟩, rfl⟩
    rw [h0] at hap
    exact (h.isPage_slab hp).ne_zero hap.symm
  rw [kfree, if_neg hne]
  rcases hbag with ⟨h0, hbag⟩ | ⟨hisp, hbag⟩
  · have hfree : pageFree 0 { m with slabs := (putObject a m.slabs).1 } =
        { m with slabs := (putObject a m.slabs).1 } := by
      simp [pageFree]
    rw [h0, hfree]
    refine ⟨⟨hok, ?_, h.clean⟩, hlive.symm, Keeps.of_eq rfl rfl⟩
    rw [← h.pool, Machine.stock, Machine.stock, ← hbag]
  have hst : Stocked P { m with slabs := (putObject a m.slabs).1 }
      ((putObject a m.slabs).2 ::ₘ rest) := by
    refine ⟨hok, ?_, h.clean⟩
    rw [← h.pool, Machine.stock, Machine.stock, hbag, add_cons, add_cons,
      cons_add]
  obtain ⟨hst', -, hslabs, hkeep⟩ := pageFree_spec hst
  exact ⟨hst', hslabs ▸ hlive.symm, hkeep.bytes, hkeep.frees⟩

end MiniCore
