import MiniCore.Mm.AddressSpace
import MiniCore.Mm.VmReclaim

/-!
# MiniCore.Mm.Ownership

Who owns which page while an address space is worked on.

`Owned P m as t shared rest objs` says that the struct `as` is sound in the
machine `m`: its table is the tight `Radix` table `t`, the leaves of `t` are the
mapped pages of its ledger, and the pages of the pool are the allocator's, those
of `t`, those of the ledger, and `rest`, which belong to others; likewise the
heap's live objects are its records and `objs`.

Each call of `MiniCore.Mm.AddressSpace` that touches pages gets one lemma: it
leads from `Owned` to `Owned` and keeps what it does not work on.
-/

namespace MiniCore

open Lib List Multiset

variable {P : PagePool} {m m' : Machine} {t : Radix} {shared : Nat → Nat} {rest objs : Multiset Nat}
  {as as' : AddressSpace} {ok : Bool} {page : UserPage}

/-! ## A table beside the allocators -/

namespace Tabled

variable {p : Nat}

theorem of_same (h : Tabled P m t shared rest) (hs : m.Same m') : Tabled P m' t shared rest :=
  h.congr (h.stock.of_same hs) fun _ _ => hs.mem ▸ Set.eqOn_refl _ _

theorem kmalloc (h : Tabled P m t shared rest) {size ptr : Nat}
    (hrun : kmalloc size m = (ptr, m')) :
    (ptr = 0 ∧ m.Same m') ∨ (ptr ≠ 0 ∧ Tabled P m' t shared rest ∧ Keeps rest m m' ∧
      liveBag m'.slabs = ptr ::ₘ liveBag m.slabs) := by
  have hspec := kmalloc_spec h.stock size
  rw [hrun] at hspec
  rcases hspec with hfail | ⟨hne, hst, hk, hlive⟩
  · exact .inl hfail
  · refine .inr ⟨hne, h.congr hst ?_, hk.part, hlive⟩
    exact (hk.mono (Multiset.le_add_right _ _)).bytes

theorem kfree (h : Tabled P m t shared rest) {a : Nat} {objs : Multiset Nat}
    (hlive : liveBag m.slabs = a ::ₘ objs) : Tabled P (kfree a m) t shared rest ∧
      Keeps rest m (kfree a m) ∧ liveBag (MiniCore.kfree a m).slabs = objs := by
  obtain ⟨hst, hlive', hk⟩ := kfree_spec h.stock hlive
  refine ⟨h.congr hst ?_, hk.part, hlive'⟩
  exact (hk.mono (Multiset.le_add_right _ _)).bytes

theorem pageAlloc (h : Tabled P m t shared rest) (hrun : pageAlloc m = (p, m')) :
    (p = 0 ∧ m.Same m') ∨
    (IsPage p ∧ Tabled P m' t shared (p ::ₘ rest) ∧ Keeps rest m m' ∧ m'.slabs = m.slabs) := by
  have hspec := pageAlloc_spec h.stock
  rw [hrun] at hspec
  rcases hspec with hfail | ⟨hp, hst, hmem, hslabs, hfrees⟩
  · exact .inl hfail
  refine .inr ⟨hp, h.congr ?_ ?_, Keeps.of_eq hmem hfrees, hslabs⟩
  · rwa [add_cons]
  · have hmem' : m'.mem = m.mem := hmem
    exact fun _ _ => hmem' ▸ Set.eqOn_refl _ _

theorem pageFree (h : Tabled P m t shared (p ::ₘ rest)) :
    Tabled P (pageFree p m) t shared rest ∧ Keeps rest m (pageFree p m) ∧
      (pageFree p m).slabs = m.slabs := by
  have hst := h.stock
  rw [add_cons] at hst
  obtain ⟨hst', hmem, hslabs, hk⟩ := pageFree_spec hst
  exact ⟨h.congr hst' fun _ _ => hmem ▸ Set.eqOn_refl _ _,
    hk.part, hslabs⟩

/-- Free a page and a heap object. -/
theorem free {ptr : Nat} {objs : Multiset Nat} (h : Tabled P m t shared (p ::ₘ rest))
    (hlive : liveBag m.slabs = ptr ::ₘ objs) :
    Tabled P (MiniCore.kfree ptr (MiniCore.pageFree p m)) t shared rest ∧
      Keeps rest m (MiniCore.kfree ptr (MiniCore.pageFree p m)) ∧
      liveBag (MiniCore.kfree ptr (MiniCore.pageFree p m)).slabs = objs := by
  obtain ⟨h1, hk1, hs1⟩ := h.pageFree
  rw [← hs1] at hlive
  obtain ⟨h2, hk2, hl2⟩ := h1.kfree hlive
  exact ⟨h2, hk1.trans hk2, hl2⟩

/-- Write into a page that is nobody's yet. -/
theorem write {a n : Nat} {f : Nat → UInt8} (h : Tabled P m t shared (p ::ₘ rest)) (ha : p ≤ a)
    (hn : a + n ≤ p + 4096) :
    Tabled P (m.write a n f) t shared (p ::ₘ rest) ∧ Keeps rest m (m.write a n f) := by
  have hp : IsPage p := h.isPage_rest (Multiset.mem_cons_self _ _)
  have hnd := Multiset.nodup_cons.mp (Multiset.nodup_add.mp h.stock.nodup_rest).2.1
  constructor
  · refine h.congr (h.stock.congr rfl rfl rfl) fun q hq => ?_
    exact eqOn_fill_page hp (h.isPage hq) (h.rest_ne hq (Multiset.mem_cons_self _ _)).symm ha hn
  refine Keeps.of_bytes (fun q hq => ?_) rfl
  have hqp : q ≠ p := fun heq => hnd.1 (heq ▸ hq)
  exact eqOn_fill_page hp (h.isPage_rest (Multiset.mem_cons_of_mem hq)) hqp ha hn

end Tabled

/-! ## Sound address spaces -/

namespace AddressSpace

/-- The physical pages on the ledger. -/
def physicals (as : AddressSpace) : Multiset Nat := (as.pages.map UserPage.physical : List Nat)

/-- The heap objects of the ledger and of the reservations. -/
def records (as : AddressSpace) : Multiset Nat :=
  ((as.pages.map UserPage.ptr : List Nat) : Multiset Nat) + (as.areas.map VmArea.ptr : List Nat)

end AddressSpace

/-- What `address_space_add_page` checks before it takes a page in. -/
structure PageOk (p : UserPage) : Prop where
  lt : p.virtualAddress < 2 ^ 38
  aligned : p.virtualAddress % 4096 = 0
  user : p.flags &&& pteU ≠ 0
  valid : mapped p.flags = true → validLeafFlags p.flags = true

/-- The leaves of a table are the mapped pages of a ledger. -/
structure Leaves (t : Radix) (pages : List UserPage) : Prop where
  of_page : ∀ p ∈ pages, mapped p.flags = true →
    t.leaf (p.virtualAddress / 4096) = leafPte p.physical p.flags
  page_of : ∀ v, t.leaf v ≠ 0 → ∃ p ∈ pages, mapped p.flags = true ∧ p.virtualAddress / 4096 = v

structure Owned (P : PagePool) (m : Machine) (as : AddressSpace) (t : Radix) (shared : Nat → Nat)
    (rest objs : Multiset Nat) : Prop where
  tabled : Tabled P m t shared (as.physicals + rest)
  root_eq : t.root = as.root
  width : t.width = 256
  tight : t.Tight
  leaves : Leaves t as.pages
  page_ok : ∀ p ∈ as.pages, PageOk p
  live : liveBag m.slabs = as.records + objs

/-- Two tables have the same leaf for a page that is on both ledgers or on none. -/
theorem Leaves.leaf_eq_of {t t' : Radix} {pages pages' : List UserPage} {v : Nat}
    (h : Leaves t pages) (h' : Leaves t' pages') (hsame : ∀ p, p.virtualAddress / 4096 = v →
      (p ∈ pages ↔ p ∈ pages')) : t.leaf v = t'.leaf v := by
  by_cases hv : t.leaf v = 0
  · by_contra hne
    have hv' : t'.leaf v ≠ 0 := fun h0 => hne (hv.trans h0.symm)
    obtain ⟨p, hp, hm, rfl⟩ := h'.page_of v hv'
    rw [h.of_page p ((hsame p rfl).mpr hp) hm, h'.of_page p hp hm] at hne
    exact hne rfl
  · obtain ⟨p, hp, hm, rfl⟩ := h.page_of v hv
    rw [h.of_page p hp hm, h'.of_page p ((hsame p rfl).mp hp) hm]

theorem Leaves.leaf_eq {t t' : Radix} {pages : List UserPage} (h : Leaves t pages)
    (h' : Leaves t' pages) : t.leaf = t'.leaf :=
  funext fun _ => h.leaf_eq_of h' fun _ _ => Iff.rfl

theorem vpn_page {p : UserPage} (hp : PageOk p) : vpn p.virtualAddress = p.virtualAddress / 4096 :=
  vpn_of_lt hp.lt

theorem vpn_root_lt {address : Nat} (h : address < 2 ^ 38) : vpn address / 512 / 512 < 256 := by
  rw [vpn_of_lt h]
  omega

/-- The space with one more page on its ledger. -/
def AddressSpace.push (as : AddressSpace) (p : UserPage) : AddressSpace :=
  { as with pages := as.pages ++ [p] }

theorem AddressSpace.physicals_push (as : AddressSpace) (p : UserPage) :
    (as.push p).physicals = p.physical ::ₘ as.physicals := by
  simp only [physicals, push, map_append, ← coe_add, List.map_cons, map_nil]
  rw [coe_singleton, Multiset.add_comm, singleton_add]

theorem AddressSpace.records_push (as : AddressSpace) (p : UserPage) :
    (as.push p).records = p.ptr ::ₘ as.records := by
  simp only [records, push, map_append, ← coe_add, List.map_cons, map_nil]
  rw [coe_singleton, ← singleton_add]
  abel

/-- What a successful `address_space_add_page` adds. -/
structure Added (as as' : AddressSpace) (t t' : Radix) (address flags : Nat) (page : UserPage) :
    Prop where
  push : as' = as.push page
  at_address : page.virtualAddress = address
  with_flags : page.flags = flags
  le : Radix.Le t t'

/-- A page in hand, `physical`, and a record for it, `ptr`, before either is
published. -/
structure InHand (P : PagePool) (m : Machine) (as : AddressSpace) (t : Radix) (shared : Nat → Nat)
    (rest objs : Multiset Nat) (ptr physical : Nat) : Prop where
  tabled : Tabled P m t shared (physical ::ₘ (as.physicals + rest))
  live : liveBag m.slabs = ptr ::ₘ (as.records + objs)

/-- Publish the page in hand. -/
theorem InHand.publish {t' : Radix} (h : InHand P m as t' shared rest objs page.ptr page.physical)
    (hroot : t'.root = as.root) (hw : t'.width = 256) (htight : t'.Tight)
    (hleaves : Leaves t' (as.pages ++ [page])) (hok : ∀ p ∈ as.pages, PageOk p)
    (hpage : PageOk page) : Owned P m (as.push page) t' shared rest objs := by
  refine ⟨?_, hroot, hw, htight, hleaves, ?_, ?_⟩
  · rw [AddressSpace.physicals_push, cons_add]
    exact h.tabled
  · intro p hp
    rcases List.mem_append.mp hp with hp | hp
    · exact hok p hp
    · rw [List.mem_singleton] at hp
      exact hp ▸ hpage
  · rw [AddressSpace.records_push, cons_add]
    exact h.live

/-- Give the page in hand and its record back. -/
theorem InHand.release {ptr physical : Nat} (h : InHand P m as t shared rest objs ptr physical) :
    Tabled P (kfree ptr (pageFree physical m)) t shared (as.physicals + rest) ∧
      Keeps (as.physicals + rest) m (kfree ptr (pageFree physical m)) ∧
      liveBag (kfree ptr (pageFree physical m)).slabs = as.records + objs :=
  h.tabled.free h.live

/-- The mapped pages of a ledger grow by the leaf that was stored. -/
theorem Leaves.push_mapped {t' : Radix} {pages : List UserPage} (h : Leaves t pages)
    (hmap : mapped page.flags = true) (hfree : t.leaf (page.virtualAddress / 4096) = 0)
    (hleaf : t'.leaf = Function.update t.leaf (page.virtualAddress / 4096)
      (leafPte page.physical page.flags))
    (hold : ∀ p ∈ pages, mapped p.flags = true → leafPte p.physical p.flags ≠ 0) :
    Leaves t' (pages ++ [page]) := by
  constructor
  · intro p hp hm
    rw [hleaf]
    rcases List.mem_append.mp hp with hp | hp
    · have hpp := h.of_page p hp hm
      have hv : p.virtualAddress / 4096 ≠ page.virtualAddress / 4096 := by
        intro heq
        rw [heq, hfree] at hpp
        exact hold p hp hm hpp.symm
      rw [Function.update_of_ne hv, hpp]
    · rw [List.mem_singleton] at hp
      rw [hp, Function.update_self]
  · intro v hv
    by_cases hvp : v = page.virtualAddress / 4096
    · exact ⟨page, by simp, hmap, hvp.symm⟩
    rw [hleaf, Function.update_of_ne hvp] at hv
    obtain ⟨p, hp, hm, hpv⟩ := h.page_of v hv
    exact ⟨p, mem_append_left _ hp, hm, hpv⟩

/-- An unmapped page has no leaf. -/
theorem Leaves.push_unmapped {pages : List UserPage} (h : Leaves t pages)
    (hmap : mapped page.flags = false) : Leaves t (pages ++ [page]) := by
  constructor
  · intro p hp hm
    rcases List.mem_append.mp hp with hp | hp
    · exact h.of_page p hp hm
    rw [List.mem_singleton] at hp
    rw [hp, hmap] at hm
    cases hm
  · intro v hv
    obtain ⟨p, hp, hrest⟩ := h.page_of v hv
    exact ⟨p, mem_append_left _ hp, hrest⟩

/-- The leaf of a mapped ledger page is a leaf. -/
theorem Owned.isLeaf (h : Owned P m as t shared rest objs) {p : UserPage} (hp : p ∈ as.pages)
    (hm : mapped p.flags = true) : IsLeaf (leafPte p.physical p.flags) := by
  have hpage : IsPage p.physical :=
    h.tabled.isPage_rest (Multiset.mem_add.mpr (.inl (List.mem_map_of_mem hp)))
  exact isLeaf_leafPte hpage.aligned (hpage.lt.trans (by decide)) ((h.page_ok p hp).valid hm)

section Records

variable (h : Owned P m as t shared rest objs) {objs' : Multiset Nat}

include h

/-- Only the heap has to know about a change of the reservations. -/
theorem Owned.of_areas {areas : List VmArea} {brkBase brkEnd : Nat}
    (ht : Tabled P m' t shared (as.physicals + rest))
    (hlive : liveBag m'.slabs = ({ as with areas := areas } : AddressSpace).records + objs') :
    Owned P m' { as with areas := areas, brkBase := brkBase, brkEnd := brkEnd } t shared
      rest objs' :=
  ⟨ht, h.root_eq, h.width, h.tight, h.leaves, h.page_ok, hlive⟩

theorem Owned.of_same (hs : m.Same m') : Owned P m' as t shared rest objs :=
  h.of_areas (h.tabled.of_same hs) (hs.slabs ▸ h.live)

/-- A record for someone else. -/
theorem Owned.newRecord {size ptr : Nat} (hrun : kmalloc size m = (ptr, m')) :
    (ptr = 0 ∧ m.Same m') ∨
    (ptr ≠ 0 ∧ Owned P m' as t shared rest (ptr ::ₘ objs) ∧ Keeps (as.physicals + rest) m m') := by
  rcases h.tabled.kmalloc hrun with hfail | ⟨hne, ht, hk, hlive⟩
  · exact .inl hfail
  · exact .inr ⟨hne, h.of_areas ht (by rw [hlive, h.live, add_cons]), hk⟩

omit h in
theorem Owned.freeRecord {ptr : Nat} (h : Owned P m as t shared rest (ptr ::ₘ objs)) :
    Owned P (kfree ptr m) as t shared rest objs ∧ Keeps (as.physicals + rest) m (kfree ptr m) := by
  obtain ⟨ht, hk, hlive⟩ := h.tabled.kfree (h.live.trans (add_cons _ _ _))
  exact ⟨h.of_areas ht hlive, hk⟩

end Records

/-- Zero the page in hand and copy the caller's bytes into it. -/
theorem InHand.fill {ptr physical size : Nat} (data : Option (Memory → Nat → UInt8))
    (h : InHand P m as t shared rest objs ptr physical) (hsize : size ≤ 4096) :
    InHand P (m.initPage physical size data) as t shared rest objs ptr physical ∧
      Keeps (as.physicals + rest) m (m.initPage physical size data) := by
  obtain ⟨h1, hk1⟩ := h.tabled.write (a := physical) (n := 4096) (f := fun _ => 0)
    (Nat.le_refl _) (Nat.le_refl _)
  cases data with
  | none => exact ⟨⟨h1, h.live⟩, hk1⟩
  | some data =>
    obtain ⟨h2, hk2⟩ := h1.write (a := physical) (n := size) (f := data (m.clear physical).mem)
      (Nat.le_refl _) (Nat.add_le_add_left hsize _)
    exact ⟨⟨h2, h.live⟩, hk1.trans hk2⟩

/-- The byte of a new page at an offset: the caller's, as far as they go. -/
def initialByte (data : Option (Memory → Nat → UInt8)) (size : Nat) (mem : Memory) (i : Nat) :
    UInt8 :=
  match data with
  | some data => if i < size then data mem i else 0
  | none => 0

theorem initPage_mem (m : Machine) (physical size : Nat) (data : Option (Memory → Nat → UInt8))
    {i : Nat} (hi : i < 4096) : (m.initPage physical size data).mem (physical + i) =
      initialByte data size (m.clear physical).mem i := by
  have hzero : (m.clear physical).mem (physical + i) = 0 := by
    rw [Machine.clear_mem, clearPage]
    exact fill_of_mem hi
  cases data with
  | none => exact hzero
  | some data =>
    simp only [Machine.initPage, Machine.write, initialByte]
    by_cases hlt : i < size
    · rw [fill_of_mem hlt, if_pos hlt]
    · rw [fill_of_not_mem (by omega), if_neg hlt, hzero]

/-- **`address_space_add_page`** adds one page with the caller's bytes, or leaves
the space, the table and everybody else's pages as they were. -/
theorem addressSpaceAddPage_spec (h : Owned P m as t shared rest objs) {address flags size : Nat}
    {data : Option (Memory → Nat → UInt8)}
    (hrun : addressSpaceAddPage as address flags data size m = (ok, as', m')) :
    Keeps (as.physicals + rest) m m' ∧ ((ok = false ∧ as' = as ∧ Owned P m' as t shared rest objs) ∨
     (ok = true ∧ ∃ t' page, Owned P m' as' t' shared rest objs ∧
       Added as as' t t' address flags page ∧ ∃ mid, Keeps (as.physicals + rest) m mid ∧
         ∀ i < 4096, m'.mem (page.physical + i) = initialByte data size mid.mem i)) := by
  by_cases hbad : userEnd ≤ address ∨ pageOffset address ≠ 0 ∨ flags &&& pteU = 0 ∨
      pageSize < size ∨ (size ≠ 0 ∧ data.isNone)
  · rw [addressSpaceAddPage, if_pos hbad] at hrun
    cases hrun
    exact ⟨Keeps.refl _ _, .inl ⟨rfl, rfl, h⟩⟩
  rw [addressSpaceAddPage, if_neg hbad] at hrun
  simp only [not_or, not_le, not_lt, ne_eq, not_not] at hbad
  obtain ⟨hlt, hal, huser, hsize, _⟩ := hbad
  obtain ⟨ptr, m1, hk⟩ : ∃ ptr m1, kmalloc userPageSize m = (ptr, m1) := ⟨_, _, rfl⟩
  rw [hk] at hrun
  rcases h.newRecord hk with ⟨rfl, hsame⟩ | ⟨hptr, h1, hkeep1⟩
  · -- no record
    cases hrun
    exact ⟨Keeps.of_same hsame, .inl ⟨rfl, rfl, h.of_same hsame⟩⟩
  obtain ⟨physical, m2, hpa⟩ : ∃ physical m2, pageAlloc m1 = (physical, m2) := ⟨_, _, rfl⟩
  rcases h1.tabled.pageAlloc hpa with ⟨rfl, hsame⟩ | ⟨hphys, h2, hkeep2, hslabs2⟩
  · -- no page
    simp only [hpa] at hrun
    cases hrun
    obtain ⟨h3, hkeep3⟩ := (h1.of_same hsame).freeRecord
    exact ⟨hkeep1.trans ((Keeps.of_same hsame).trans hkeep3), .inl ⟨rfl, rfl, h3⟩⟩
  have hne := hphys.ne_zero
  simp only [hpa] at hrun
  have hin : InHand P m2 as t shared rest objs ptr physical :=
    ⟨h2, by rw [hslabs2, h1.live, add_cons]⟩
  obtain ⟨hin4, hkeep4⟩ := hin.fill data hsize
  have hmid : Keeps (as.physicals + rest) m (m2.clear physical) :=
    (hkeep1.trans hkeep2).trans (hin.fill none (Nat.zero_le 4096)).2
  have hbytes := fun i => @initPage_mem m2 physical size data i
  generalize m2.initPage physical size data = m4 at hrun hin4 hkeep4 hbytes
  have hkeep := (hkeep1.trans hkeep2).trans hkeep4
  have hpage : (mapped flags = true → validLeafFlags flags = true) →
      PageOk ⟨ptr, address, physical, flags⟩ := fun hv => ⟨hlt, hal, huser, hv⟩
  by_cases hmap : mapped flags = true
  · obtain ⟨b, m5, hvm⟩ : ∃ b m5, vmMap as.root address physical flags m4 = (b, m5) := ⟨_, _, rfl⟩
    have hw : vpn address / 512 / 512 < t.width := by
      rw [h.width]
      exact vpn_root_lt hlt
    obtain ⟨t', h5, hk5, hs5, htrue, hfalse⟩ :=
      vmMap_spec hin4.tabled flags hw (hphys.lt.trans (by decide))
    rw [h.root_eq, hvm] at h5 hk5 hs5 htrue hfalse
    simp only [hmap, if_true, hvm] at hrun
    have hin5 : InHand P m5 as t' shared rest objs ptr physical := ⟨h5, by rw [hs5, hin4.live]⟩
    have hk5' := hk5.mono (le_cons_self (as.physicals + rest) physical)
    cases b with
    | false =>
      -- the half-built path is pruned away again
      cases hrun
      obtain ⟨h6, hk6, hlive6⟩ := hin5.release
      obtain ⟨h7, hk7, hs7⟩ := vmPruneUser_of_grows h6 h.tabled.rep.wf h.tight h.width (hfalse rfl)
      rw [h.root_eq] at h7 hk7 hs7
      exact ⟨((hkeep.trans hk5').trans hk6).trans hk7,
        .inl ⟨rfl, rfl, h.of_areas h7 (hs7 ▸ hlive6)⟩⟩
    | true =>
      cases hrun
      obtain ⟨-, -, hvalid, hfree, htight', hle, hleaf⟩ := htrue rfl
      rw [vpn_of_lt hlt] at hfree hleaf
      refine ⟨hkeep.trans hk5', .inr ⟨rfl, t', ⟨ptr, address, physical, flags⟩, ?_,
        ⟨rfl, rfl, rfl, hle⟩, _, hmid, fun i hi => ?_⟩⟩
      -- the page is not a table page, so mapping it leaves it alone
      case refine_2 =>
        exact (hk5.bytes physical (mem_cons_self _ _) (mem_pageBytes hi)).trans (hbytes i hi)
      refine hin5.publish (hle.root.symm.trans h.root_eq) (hle.width.symm.trans h.width)
        (htight' h.tight) ?_
        h.page_ok (hpage fun _ => hvalid)
      exact h.leaves.push_mapped hmap hfree hleaf fun p hp hm => (h.isLeaf hp hm).ne_zero
  · -- an inaccessible page only gets a record
    have hmap' : mapped flags = false := by simpa using hmap
    simp only [hmap'] at hrun
    cases hrun
    refine ⟨hkeep, .inr ⟨rfl, t, ⟨ptr, address, physical, flags⟩, ?_,
      ⟨rfl, rfl, rfl, Radix.Le.refl t⟩, _, hmid, hbytes⟩⟩
    exact hin4.publish h.root_eq h.width h.tight (h.leaves.push_unmapped hmap') h.page_ok
      (hpage fun hm => absurd hm hmap)

/-! ## Taking pages out -/

section Remove

variable {l₁ l₂ : List UserPage} {p : UserPage}

theorem AddressSpace.physicals_split (as : AddressSpace) (l₁ l₂ : List UserPage) (p : UserPage) :
    ({ as with pages := l₁ ++ p :: l₂ } : AddressSpace).physicals =
      p.physical ::ₘ ({ as with pages := l₁ ++ l₂ } : AddressSpace).physicals := by
  simp only [physicals, map_append, List.map_cons, ← coe_add, ← cons_coe]
  rw [add_cons]

theorem AddressSpace.records_split (as : AddressSpace) (l₁ l₂ : List UserPage) (p : UserPage) :
    ({ as with pages := l₁ ++ p :: l₂ } : AddressSpace).records =
      p.ptr ::ₘ ({ as with pages := l₁ ++ l₂ } : AddressSpace).records := by
  simp only [records, map_append, List.map_cons, ← coe_add, ← cons_coe]
  rw [add_cons, cons_add]

theorem leafPte_inj {p q f g : Nat} (hp : IsPage p) (hq : IsPage q) (hf : validLeafFlags f = true)
    (hg : validLeafFlags g = true) (h : leafPte p f = leafPte q g) : p = q := by
  rw [← ptePhysical_leafPte hp.aligned hp.lt hf, ← ptePhysical_leafPte hq.aligned hq.lt hg, h]

theorem mem_of_mem_others {α : Type*} {l₁ l₂ : List α} {b : α} (a : α) (hb : b ∈ l₁ ++ l₂) :
    b ∈ l₁ ++ a :: l₂ :=
  perm_middle.mem_iff.mpr (List.mem_cons_of_mem a hb)

/-- Only one mapped page of a ledger is at a given address: two would own the
physical page their common leaf points to. -/
theorem Owned.mapped_ne (h : Owned P m { as with pages := l₁ ++ p :: l₂ } t shared rest objs)
    (hm : mapped p.flags = true) {q : UserPage} (hq : q ∈ l₁ ++ l₂) (hmq : mapped q.flags = true) :
    q.virtualAddress / 4096 ≠ p.virtualAddress / 4096 := by
  intro heq
  have hp' : p ∈ l₁ ++ p :: l₂ := mem_append_right _ List.mem_cons_self
  have hq' := mem_of_mem_others p hq
  have hpage : ∀ x ∈ l₁ ++ p :: l₂, IsPage x.physical := fun x hx =>
    h.tabled.isPage_rest (Multiset.mem_add.mpr (.inl (List.mem_map_of_mem hx)))
  have hleaf : leafPte q.physical q.flags = leafPte p.physical p.flags := by
    rw [← h.leaves.of_page p hp' hm, ← h.leaves.of_page q hq' hmq, heq]
  have hphys := leafPte_inj (hpage q hq') (hpage p hp') ((h.page_ok q hq').valid hmq)
    ((h.page_ok p hp').valid hm) hleaf
  have hnd := (Multiset.nodup_add.mp (Multiset.nodup_add.mp h.tabled.stock.nodup_rest).2.1).1
  rw [AddressSpace.physicals_split, Multiset.nodup_cons] at hnd
  refine hnd.1 ?_
  rw [← hphys]
  exact List.mem_map_of_mem hq

/-- Unmap one page of the ledger if it is mapped: the part of a round of
`remove_pages` before anything is freed. -/
theorem Owned.unmap (h : Owned P m { as with pages := l₁ ++ p :: l₂ } t shared rest objs) :
    ∃ t', Tabled P (if mapped p.flags then (vmUnmap as.root p.virtualAddress m).2 else m) t' shared
        (({ as with pages := l₁ ++ p :: l₂ } : AddressSpace).physicals + rest) ∧
      Keeps (({ as with pages := l₁ ++ p :: l₂ } : AddressSpace).physicals + rest) m
        (if mapped p.flags then (vmUnmap as.root p.virtualAddress m).2 else m) ∧
      (if mapped p.flags then (vmUnmap as.root p.virtualAddress m).2 else m).slabs = m.slabs ∧
      t'.Tight ∧ Radix.Le t' t ∧ Leaves t' (l₁ ++ l₂) := by
  have hp : p ∈ l₁ ++ p :: l₂ := mem_append_right _ List.mem_cons_self
  have hok := h.page_ok p hp
  cases hm : mapped p.flags with
  | false =>
    refine ⟨t, h.tabled, Keeps.refl _ m, rfl, h.tight, Radix.Le.refl t, ?_, ?_⟩
    · exact fun q hq hmq => h.leaves.of_page q (mem_of_mem_others p hq) hmq
    intro v hv
    obtain ⟨q, hq, hmq, hqv⟩ := h.leaves.page_of v hv
    rcases List.mem_cons.mp (perm_middle.mem_iff.mp hq) with rfl | hq
    · rw [hm] at hmq
      cases hmq
    · exact ⟨q, hq, hmq, hqv⟩
  | true =>
    have hw : vpn p.virtualAddress / 512 / 512 < t.width := by
      rw [h.width]
      exact vpn_root_lt hok.lt
    obtain ⟨t', hs, htight, -⟩ := vmUnmap_spec h.tabled (canonical_of_lt hok.lt) hok.aligned hw
    have hroot : t.root = as.root := h.root_eq
    rw [hroot] at hs
    have hleaf := hs.leaf_eq
    rw [vpn_page hok] at hleaf
    refine ⟨t', hs.tabled, hs.keeps, hs.slabs, htight h.tight, hs.le, ?_, ?_⟩
    · intro q hq hmq
      rw [hleaf, Function.update_of_ne (h.mapped_ne hm hq hmq)]
      exact h.leaves.of_page q (mem_of_mem_others p hq) hmq
    intro v hv
    have hvp : v ≠ p.virtualAddress / 4096 := by
      intro hvp
      rw [hleaf, hvp, Function.update_self] at hv
      exact hv rfl
    rw [hleaf, Function.update_of_ne hvp] at hv
    obtain ⟨q, hq, hmq, hqv⟩ := h.leaves.page_of v hv
    rcases List.mem_cons.mp (perm_middle.mem_iff.mp hq) with rfl | hq
    · exact absurd hqv.symm hvp
    · exact ⟨q, hq, hmq, hqv⟩

/-- One round of `remove_pages` takes one page out of table, ledger and heap. -/
theorem Owned.drop (h : Owned P m { as with pages := l₁ ++ p :: l₂ } t shared rest objs)
    {m1 : Machine} (hm1 : m1 = if mapped p.flags then (vmUnmap as.root p.virtualAddress m).2
      else m) :
    ∃ t', Owned P (kfree p.ptr (pageFree p.physical m1)) { as with pages := l₁ ++ l₂ } t' shared
        rest objs ∧ Radix.Le t' t ∧
      Keeps (({ as with pages := l₁ ++ l₂ } : AddressSpace).physicals + rest) m
        (kfree p.ptr (pageFree p.physical m1)) := by
  obtain ⟨t', ht', hk', hs', htight, hle, hleaves⟩ := h.unmap
  rw [← hm1] at ht' hk' hs'
  rw [AddressSpace.physicals_split, cons_add] at ht' hk'
  have hlive : liveBag m1.slabs =
      p.ptr ::ₘ (({ as with pages := l₁ ++ l₂ } : AddressSpace).records + objs) := by
    rw [hs', h.live, AddressSpace.records_split, cons_add]
  obtain ⟨h2, hk2, hl2⟩ := ht'.free hlive
  refine ⟨t', ⟨h2, hle.root.trans h.root_eq, hle.width.trans h.width, htight, hleaves, ?_, hl2⟩,
    hle, (hk'.mono (le_cons_self _ _)).trans hk2⟩
  exact fun q hq => h.page_ok q (mem_of_mem_others p hq)

/-- Whether a page lies outside `[start, stop)`. -/
def outside (start stop : Nat) (p : UserPage) : Bool :=
  p.virtualAddress < start || stop ≤ p.virtualAddress

theorem AddressSpace.physicals_mono (as : AddressSpace) {pages pages' : List UserPage}
    (h : Sublist pages' pages) : ({ as with pages := pages' } : AddressSpace).physicals ≤
      ({ as with pages := pages } : AddressSpace).physicals :=
  (h.map UserPage.physical).subperm

/-- The loop of `remove_pages`, started with `kept` already passed over. -/
theorem removeLoop_spec (start stop : Nat) :
    ∀ (todo kept : List UserPage) (m : Machine) (t : Radix),
    Owned P m { as with pages := kept ++ todo } t shared rest objs →
    (removeLoop as.root start stop todo m).1 = todo.filter (outside start stop) ∧
    ∃ t', Owned P (removeLoop as.root start stop todo m).2
        { as with pages := kept ++ todo.filter (outside start stop) } t' shared rest objs ∧
      Radix.Le t' t ∧
      Keeps (({ as with pages := kept ++ todo.filter (outside start stop) } :
        AddressSpace).physicals + rest) m (removeLoop as.root start stop todo m).2
  | [], kept, m, t, h => ⟨rfl, t, h, Radix.Le.refl t, Keeps.refl _ m⟩
  | p :: todo, kept, m, t, h => by
    by_cases hout : p.virtualAddress < start ∨ stop ≤ p.virtualAddress
    · -- pass over `p`
      have hfilter : outside start stop p = true := by simpa [outside] using hout
      have hassoc : ∀ l : List UserPage, kept ++ p :: l = (kept ++ [p]) ++ l := fun l => by simp
      rw [hassoc] at h
      have ih := removeLoop_spec start stop todo (kept ++ [p]) m t h
      rw [removeLoop, if_pos hout, List.filter_cons_of_pos hfilter, hassoc]
      exact ⟨by rw [← ih.1], ih.2⟩
    have hfilter : outside start stop p ≠ true := by simpa [outside] using hout
    obtain ⟨t1, h1, hle1, hk1⟩ := h.drop rfl
    obtain ⟨hres, t', h', hle, hk⟩ := removeLoop_spec start stop todo kept _ t1 h1
    rw [removeLoop, if_neg hout, List.filter_cons_of_neg hfilter]
    refine ⟨hres, t', h', hle.trans hle1, Keeps.trans (hk1.mono ?_) hk⟩
    have hsub : Sublist (kept ++ todo.filter (outside start stop)) (kept ++ todo) :=
      (filter_sublist).append_left kept
    exact Multiset.add_le_add_right (as.physicals_mono hsub)

/-- **`remove_pages`** takes the pages of a range out and leaves the table tight. -/
theorem removePages_spec (h : Owned P m as t shared rest objs) {start stop : Nat}
    (hrun : removePages as start stop m = (as', m')) :
    as' = { as with pages := as.pages.filter (outside start stop) } ∧
    ∃ t', Owned P m' as' t' shared rest objs ∧ Radix.Le t' t ∧
      Keeps (as'.physicals + rest) m m' := by
  obtain ⟨hres, t1, h1, hle1, hk1⟩ := removeLoop_spec start stop as.pages [] m t h
  obtain ⟨t2, hs, htight⟩ := vmPruneUser_spec h1.tabled (h1.width)
  have hroot : t1.root = as.root := h1.root_eq
  rw [hroot] at hs
  simp only [removePages, hres, Prod.mk.injEq] at hrun
  obtain ⟨rfl, rfl⟩ := hrun
  refine ⟨rfl, t2, ⟨hs.tabled, hs.le.root.trans h1.root_eq, hs.le.width.trans h1.width, htight, ?_,
    h1.page_ok, by rw [hs.slabs]; exact h1.live⟩, hs.le.trans hle1, hk1.trans hs.keeps⟩
  constructor
  · intro p hp hm
    rw [hs.leaf_eq]
    exact h1.leaves.of_page p hp hm
  · intro v hv
    rw [hs.leaf_eq] at hv
    exact h1.leaves.page_of v hv

end Remove

/-! ## Creating and destroying -/

/-- A struct without table, pages and reservations: never initialised, moved
away or destroyed. -/
structure AddressSpace.Dead (as : AddressSpace) : Prop where
  root : as.root = 0
  pages : as.pages = []
  areas : as.areas = []

theorem rep_dead (mem : Memory) (shared : Nat → Nat) : Rep mem (Radix.bare 0 256) shared :=
  ⟨Radix.wf_bare 0
    256, by simp [Radix.bare], fun h => absurd rfl h, fun h => absurd rfl h, (by simp [Radix.bare]),
    (by simp [Radix.bare]), fun h => absurd rfl h⟩

/-- A dead struct owns nothing. -/
theorem AddressSpace.Dead.owned (h : as.Dead) (hst : Stocked P m rest)
    (hlive : liveBag m.slabs = objs) (shared : Nat → Nat) :
    Owned P m as (Radix.bare 0 256) shared rest objs := by
  have hphys : as.physicals = 0 := by simp [AddressSpace.physicals, h.pages]
  have hrec : as.records = 0 := by simp [AddressSpace.records, h.pages, h.areas]
  refine ⟨⟨?_, rep_dead _ _⟩, h.root.symm, rfl, Radix.tight_bare 0 256, ?_, ?_, ?_⟩
  · rwa [Radix.frames_bare_zero, zero_add, hphys, zero_add]
  · exact ⟨by simp [h.pages], fun v hv => absurd rfl hv⟩
  · simp [h.pages]
  · rw [hrec, zero_add, hlive]

/-- **`address_space_init`** makes an empty space under the kernel's upper half,
or fails and owns nothing. -/
theorem addressSpaceInit_spec (hst : Stocked P m rest) (hlive : liveBag m.slabs = objs)
    {kernelRoot : Nat} (hk : kernelRoot ∈ rest)
    (hrun : addressSpaceInit kernelRoot m = (ok, as', m')) :
    Keeps rest m m' ∧ as' = ⟨as'.root, [], [], heapBase, heapBase⟩ ∧ (ok = true ↔ as'.root ≠ 0) ∧
    (ok = false → as'.Dead ∧ Stocked P m' rest ∧ liveBag m'.slabs = objs) ∧
    ∃ t', Owned P m' as' t' (fun i => entry m.mem kernelRoot i) rest objs := by
  obtain ⟨root, m1, heq⟩ : ∃ root m1, vmCreateUser kernelRoot m = (root, m1) := ⟨_, _, rfl⟩
  have hspec := vmCreateUser_spec hst hk
  simp only [addressSpaceInit, heq, Prod.mk.injEq] at hrun
  rw [heq] at hspec
  obtain ⟨rfl, rfl, rfl⟩ := hrun
  rcases hspec with ⟨h0, hsame⟩ | ⟨htab, hne, hk', hslabs⟩
  · have h0' : root = 0 := h0
    subst h0'
    have hst' := hst.of_same hsame
    have hlive' : liveBag m1.slabs = objs := by rw [hsame.slabs, hlive]
    have hdead : AddressSpace.Dead ⟨0, [], [], heapBase, heapBase⟩ := ⟨rfl, rfl, rfl⟩
    exact ⟨Keeps.of_same hsame, rfl, by simp, fun _ => ⟨hdead, hst', hlive'⟩, Radix.bare 0 256,
      hdead.owned hst' hlive' _⟩
  refine ⟨hk',
    rfl, by simp, fun h0 => absurd (bne_eq_false_iff_eq.mp h0) hne, Radix.bare root 256, ?_⟩
  refine ⟨?_, rfl, rfl, Radix.tight_bare root 256,
    ⟨by simp, fun v hv => absurd rfl hv⟩, by simp, ?_⟩
  · have hphys : AddressSpace.physicals ⟨root, [], [], heapBase, heapBase⟩ = 0 := rfl
    rw [hphys, zero_add]
    exact htab
  · have hrec : AddressSpace.records ⟨root, [], [], heapBase, heapBase⟩ = 0 := rfl
    rw [hrec, zero_add, hslabs, hlive]

/-- The first loop of `address_space_destroy` empties the ledger. -/
theorem freePages_spec : ∀ (pages : List UserPage) (m : Machine),
    Tabled P m t shared ((pages.map UserPage.physical : List Nat) + rest) →
    liveBag m.slabs = (pages.map UserPage.ptr : List Nat) + objs →
    Tabled P (freePages pages m) t shared rest ∧ Keeps rest m (freePages pages m) ∧
      liveBag (freePages pages m).slabs = objs
  | [], m, h, hlive => by
    simp only [map_nil, coe_nil, zero_add] at h hlive
    exact ⟨h, Keeps.refl _ m, hlive⟩
  | p :: pages, m, h, hlive => by
    simp only [List.map_cons, ← cons_coe, cons_add] at h hlive
    obtain ⟨h1, hk1, hl1⟩ := h.free hlive
    obtain ⟨h2, hk2, hl2⟩ := freePages_spec pages _ h1 hl1
    exact ⟨h2, hk1.part.trans hk2, hl2⟩

/-- The second loop of `address_space_destroy` empties the reservations. -/
theorem freeAreas_spec : ∀ (areas : List VmArea) (m : Machine), Tabled P m t shared rest →
    liveBag m.slabs = (areas.map VmArea.ptr : List Nat) + objs →
    Tabled P (freeAreas areas m) t shared rest ∧ Keeps rest m (freeAreas areas m) ∧
      liveBag (freeAreas areas m).slabs = objs
  | [], m, h, hlive => by
    simp only [map_nil, coe_nil, zero_add] at hlive
    exact ⟨h, Keeps.refl _ m, hlive⟩
  | a :: areas, m, h, hlive => by
    simp only [List.map_cons, ← cons_coe, cons_add] at hlive
    obtain ⟨h1, hk1, hl1⟩ := h.kfree hlive
    obtain ⟨h2, hk2, hl2⟩ := freeAreas_spec areas _ h1 hl1
    exact ⟨h2, hk1.trans hk2, hl2⟩

/-- **`address_space_destroy`** gives everything back and leaves a dead struct. -/
theorem addressSpaceDestroy_spec (h : Owned P m as t shared rest objs)
    (hrun : addressSpaceDestroy as m = (as', m')) :
    as'.Dead ∧ as'.brkBase = as.brkBase ∧ as'.brkEnd = as.brkEnd ∧ Stocked P m' rest ∧
      liveBag m'.slabs = objs ∧ Keeps rest m m' := by
  have hrel := vmDestroyUser_spec h.tabled h.width
  rw [h.root_eq] at hrel
  -- with the table gone, the struct still owns its ledger
  have h1 : Tabled P (vmDestroyUser as.root m) (Radix.bare 0 256) shared (as.physicals + rest) := by
    refine ⟨?_, rep_dead _ _⟩
    rw [Radix.frames_bare_zero, zero_add]
    exact hrel.stock
  have hlive1 : liveBag (vmDestroyUser as.root m).slabs = (as.pages.map UserPage.ptr : List Nat) +
      ((as.areas.map VmArea.ptr : List Nat) + objs) := by
    rw [hrel.slabs, h.live, AddressSpace.records, add_assoc]
  obtain ⟨h2, hk2, hl2⟩ := freePages_spec as.pages _ h1 hlive1
  obtain ⟨h3, hk3, hl3⟩ := freeAreas_spec as.areas _ h2 hl2
  simp only [addressSpaceDestroy, Prod.mk.injEq] at hrun
  obtain ⟨rfl, rfl⟩ := hrun
  have hst := h3.stock
  rw [Radix.frames_bare_zero, zero_add] at hst
  exact ⟨⟨rfl, rfl, rfl⟩, rfl, rfl, hst, hl3,
    (hrel.keeps.part.trans hk2).trans hk3⟩

/-! ## Reservations and runs of pages -/

section Runs

variable {flags : Nat}

/-- The space with one more reservation. -/
def AddressSpace.reserve (as : AddressSpace) (a : VmArea) : AddressSpace :=
  { as with areas := as.areas ++ [a] }

theorem AddressSpace.records_reserve (as : AddressSpace) (a : VmArea) :
    (as.reserve a).records = a.ptr ::ₘ as.records := by
  simp only [records, reserve, map_append, ← coe_add, List.map_cons, map_nil]
  rw [coe_singleton, ← singleton_add]
  abel

/-- A record becomes that of a reservation. -/
theorem Owned.reserve (a : VmArea) (h : Owned P m as t shared rest (a.ptr ::ₘ objs)) :
    Owned P m (as.reserve a) t shared rest objs := by
  refine h.of_areas h.tabled (h.live.trans ?_)
  rw [← AddressSpace.reserve, AddressSpace.records_reserve, cons_add, add_cons]

/-- **`address_space_reserve`** appends a sound reservation or changes nothing. -/
theorem addressSpaceReserve_spec (h : Owned P m as t shared rest objs) {start stop : Nat}
    {kind : AreaKind} (hrun : addressSpaceReserve as start stop flags kind m = (ok, as', m')) :
    Keeps (as.physicals + rest) m m' ∧ Owned P m' as' t shared rest objs ∧
    ((ok = false ∧ as' = as) ∨
     (ok = true ∧ (∃ ptr, as' = as.reserve ⟨ptr, start, stop, flags, kind⟩) ∧ start < stop ∧
       pageOffset start = 0 ∧ pageOffset stop = 0 ∧ stop ≤ userEnd ∧
       vacant as.areas start stop = true)) := by
  by_cases hbad : stop ≤ start ∨ pageOffset start ≠ 0 ∨ pageOffset stop ≠ 0 ∨ userEnd < stop ∨
      vacant as.areas start stop = false
  · rw [addressSpaceReserve, if_pos hbad] at hrun
    cases hrun
    exact ⟨Keeps.refl _ _, h, .inl ⟨rfl, rfl⟩⟩
  rw [addressSpaceReserve, if_neg hbad] at hrun
  simp only [not_or, not_le, not_lt, ne_eq, not_not, Bool.not_eq_false] at hbad
  obtain ⟨ptr, m1, hk⟩ : ∃ ptr m1, kmalloc vmAreaSize m = (ptr, m1) := ⟨_, _, rfl⟩
  rw [hk] at hrun
  rcases h.newRecord hk with ⟨rfl, hsame⟩ | ⟨hptr, h1, hkeep1⟩
  · cases hrun
    exact ⟨Keeps.of_same hsame, h.of_same hsame, .inl ⟨rfl, rfl⟩⟩
  simp only at hrun
  cases hrun
  exact ⟨hkeep1, h1.reserve ⟨ptr, start, stop, flags, kind⟩, .inr ⟨rfl, ⟨ptr, rfl⟩, hbad⟩⟩

/-- `load` writes at most into the page it is given. -/
def Fills (load : Nat → UserPage → Machine → Option Machine) : Prop :=
  ∀ {address page m m'}, load address page m = some m' →
    ∃ n f, n ≤ 4096 ∧ m' = m.write page.physical n f

theorem fills_loadNothing : Fills loadNothing := by
  intro address page m m' h
  cases h
  refine ⟨0, fun _ => 0, Nat.zero_le _, ?_⟩
  have hmem : fill m.mem page.physical 0 (fun _ => 0) = m.mem := by
    funext b
    exact fill_of_not_mem (by omega)
  rw [Machine.write, hmem]

theorem fills_mmapLoad (mapflags : Nat) (file : Option File) (offset address : Nat) :
    Fills (mmapLoad mapflags file offset address) := by
  unfold mmapLoad
  split
  · exact fills_loadNothing
  cases file with
  | none => exact fills_loadNothing
  | some f =>
    intro at' page m m' h
    simp only [loadFile] at h
    split at h
    · cases h
    next bytes hread =>
    cases h
    exact ⟨bytes.length, _, filePread_length hread, rfl⟩

/-- Bytes written inside one page of the ledger. -/
theorem Owned.write (h : Owned P m as t shared rest objs) (hp : page ∈ as.pages) {a n : Nat}
    {f : Nat → UInt8} (ha : page.physical ≤ a) (hn : a + n ≤ page.physical + 4096) :
    Owned P (m.write a n f) as t shared rest objs ∧
      Keeps (as.physicals.erase page.physical + rest) m (m.write a n f) := by
  have hmem : page.physical ∈ as.physicals := List.mem_map_of_mem hp
  have hsplit : as.physicals + rest =
      page.physical ::ₘ (as.physicals.erase page.physical + rest) := by
    rw [← cons_add, cons_erase hmem]
  obtain ⟨ht', hk⟩ := (hsplit ▸ h.tabled).write ha hn
  exact ⟨h.of_areas (hsplit ▸ ht') h.live, hk⟩

/-- Overwriting the last page of the ledger. -/
theorem Owned.write_last {n : Nat} {f : Nat → UInt8}
    (h : Owned P m (as.push page) t shared rest objs) (hn : n ≤ 4096) :
    Owned P (m.write page.physical n f) (as.push page) t shared rest objs ∧
      Keeps (as.physicals + rest) m (m.write page.physical n f) := by
  have hp : page ∈ (as.push page).pages := mem_append_right _ (List.mem_singleton_self page)
  obtain ⟨h', hk⟩ := h.write hp (Nat.le_refl _) (Nat.add_le_add_left hn _)
  rw [AddressSpace.physicals_push, Multiset.erase_cons_head] at hk
  exact ⟨h', hk⟩

/-- A run of fresh pages: consecutive from `address` on, all with `flags`. -/
structure Run (address flags : Nat) (pages : List UserPage) : Prop where
  addresses : pages.map UserPage.virtualAddress =
    (List.range pages.length).map fun i => address + 4096 * i
  with_flags : ∀ p ∈ pages, p.flags = flags

theorem Run.nil (address flags : Nat) : Run address flags [] := ⟨rfl, by simp⟩

theorem Run.cons {address : Nat} {pages : List UserPage} (ha : page.virtualAddress = address)
    (hf : page.flags = flags) (h : Run (address + 4096) flags pages) :
    Run address flags (page :: pages) := by
  constructor
  · rw [List.map_cons, h.addresses, length_cons, range_succ_eq_map, List.map_cons, ha,
      List.map_map]
    simp only [Nat.mul_zero, Nat.add_zero, List.cons.injEq, true_and]
    apply map_congr_left
    intro i _
    simp only [Function.comp_apply]
    omega
  · intro p hp
    rcases List.mem_cons.mp hp with rfl | hp
    · exact hf
    · exact h.with_flags p hp

/-- A page of a run lies in the range the run spans. -/
theorem Run.mem_range {address : Nat} {pages : List UserPage} (h : Run address flags pages)
    {p : UserPage} (hp : p ∈ pages) :
    ∃ i < pages.length, p.virtualAddress = address + 4096 * i := by
  have hmem : p.virtualAddress ∈ pages.map UserPage.virtualAddress := List.mem_map_of_mem hp
  rw [h.addresses] at hmem
  obtain ⟨i, hi, heq⟩ := List.mem_map.mp hmem
  exact ⟨i, List.mem_range.mp hi, heq.symm⟩

/-- **The page-adding loop** appends a run, all of it on success. -/
theorem addPages_spec {load : Nat → UserPage → Machine → Option Machine} (hload : Fills load) :
    ∀ (count address : Nat) (as : AddressSpace) (m : Machine) (t : Radix),
    Owned P m as t shared rest objs →
    ∀ {ok as' m'}, addPages flags load count address as m = (ok, as', m') →
    ∃ t' new, as' = { as with pages := as.pages ++ new } ∧ Owned P m' as' t' shared rest objs ∧
      Radix.Le t t' ∧ Keeps (as.physicals + rest) m m' ∧ Run address flags new ∧
      new.length ≤ count ∧ (ok = true → new.length = count) := by
  intro count
  induction count with
  | zero =>
    intro address as m t h ok as' m' hrun
    cases hrun
    exact ⟨t, [], by simp, h, Radix.Le.refl t, Keeps.refl _ _, Run.nil _ _, Nat.le_refl _,
      fun _ => rfl⟩
  | succ count ih =>
    intro address as m t h ok as' m' hrun
    obtain ⟨b, as1, m1, hadd⟩ : ∃ b as1 m1,
        addressSpaceAddPage as address flags none 0 m = (b, as1, m1) := ⟨_, _, _, rfl⟩
    rw [addPages, hadd] at hrun
    obtain ⟨hk1, hres⟩ := addressSpaceAddPage_spec h hadd
    rcases hres with ⟨rfl, rfl, h1⟩ | ⟨rfl, t1, page, h1, hadded, -⟩
    · cases hrun
      exact ⟨t, [], by simp, h1, Radix.Le.refl t, hk1, Run.nil _ _, Nat.zero_le _, by simp⟩
    obtain ⟨rfl, hat, hflags, hle1⟩ := hadded
    have hlast : (as.push page).pages.getLast? = some page := by simp [AddressSpace.push]
    have hone : ∀ m2, Owned P m2 (as.push page) t1 shared rest objs →
        Keeps (as.physicals + rest) m m2 →
        ∃ t' new, as.push page = { as with pages := as.pages ++ new } ∧
          Owned P m2 (as.push page) t' shared rest objs ∧ Radix.Le t t' ∧
          Keeps (as.physicals + rest) m m2 ∧ Run address flags new ∧
          new.length ≤ count + 1 ∧ (false = true → new.length = count + 1) :=
      fun m2 h2 hk2 => ⟨t1, [page], rfl, h2, hle1, hk2, Run.cons hat hflags (Run.nil _ _),
        by simp, by simp⟩
    simp only [hlast, Option.bind_some] at hrun
    cases hl : load address page m1 with
    | none =>
      rw [hl] at hrun
      cases hrun
      exact hone _ h1 hk1
    | some m2 =>
      rw [hl] at hrun
      obtain ⟨n, f, hn, rfl⟩ := hload hl
      obtain ⟨h2, hk2⟩ := h1.write_last (f := f) hn
      obtain ⟨t', new, rfl, h3, hle3, hk3, hnew, hlen, hall⟩ := ih _ _ _ _ h2 hrun
      refine ⟨t', page :: new, by simp [AddressSpace.push], h3, hle1.trans hle3, ?_,
        Run.cons hat hflags hnew, Nat.succ_le_succ hlen, fun hok => congrArg (· + 1) (hall hok)⟩
      refine (hk1.trans hk2).trans (hk3.mono ?_)
      rw [AddressSpace.physicals_push, cons_add]
      exact le_cons_self _ _

end Runs

end MiniCore
