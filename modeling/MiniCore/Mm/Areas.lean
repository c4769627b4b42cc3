import MiniCore.Mm.Ownership

/-!
# MiniCore.Mm.Areas

The agreement between reservations and ledger, without page tables.

* `AreasOk` — the areas are sound and pairwise disjoint.
* `Agrees` — besides, every page of the ledger lies in an area and has its
  flags, and every area is backed by pages, except for the guard page of a stack.
* `Laid`, `Reserved` — the same for a struct, with the place of the heap area.

Three changes cover what the calls do to the two lists: a new area with its run
of pages (`extend`), an area whose end moves up (`grow`), and a range taken out
of both (`cut`).
-/

namespace MiniCore

open Lib List

variable {areas l₁ l₂ areas' : List VmArea} {pages new : List UserPage} {a : VmArea} {stop : Nat}
  {as as' : AddressSpace}

/-- A non-empty page-aligned range below `2 ^ 38`. -/
structure AreaOk (a : VmArea) : Prop where
  start_lt : a.start < a.stop
  start_aligned : a.start % 4096 = 0
  stop_aligned : a.stop % 4096 = 0
  stop_le : a.stop ≤ 2 ^ 38

/-- User flags, not both writable and executable, and readable if writable. -/
structure FlagsOk (flags : Nat) : Prop where
  user : flags &&& pteU ≠ 0
  write_xor_exec : flags &&& pteW = 0 ∨ flags &&& pteX = 0
  read_of_write : flags &&& pteW ≠ 0 → flags &&& pteR ≠ 0

def VmArea.Apart (a b : VmArea) : Prop := a.stop ≤ b.start ∨ b.stop ≤ a.start

theorem VmArea.Apart.symm {a b : VmArea} (h : a.Apart b) : b.Apart a := Or.symm h

instance : Std.Symm VmArea.Apart := ⟨fun _ _ => VmArea.Apart.symm⟩

structure AreasOk (areas : List VmArea) : Prop where
  area_ok : ∀ a ∈ areas, AreaOk a
  flags_ok : ∀ a ∈ areas, FlagsOk a.flags
  apart : areas.Pairwise VmArea.Apart

/-- The first address of an area that has a page: a stack has a guard below. -/
def VmArea.backed (a : VmArea) : Nat := if a.kind = .stack then a.start + 4096 else a.start

structure Agrees (areas : List VmArea) (pages : List UserPage) : Prop where
  areas_ok : AreasOk areas
  distinct : (pages.map UserPage.virtualAddress).Nodup
  aligned : ∀ p ∈ pages, p.virtualAddress % 4096 = 0
  covered : ∀ p ∈ pages, ∃ a ∈ areas,
    a.start ≤ p.virtualAddress ∧ p.virtualAddress < a.stop ∧ p.flags = a.flags
  populated : ∀ a ∈ areas, ∀ v, v % 4096 = 0 → a.backed ≤ v → v < a.stop →
    ∃ p ∈ pages, p.virtualAddress = v

/-- Two areas that meet are the same. -/
theorem AreasOk.eq_of_meet {areas : List VmArea} (h : AreasOk areas) {a b : VmArea} (ha : a ∈ areas)
    (hb : b ∈ areas) (h1 : a.start < b.stop) (h2 : b.start < a.stop) : a = b := by
  by_contra hne
  have hap := h.apart.forall ha hb hne
  unfold VmArea.Apart at hap
  omega

theorem vacant_iff {areas : List VmArea} {start stop : Nat} :
    vacant areas start stop = true ↔ ∀ a ∈ areas, a.stop ≤ start ∨ stop ≤ a.start := by
  simp only [vacant, all_eq_true, Bool.not_eq_true', Bool.and_eq_false_iff, decide_eq_false_iff_not,
    not_lt]

/-! ## A new area -/

section

variable {address flags : Nat}

theorem AreasOk.nil : AreasOk [] := ⟨by simp, by simp, List.Pairwise.nil⟩

theorem Agrees.nil : Agrees [] [] := ⟨AreasOk.nil, nodup_nil, by simp, by simp, by simp⟩

theorem AreasOk.extend (h : AreasOk areas) {a : VmArea} (ha : AreaOk a) (hf : FlagsOk a.flags)
    (hv : vacant areas a.start a.stop = true) : AreasOk (areas ++ [a]) := by
  refine ⟨?_, ?_, ?_⟩
  · simpa [or_imp, forall_and] using ⟨h.area_ok, ha⟩
  · simpa [or_imp, forall_and] using ⟨h.flags_ok, hf⟩
  rw [pairwise_append]
  refine ⟨h.apart, pairwise_singleton _ _, ?_⟩
  intro b hb c hc
  rw [mem_singleton] at hc
  exact hc ▸ vacant_iff.mp hv b hb

/-- A page in the ledger is not in a vacant range. -/
theorem Agrees.outside_of_vacant (h : Agrees areas pages) {start stop : Nat}
    (hv : vacant areas start stop = true) {p : UserPage} (hp : p ∈ pages) :
    p.virtualAddress < start ∨ stop ≤ p.virtualAddress := by
  obtain ⟨a, ha, hlo, hhi, _⟩ := h.covered p hp
  have := vacant_iff.mp hv a ha
  omega

/-- Appending a run in a vacant range keeps the ledger addresses distinct. -/
theorem Agrees.distinct_append (h : Agrees areas pages) {start stop : Nat}
    (hv : vacant areas start stop = true) (hrun : Run address flags new) (hlo : start ≤ address)
    (hhi : address + 4096 * new.length ≤ stop) :
    ((pages ++ new).map UserPage.virtualAddress).Nodup := by
  rw [map_append, nodup_append]
  refine ⟨h.distinct, ?_, ?_⟩
  · rw [hrun.addresses]
    refine List.Nodup.map ?_ nodup_range
    intro i j hij
    simp only at hij
    omega
  intro v hv' w hw hvw
  obtain ⟨p, hp, rfl⟩ := List.mem_map.mp hv'
  obtain ⟨q, hq, rfl⟩ := List.mem_map.mp hw
  obtain ⟨i, hi, hqi⟩ := hrun.mem_range hq
  have := h.outside_of_vacant hv hp
  omega

theorem Agrees.aligned_append (h : Agrees areas pages) (hrun : Run address flags new)
    (hal : address % 4096 = 0) : ∀ p ∈ pages ++ new, p.virtualAddress % 4096 = 0 := by
  intro p hp
  rcases List.mem_append.mp hp with hp | hp
  · exact h.aligned p hp
  · obtain ⟨i, _, hpi⟩ := hrun.mem_range hp
    omega

/-- The pages of a run, found by address. -/
theorem Run.exists_page {v : Nat} (hrun : Run address flags new) (hal : address % 4096 = 0)
    (hv : v % 4096 = 0) (hlo : address ≤ v) (hhi : v < address + 4096 * new.length) :
    ∃ p ∈ new, p.virtualAddress = v := by
  have hmem : v ∈ new.map UserPage.virtualAddress := by
    rw [hrun.addresses]
    exact List.mem_map.mpr ⟨(v - address) / 4096, List.mem_range.mpr (by omega), by omega⟩
  obtain ⟨p, hp, hpv⟩ := List.mem_map.mp hmem
  exact ⟨p, hp, hpv⟩

/-- **A new area with its pages.** -/
theorem Agrees.extend (h : Agrees areas pages) {a : VmArea} (ha : AreaOk a) (hf : FlagsOk a.flags)
    (hv : vacant areas a.start a.stop = true) (hrun : Run a.backed a.flags new)
    (hlen : a.backed + 4096 * new.length = a.stop) : Agrees (areas ++ [a]) (pages ++ new) := by
  have hback : a.start ≤ a.backed ∧ a.backed % 4096 = 0 := by
    have := ha.start_aligned
    unfold VmArea.backed
    split <;> omega
  refine ⟨h.areas_ok.extend ha hf hv, h.distinct_append hv hrun hback.1 (Nat.le_of_eq hlen),
    h.aligned_append hrun hback.2, ?_, ?_⟩
  · intro p hp
    rcases List.mem_append.mp hp with hp | hp
    · obtain ⟨b, hb, hrest⟩ := h.covered p hp
      exact ⟨b, mem_append_left _ hb, hrest⟩
    · obtain ⟨i, hi, hpi⟩ := hrun.mem_range hp
      exact ⟨a, by simp, by omega, by omega, hrun.with_flags p hp⟩
  intro b hb v hal hlo hhi
  rcases List.mem_append.mp hb with hb | hb
  · obtain ⟨p, hp, hpv⟩ := h.populated b hb v hal hlo hhi
    exact ⟨p, mem_append_left _ hp, hpv⟩
  rw [mem_singleton] at hb
  subst hb
  obtain ⟨p, hp, hpv⟩ := hrun.exists_page hback.2 hal hlo (by omega)
  exact ⟨p, mem_append_right _ hp, hpv⟩

/-! ## A longer area -/

theorem mem_split_or {b : VmArea} (c : VmArea) (hb : b ∈ l₁ ++ c :: l₂) (a : VmArea) :
    b = c ∨ b ∈ l₁ ++ a :: l₂ := by
  simp only [mem_append, mem_cons] at hb ⊢
  tauto

theorem AreasOk.grow (h : AreasOk (l₁ ++ a :: l₂)) (hstop : stop % 4096 = 0) (hle : stop ≤ 2 ^ 38)
    (hgrow : a.stop ≤ stop) (hv : vacant (l₁ ++ a :: l₂) a.stop stop = true) :
    AreasOk (l₁ ++ { a with stop := stop } :: l₂) := by
  have hin : a ∈ l₁ ++ a :: l₂ := by simp
  have ha := h.area_ok a hin
  have hstart := ha.start_lt
  have hapart : ∀ b ∈ l₁ ++ a :: l₂, b.Apart a → b.Apart { a with stop := stop } := by
    intro b hb hba
    have hvb := vacant_iff.mp hv b hb
    have := (h.area_ok b hb).start_lt
    rcases hba with hba | hba
    · exact .inl hba
    refine .inr ?_
    show stop ≤ b.start
    omega
  refine ⟨?_, ?_, ?_⟩
  · intro b hb
    rcases mem_split_or _ hb a with rfl | hb
    · exact ⟨show a.start < stop by omega, ha.start_aligned, hstop, hle⟩
    · exact h.area_ok b hb
  · intro b hb
    rcases mem_split_or _ hb a with rfl | hb
    · exact h.flags_ok a hin
    · exact h.flags_ok b hb
  have hp := h.apart
  rw [pairwise_append, pairwise_cons] at hp ⊢
  obtain ⟨h1, ⟨ha2, h2⟩, h12⟩ := hp
  refine ⟨h1, ⟨fun b hb => ?_, h2⟩, ?_⟩
  · have hb' : b ∈ l₁ ++ a :: l₂ := mem_append_right _ (mem_cons_of_mem _ hb)
    exact (hapart b hb' (ha2 b hb).symm).symm
  intro b hb c hc
  rcases List.mem_cons.mp hc with rfl | hc
  · exact hapart b (mem_append_left _ hb) (h12 b hb a mem_cons_self)
  · exact h12 b hb c (mem_cons_of_mem _ hc)

/-- **An area whose end moves up, with the pages in between.** -/
theorem Agrees.grow (h : Agrees (l₁ ++ a :: l₂) pages) (hstop : stop % 4096 = 0)
    (hle : stop ≤ 2 ^ 38) (hv : vacant (l₁ ++ a :: l₂) a.stop stop = true)
    (hrun : Run a.stop a.flags new) (hlen : a.stop + 4096 * new.length = stop) :
    Agrees (l₁ ++ { a with stop := stop } :: l₂) (pages ++ new) := by
  have hin : a ∈ l₁ ++ a :: l₂ := by simp
  have hin' : ({ a with stop := stop } : VmArea) ∈ l₁ ++ { a with stop := stop } :: l₂ := by simp
  have ha := h.areas_ok.area_ok a hin
  have hstart := ha.start_lt
  refine ⟨h.areas_ok.grow hstop hle (by omega) hv,
    h.distinct_append hv hrun (Nat.le_refl _) (Nat.le_of_eq hlen),
    h.aligned_append hrun ha.stop_aligned, ?_, ?_⟩
  · intro p hp
    rcases List.mem_append.mp hp with hp | hp
    · obtain ⟨b, hb, hlo, hhi, hf⟩ := h.covered p hp
      rcases mem_split_or _ hb { a with stop := stop } with rfl | hb
      · exact ⟨_, hin', hlo, show p.virtualAddress < stop by omega, hf⟩
      · exact ⟨b, hb, hlo, hhi, hf⟩
    · obtain ⟨i, hi, hpi⟩ := hrun.mem_range hp
      exact ⟨_, hin', show a.start ≤ p.virtualAddress by omega,
        show p.virtualAddress < stop by omega, hrun.with_flags p hp⟩
  · intro b hb v hal hlo hhi
    rcases mem_split_or _ hb a with rfl | hb
    · by_cases hva : v < a.stop
      · obtain ⟨p, hp, hpv⟩ := h.populated a hin v hal hlo hva
        exact ⟨p, mem_append_left _ hp, hpv⟩
      · have hhi' : v < stop := hhi
        obtain ⟨p, hp, hpv⟩ := hrun.exists_page ha.stop_aligned hal (by omega) (by omega)
        exact ⟨p, mem_append_right _ hp, hpv⟩
    · obtain ⟨p, hp, hpv⟩ := h.populated b hb v hal hlo hhi
      exact ⟨p, mem_append_left _ hp, hpv⟩

end

/-! ## A range taken out -/

/-- What is left of an area without `[start, stop)`; `ptr` is the record of the
right half if the area falls into two. -/
def cutArea (start stop ptr : Nat) (a : VmArea) : List VmArea :=
  if a.stop ≤ start ∨ stop ≤ a.start then [a]
  else if start ≤ a.start ∧ a.stop ≤ stop then []
  else if a.start < start ∧ stop < a.stop then
    [{ a with stop := start }, { a with ptr := ptr, start := stop }]
  else if start ≤ a.start then [{ a with start := stop }]
  else [{ a with stop := start }]

/-- `b` is a part of `a` beside `[start, stop)`. -/
structure Piece (start stop : Nat) (a b : VmArea) : Prop where
  flags : b.flags = a.flags
  kind : b.kind = a.kind
  start_ge : a.start ≤ b.start
  stop_le : b.stop ≤ a.stop
  start_lt : b.start < b.stop
  start_aligned : b.start % 4096 = 0
  stop_aligned : b.stop % 4096 = 0
  beside : b.stop ≤ start ∨ stop ≤ b.start

section

variable {start ptr : Nat} {b : VmArea}

theorem cutArea_piece (hs : start % 4096 = 0) (he : stop % 4096 = 0) (ha : AreaOk a)
    (hb : b ∈ cutArea start stop ptr a) : Piece start stop a b := by
  obtain ⟨hlt, hsa, hea, _⟩ := ha
  unfold cutArea at hb
  split at hb
  · next hout =>
    rw [mem_singleton] at hb
    subst hb
    exact ⟨rfl, rfl, Nat.le_refl _, Nat.le_refl _, hlt, hsa, hea, hout⟩
  split at hb
  · cases hb
  split at hb
  · simp only [mem_cons, not_mem_nil, or_false] at hb
    rcases hb with rfl | rfl <;> constructor <;> first | rfl | (dsimp only; omega)
  · split at hb
    · rw [mem_singleton] at hb
      subst hb
      constructor <;> first | rfl | (dsimp only; omega)
    · rw [mem_singleton] at hb
      subst hb
      constructor <;> first | rfl | (dsimp only; omega)

/-- No address outside the range gets lost. -/
theorem cutArea_remains {v : Nat} (hlo : a.start ≤ v) (hhi : v < a.stop)
    (hout : v < start ∨ stop ≤ v) : ∃ b ∈ cutArea start stop ptr a, b.start ≤ v ∧ v < b.stop := by
  unfold cutArea
  split
  · exact ⟨a, mem_singleton_self a, hlo, hhi⟩
  split
  · omega
  split
  · rcases hout with hout | hout
    · exact ⟨{ a with stop := start }, by simp, hlo, hout⟩
    · exact ⟨{ a with ptr := ptr, start := stop }, by simp, hout, hhi⟩
  · split
    · exact ⟨{ a with start := stop }, by simp, show stop ≤ v by omega, hhi⟩
    · exact ⟨{ a with stop := start }, by simp, hlo, show v < start by omega⟩

theorem cutArea_apart (hlt : start < stop) : (cutArea start stop ptr a).Pairwise VmArea.Apart := by
  unfold cutArea
  split
  · simp
  split
  · simp
  split
  · simp only [pairwise_cons, not_mem_nil, false_implies, implies_true,
      List.Pairwise.nil, and_true, mem_singleton, forall_eq]
    exact .inl (Nat.le_of_lt hlt)
  · split <;> simp

theorem cutArea_of_beside (h : a.stop ≤ start ∨ stop ≤ a.start) :
    cutArea start stop ptr a = [a] := by
  rw [cutArea, if_pos h]

theorem flatMap_cutArea_of_beside {areas : List VmArea}
    (h : ∀ a ∈ areas, a.stop ≤ start ∨ stop ≤ a.start) :
    areas.flatMap (cutArea start stop ptr) = areas := by
  induction areas with
  | nil => rfl
  | cons a areas ih =>
    rw [flatMap_cons, cutArea_of_beside (h a mem_cons_self),
      ih fun b hb => h b (mem_cons_of_mem _ hb), singleton_append]

theorem AreasOk.perm (h : AreasOk areas) (hp : areas'.Perm areas) : AreasOk areas' :=
  ⟨fun a ha => h.area_ok a (hp.mem_iff.mp ha), fun a ha => h.flags_ok a (hp.mem_iff.mp ha),
    h.apart.perm hp.symm VmArea.Apart.symm⟩

theorem AreasOk.cut (h : AreasOk areas) (hs : start % 4096 = 0) (he : stop % 4096 = 0)
    (hlt : start < stop) (hperm : areas'.Perm (areas.flatMap (cutArea start stop ptr))) :
    AreasOk areas' := by
  refine AreasOk.perm ⟨?_, ?_, ?_⟩ hperm
  · intro b hb
    obtain ⟨a, ha, hb⟩ := List.mem_flatMap.mp hb
    have hpc := cutArea_piece hs he (h.area_ok a ha) hb
    exact ⟨hpc.start_lt, hpc.start_aligned, hpc.stop_aligned,
      Nat.le_trans hpc.stop_le (h.area_ok a ha).stop_le⟩
  · intro b hb
    obtain ⟨a, ha, hb⟩ := List.mem_flatMap.mp hb
    exact (cutArea_piece hs he (h.area_ok a ha) hb).flags ▸ h.flags_ok a ha
  rw [pairwise_flatMap]
  refine ⟨fun a _ => cutArea_apart hlt, h.apart.imp_of_mem ?_⟩
  intro a b ha hb hab x hx y hy
  have hxa := cutArea_piece hs he (h.area_ok a ha) hx
  have hyb := cutArea_piece hs he (h.area_ok b hb) hy
  have := hxa.start_ge
  have := hxa.stop_le
  have := hyb.start_ge
  have := hyb.stop_le
  unfold VmArea.Apart at hab ⊢
  omega

/-- **A range taken out of both lists.** -/
theorem Agrees.cut (h : Agrees areas pages) (hs : start % 4096 = 0) (he : stop % 4096 = 0)
    (hlt : start < stop) (hperm : areas'.Perm (areas.flatMap (cutArea start stop ptr))) :
    Agrees areas' (pages.filter (outside start stop)) := by
  refine ⟨h.areas_ok.cut hs he hlt hperm, h.distinct.sublist (List.filter_sublist.map _),
    fun p hp => h.aligned p (List.mem_filter.mp hp).1, ?_, ?_⟩
  · intro p hp
    obtain ⟨hp, hout⟩ := List.mem_filter.mp hp
    obtain ⟨a, ha, hlo, hhi, hf⟩ := h.covered p hp
    have hout' : p.virtualAddress < start ∨ stop ≤ p.virtualAddress := by simpa [outside] using hout
    obtain ⟨b, hb, hblo, hbhi⟩ : ∃ b ∈ cutArea start stop ptr a,
        b.start ≤ p.virtualAddress ∧ p.virtualAddress < b.stop := cutArea_remains hlo hhi hout'
    have hpc := cutArea_piece hs he (h.areas_ok.area_ok a ha) hb
    exact ⟨b, hperm.mem_iff.mpr (List.mem_flatMap.mpr ⟨a, ha, hb⟩), hblo, hbhi,
      hf.trans hpc.flags.symm⟩
  intro b hb v hal hlo hhi
  obtain ⟨a, ha, hb⟩ := List.mem_flatMap.mp (hperm.mem_iff.mp hb)
  have hpc := cutArea_piece hs he (h.areas_ok.area_ok a ha) hb
  have := hpc.start_ge
  have := hpc.stop_le
  have := hpc.beside
  have hback : a.backed ≤ b.backed ∧ b.start ≤ b.backed := by
    unfold VmArea.backed
    rw [hpc.kind]
    split <;> omega
  obtain ⟨p, hp, hpv⟩ := h.populated a ha v hal (by omega) (by omega)
  refine ⟨p, List.mem_filter.mpr ⟨hp, ?_⟩, hpv⟩
  simp only [outside, Bool.or_eq_true, decide_eq_true_eq]
  omega

end

/-! ## Address spaces -/

/-- The reservations of a struct: sound areas, the heap area where `brk_base` and
`brk_end` say, and no other area in the range the heap may grow into. -/
structure Laid (as : AddressSpace) : Prop where
  areas_ok : AreasOk as.areas
  brk_base : as.brkBase = heapBase
  brk_ge : heapBase ≤ as.brkEnd
  brk_le : as.brkEnd ≤ heapBase + maxMapping
  heap_at : ∀ a ∈ as.areas, a.kind = .heap →
    as.root ≠ 0 ∧ a.start = as.brkBase ∧ a.stop = pageUp as.brkEnd ∧ a.flags = heapFlags
  heap_exists : as.root ≠ 0 → as.brkBase < pageUp as.brkEnd → ∃ a ∈ as.areas, a.kind = .heap
  window : ∀ a ∈ as.areas, a.kind ≠ .heap → a.stop ≤ heapBase ∨ heapBase + maxMapping ≤ a.start

/-- The reservations are laid out and agree with the ledger. -/
structure Reserved (as : AddressSpace) : Prop where
  laid : Laid as
  agrees : Agrees as.areas as.pages

/-- `as'` is `as` with the area `a` and the pages `new` that back it. -/
structure Mapped (as as' : AddressSpace) (a : VmArea) (new : List UserPage) : Prop where
  eq : as' = { as with areas := as.areas ++ [a], pages := as.pages ++ new }
  ok : AreaOk a
  flags : FlagsOk a.flags
  kind : a.kind ≠ .heap
  window : a.stop ≤ heapBase ∨ heapBase + maxMapping ≤ a.start
  free : vacant as.areas a.start a.stop = true
  run : Run a.backed a.flags new
  length : a.backed + 4096 * new.length = a.stop

/-- `as'` is `as` without the range `[start, stop)`, which meets only mappings
that may be cut. -/
structure Unmapped (start stop : Nat) (as as' : AddressSpace) : Prop where
  start_aligned : start % 4096 = 0
  stop_aligned : stop % 4096 = 0
  start_lt : start < stop
  eq : as' = { as with pages := as.pages.filter (outside start stop), areas := as'.areas }
  cut : ∃ ptr, as'.areas.Perm (as.areas.flatMap (cutArea start stop ptr))
  cuttable : ∀ a ∈ as.areas, ¬ (a.stop ≤ start ∨ stop ≤ a.start) → a.kind = .anon ∨ a.kind = .file

theorem Laid.mapped (h : Laid as) (hm : Mapped as as' a new) : Laid as' := by
  rw [hm.eq]
  refine ⟨h.areas_ok.extend hm.ok hm.flags hm.free, h.brk_base, h.brk_ge, h.brk_le, ?_, ?_, ?_⟩
  · intro b hb hbk
    rcases List.mem_append.mp hb with hb | hb
    · exact h.heap_at b hb hbk
    · rw [mem_singleton] at hb
      exact absurd (hb ▸ hbk) hm.kind
  · intro hr hlt
    obtain ⟨b, hb, hbk⟩ := h.heap_exists hr hlt
    exact ⟨b, mem_append_left _ hb, hbk⟩
  · simpa [or_imp, forall_and] using ⟨h.window, fun _ => hm.window⟩

theorem Reserved.mapped (h : Reserved as) (hm : Mapped as as' a new) : Reserved as' :=
  ⟨h.laid.mapped hm, by
    rw [hm.eq]
    exact h.agrees.extend hm.ok hm.flags hm.free hm.run hm.length⟩

/-- Cutting leaves the heap area and the window alone. -/
theorem Laid.unmapped {start stop : Nat} (h : Laid as) (hu : Unmapped start stop as as') :
    Laid as' := by
  obtain ⟨ptr, hperm⟩ := hu.cut
  have hroot : as'.root = as.root := by rw [hu.eq]
  have hbase : as'.brkBase = as.brkBase := by rw [hu.eq]
  have hend : as'.brkEnd = as.brkEnd := by rw [hu.eq]
  have hpiece : ∀ b ∈ as'.areas, ∃ a ∈ as.areas, b ∈ cutArea start stop ptr a ∧
      Piece start stop a b := by
    intro b hb
    obtain ⟨a, ha, hb⟩ := List.mem_flatMap.mp (hperm.mem_iff.mp hb)
    exact ⟨a, ha, hb, cutArea_piece hu.start_aligned hu.stop_aligned (h.areas_ok.area_ok a ha) hb⟩
  have hbeside : ∀ a ∈ as.areas, a.kind = .heap → a.stop ≤ start ∨ stop ≤ a.start := by
    intro a ha hk
    by_contra hhit
    rcases hu.cuttable a ha hhit with hk' | hk' <;> rw [hk] at hk' <;> cases hk'
  refine ⟨h.areas_ok.cut hu.start_aligned hu.stop_aligned hu.start_lt hperm, ?_, ?_, ?_, ?_, ?_, ?_⟩
  · rw [hbase, h.brk_base]
  · rw [hend]
    exact h.brk_ge
  · rw [hend]
    exact h.brk_le
  · intro b hb hk
    obtain ⟨a, ha, hba, hpc⟩ := hpiece b hb
    have hak : a.kind = .heap := hpc.kind.symm.trans hk
    rw [cutArea_of_beside (hbeside a ha hak), mem_singleton] at hba
    rw [hba, hroot, hbase, hend]
    exact h.heap_at a ha hak
  · intro hr hlt
    rw [hroot] at hr
    rw [hbase, hend] at hlt
    obtain ⟨a, ha, hk⟩ := h.heap_exists hr hlt
    refine ⟨a, hperm.mem_iff.mpr (List.mem_flatMap.mpr ⟨a, ha, ?_⟩), hk⟩
    rw [cutArea_of_beside (hbeside a ha hk)]
    exact mem_singleton_self a
  · intro b hb hk
    obtain ⟨a, ha, _, hpc⟩ := hpiece b hb
    have hw := h.window a ha (by rw [← hpc.kind]; exact hk)
    have := hpc.start_ge
    have := hpc.stop_le
    omega

theorem Reserved.unmapped {start stop : Nat} (h : Reserved as) (hu : Unmapped start stop as as') :
    Reserved as' := by
  obtain ⟨ptr, hperm⟩ := hu.cut
  have hpages : as'.pages = as.pages.filter (outside start stop) := by rw [hu.eq]
  refine ⟨h.laid.unmapped hu, ?_⟩
  rw [hpages]
  exact h.agrees.cut hu.start_aligned hu.stop_aligned hu.start_lt hperm

theorem AddressSpace.Dead.laid (h : as.Dead) (hbase : as.brkBase = heapBase)
    (hge : heapBase ≤ as.brkEnd) (hle : as.brkEnd ≤ heapBase + maxMapping) : Laid as := by
  refine ⟨h.areas ▸ AreasOk.nil, hbase, hge, hle, ?_, fun hr => absurd h.root hr, ?_⟩ <;>
    simp [h.areas]

/-- A space as `address_space_init` leaves it. -/
theorem Reserved.fresh {root : Nat} (h : as = ⟨root, [], [], heapBase, heapBase⟩) :
    Reserved as := by
  subst h
  refine ⟨⟨AreasOk.nil, rfl, Nat.le_refl _, Nat.le_add_right _ _, by simp, ?_, by simp⟩, Agrees.nil⟩
  intro _ hlt
  have hround : ¬ heapBase < pageUp heapBase := by decide
  exact absurd hlt hround

theorem AddressSpace.Dead.agrees (h : as.Dead) : Agrees as.areas as.pages := by
  rw [h.areas, h.pages]
  exact Agrees.nil

/-! ## The break -/

section

variable {requested : Nat}

theorem foldl_findHeap (areas : List VmArea) (o : Option VmArea)
    (ho : ∀ a, o = some a → a.kind = .heap) :
    ∀ a, areas.foldl (fun heap a => if a.kind = .heap then some a else heap) o = some a →
      a.kind = .heap ∧ (o = some a ∨ a ∈ areas) := by
  induction areas generalizing o with
  | nil => exact fun a ha => ⟨ho a ha, .inl ha⟩
  | cons b areas ih =>
    intro a ha
    rw [foldl_cons] at ha
    by_cases hb : b.kind = .heap
    · rw [if_pos hb] at ha
      obtain ⟨hk, hin⟩ := ih (some b) (fun c hc => by cases hc; exact hb) a ha
      refine ⟨hk, .inr ?_⟩
      rcases hin with hin | hin
      · cases hin
        exact mem_cons_self
      · exact mem_cons_of_mem _ hin
    · rw [if_neg hb] at ha
      obtain ⟨hk, hin⟩ := ih o ho a ha
      exact ⟨hk, hin.imp_right (mem_cons_of_mem _)⟩

theorem findHeap_some (h : findHeap areas = some a) : a ∈ areas ∧ a.kind = .heap := by
  obtain ⟨hk, hin⟩ := foldl_findHeap areas none (by simp) a h
  exact ⟨hin.resolve_left (by simp), hk⟩

theorem foldl_findHeap_isSome (areas : List VmArea) (a : VmArea) :
    (areas.foldl (fun heap a => if a.kind = .heap then some a else heap) (some a)).isSome =
      true := by
  induction areas generalizing a with
  | nil => rfl
  | cons b areas ih =>
    rw [foldl_cons]
    split
    · exact ih b
    · exact ih a

theorem findHeap_none (h : findHeap areas = none) : ∀ a ∈ areas, a.kind ≠ .heap := by
  induction areas with
  | nil => simp
  | cons b areas ih =>
    intro a ha hk
    rw [findHeap, foldl_cons] at h
    by_cases hb : b.kind = .heap
    · rw [if_pos hb] at h
      have := foldl_findHeap_isSome areas b
      rw [h] at this
      cases this
    · rw [if_neg hb] at h
      rcases List.mem_cons.mp ha with rfl | ha
      · exact hb hk
      · exact ih h a ha hk

/-- The heap area splits the list, and does not occur before. -/
theorem AreasOk.split (h : AreasOk areas) (ha : a ∈ areas) :
    ∃ l₁ l₂, areas = l₁ ++ a :: l₂ ∧ a ∉ l₁ := by
  obtain ⟨l₁, l₂, rfl⟩ := append_of_mem ha
  refine ⟨l₁, l₂, rfl, ?_⟩
  intro hin
  have hap := (List.pairwise_append.mp h.apart).2.2 a hin a mem_cons_self
  have := (h.area_ok a ha).start_lt
  unfold VmArea.Apart at hap
  omega

theorem replace_split {b : VmArea} (h : a ∉ l₁) : (l₁ ++ a :: l₂).replace a b = l₁ ++ b :: l₂ := by
  induction l₁ with
  | nil => simp
  | cons c l₁ ih =>
    rw [mem_cons, not_or] at h
    have hne : (a == c) = false := by simpa using h.1
    simp [replace_cons, hne, ih h.2]

/-- Nobody but the heap has a page or an area above the break. -/
theorem Laid.other_beside (h : Laid as) (hsplit : as.areas = l₁ ++ a :: l₂) (hk : a.kind = .heap) :
    ∀ b ∈ l₁ ++ l₂, b.kind ≠ .heap := by
  intro b hb hbk
  have hin : ∀ c ∈ l₁ ++ l₂, c ∈ as.areas := by
    intro c hc
    rw [hsplit]
    exact mem_of_mem_others a hc
  have haa : a ∈ as.areas := by simp [hsplit]
  have ha := h.heap_at a haa hk
  have hb' := h.heap_at b (hin b hb) hbk
  have hap : a.Apart b := by
    have hp := h.areas_ok.apart
    rw [hsplit, pairwise_append, pairwise_cons] at hp
    rcases List.mem_append.mp hb with hb | hb
    · exact (hp.2.2 b hb a mem_cons_self).symm
    · exact hp.2.1.1 b hb
  have := (h.areas_ok.area_ok a haa).start_lt
  unfold VmArea.Apart at hap
  omega

theorem flagsOk_heapFlags : FlagsOk heapFlags := ⟨by decide, by decide, by decide⟩

/-- A break within bounds, rounded up. -/
theorem pageUp_brk (hge : heapBase ≤ requested) (hle : requested ≤ heapBase + maxMapping) :
    heapBase ≤ pageUp requested ∧ pageUp requested ≤ heapBase + maxMapping ∧
      pageUp requested % 4096 = 0 := by
  have hbase : heapBase = 4096 * 2048 := rfl
  have hmax : maxMapping = 4096 * 4096 := rfl
  rw [pageUp_eq]
  omega

/-- What `brk` changes besides ledger and areas. -/
structure BrkTo (requested : Nat) (as as' : AddressSpace) : Prop where
  root : as'.root = as.root
  base : as'.brkBase = as.brkBase
  brk : as'.brkEnd = requested
  ge : heapBase ≤ requested
  le : requested ≤ heapBase + maxMapping

theorem BrkTo.end_ge (h : BrkTo requested as as') : heapBase ≤ as'.brkEnd := by
  rw [h.brk]
  exact h.ge

theorem BrkTo.end_le (h : BrkTo requested as as') : as'.brkEnd ≤ heapBase + maxMapping := by
  rw [h.brk]
  exact h.le

theorem Laid.brk_same (h : Laid as) (hb : BrkTo requested as as') (hareas : as'.areas = as.areas)
    (hsame : pageUp requested = pageUp as.brkEnd) : Laid as' := by
  refine ⟨hareas ▸ h.areas_ok, hb.base.trans h.brk_base, hb.end_ge, hb.end_le, ?_, ?_, ?_⟩
  · intro a ha hk
    rw [hb.root, hb.base, hb.brk, hsame]
    exact h.heap_at a (hareas ▸ ha) hk
  · intro hr hlt
    rw [hb.root] at hr
    rw [hb.base, hb.brk, hsame] at hlt
    rw [hareas]
    exact h.heap_exists hr hlt
  · rw [hareas]
    exact h.window

/-- The heap area takes its new end. -/
theorem Laid.brk_move (h : Laid as) (hb : BrkTo requested as as')
    (hsplit : as.areas = l₁ ++ a :: l₂) (hk : a.kind = .heap)
    (hareas : as'.areas = l₁ ++ { a with stop := pageUp requested } :: l₂)
    (hok : AreasOk as'.areas) : Laid as' := by
  have ha := h.heap_at a (by simp [hsplit]) hk
  have hother := h.other_beside hsplit hk
  have hmem : ∀ b ∈ as'.areas, b = { a with stop := pageUp requested } ∨ b ∈ l₁ ++ l₂ := by
    intro b hb'
    rw [hareas] at hb'
    simp only [mem_append, mem_cons] at hb' ⊢
    tauto
  have hin : ∀ b ∈ l₁ ++ l₂, b ∈ as.areas := by
    intro b hb'
    rw [hsplit]
    exact mem_of_mem_others a hb'
  refine ⟨hok, hb.base.trans h.brk_base, hb.end_ge, hb.end_le, ?_, ?_, ?_⟩
  · intro b hb' hbk
    rcases hmem b hb' with rfl | hb'
    · rw [hb.root, hb.base, hb.brk]
      exact ⟨ha.1, ha.2.1, rfl, ha.2.2.2⟩
    · exact absurd hbk (hother b hb')
  · refine fun _ _ => ⟨{ a with stop := pageUp requested }, ?_, hk⟩
    rw [hareas]
    exact mem_append_right _ mem_cons_self
  · intro b hb' hbk
    rcases hmem b hb' with rfl | hb'
    · exact absurd hk hbk
    · exact h.window b (hin b hb') hbk

/-- The heap gets its first area. -/
theorem Laid.brk_first {fresh : Nat} (h : Laid as) (hb : BrkTo requested as as')
    (hnone : ∀ a ∈ as.areas, a.kind ≠ .heap) (hroot : as.root ≠ 0)
    (hareas : as'.areas = as.areas ++ [⟨fresh, as.brkBase, pageUp requested, heapFlags, .heap⟩])
    (hok : AreasOk as'.areas) : Laid as' := by
  refine ⟨hok, hb.base.trans h.brk_base, hb.end_ge, hb.end_le, ?_, ?_, ?_⟩
  · intro b hb' hbk
    rw [hareas] at hb'
    rcases List.mem_append.mp hb' with hb' | hb'
    · exact absurd hbk (hnone b hb')
    rw [mem_singleton] at hb'
    rw [hb', hb.root, hb.base, hb.brk]
    exact ⟨hroot, rfl, rfl, rfl⟩
  · refine fun _ _ => ⟨⟨fresh, as.brkBase, pageUp requested, heapFlags, .heap⟩, ?_, rfl⟩
    rw [hareas]
    exact mem_append_right _ (mem_singleton_self _)
  · intro b hb' hbk
    rw [hareas] at hb'
    rcases List.mem_append.mp hb' with hb' | hb'
    · exact h.window b hb' hbk
    · rw [mem_singleton] at hb'
      exact absurd (hb' ▸ rfl) hbk

/-- The heap loses its area. -/
theorem Laid.brk_last (h : Laid as) (hb : BrkTo requested as as')
    (hsplit : as.areas = l₁ ++ a :: l₂) (hk : a.kind = .heap) (hareas : as'.areas = l₁ ++ l₂)
    (hempty : pageUp requested = as.brkBase) (hok : AreasOk as'.areas) : Laid as' := by
  have hother := h.other_beside hsplit hk
  refine ⟨hok, hb.base.trans h.brk_base, hb.end_ge, hb.end_le, ?_, ?_, ?_⟩
  · intro b hb' hbk
    exact absurd hbk (hother b (hareas ▸ hb'))
  · intro _ hlt
    rw [hb.base, hb.brk, hempty] at hlt
    exact absurd hlt (Nat.lt_irrefl _)
  · intro b hb' hbk
    refine h.window b ?_ hbk
    rw [hsplit]
    exact mem_of_mem_others a (hareas ▸ hb')

end

/-! ## Copies -/

/-- An area without the address of its record. -/
def VmArea.shape (a : VmArea) : Nat × Nat × Nat × AreaKind := (a.start, a.stop, a.flags, a.kind)

/-- A page without the address of its record and without its physical page. -/
def UserPage.shape (p : UserPage) : Nat × Nat := (p.virtualAddress, p.flags)

/-- `as'` has the areas, the ledger and the break of `as`, under records and on
physical pages of its own. -/
structure SameShape (as as' : AddressSpace) : Prop where
  areas : as'.areas.map VmArea.shape = as.areas.map VmArea.shape
  pages : as'.pages.map UserPage.shape = as.pages.map UserPage.shape
  brkBase : as'.brkBase = as.brkBase
  brkEnd : as'.brkEnd = as.brkEnd

theorem exists_of_shape {α β : Type} {f : α → β} {l l' : List α} (h : l'.map f = l.map f) {x : α}
    (hx : x ∈ l') : ∃ y ∈ l, f y = f x := by
  have hmem : f x ∈ l.map f := h ▸ mem_map_of_mem hx
  obtain ⟨y, hy, hyx⟩ := List.mem_map.mp hmem
  exact ⟨y, hy, hyx⟩

/-- An area of one list is an area of the other, up to its record. -/
theorem exists_area (h : areas'.map VmArea.shape = areas.map VmArea.shape) {a : VmArea}
    (ha : a ∈ areas') :
    ∃ b ∈ areas, b.start = a.start ∧ b.stop = a.stop ∧ b.flags = a.flags ∧ b.kind = a.kind := by
  obtain ⟨b, hb, hba⟩ := exists_of_shape h ha
  simp only [VmArea.shape, Prod.mk.injEq] at hba
  exact ⟨b, hb, hba⟩

theorem exists_page {pages pages' : List UserPage}
    (h : pages'.map UserPage.shape = pages.map UserPage.shape) {p : UserPage} (hp : p ∈ pages') :
    ∃ q ∈ pages, q.virtualAddress = p.virtualAddress ∧ q.flags = p.flags := by
  obtain ⟨q, hq, hqp⟩ := exists_of_shape h hp
  simp only [UserPage.shape, Prod.mk.injEq] at hqp
  exact ⟨q, hq, hqp⟩

theorem AreasOk.copy (h : AreasOk areas) (hs : areas'.map VmArea.shape = areas.map VmArea.shape) :
    AreasOk areas' := by
  refine ⟨?_, ?_, ?_⟩
  · intro a ha
    obtain ⟨b, hb, h1, h2, _⟩ := exists_area hs ha
    obtain ⟨hlt, hsa, hea, hle⟩ := h.area_ok b hb
    exact ⟨by omega, by omega, by omega, by omega⟩
  · intro a ha
    obtain ⟨b, hb, _, _, hf, _⟩ := exists_area hs ha
    exact hf ▸ h.flags_ok b hb
  · -- being apart only depends on the shape
    have hpair : (areas.map VmArea.shape).Pairwise
        fun x y : Nat × Nat × Nat × AreaKind => x.2.1 ≤ y.1 ∨ y.2.1 ≤ x.1 :=
      List.pairwise_map.mpr h.apart
    rw [← hs, pairwise_map] at hpair
    exact hpair

theorem Agrees.copy {pages pages' : List UserPage} (h : Agrees areas pages)
    (hs : areas'.map VmArea.shape = areas.map VmArea.shape)
    (hp : pages'.map UserPage.shape = pages.map UserPage.shape) : Agrees areas' pages' := by
  refine ⟨h.areas_ok.copy hs, ?_, ?_, ?_, ?_⟩
  · have hva : pages'.map UserPage.virtualAddress = pages.map UserPage.virtualAddress := by
      have := congrArg (map Prod.fst) hp
      simpa [UserPage.shape, Function.comp_def] using this
    rw [hva]
    exact h.distinct
  · intro p hin
    obtain ⟨q, hq, hva, _⟩ := exists_page hp hin
    rw [← hva]
    exact h.aligned q hq
  · intro p hin
    obtain ⟨q, hq, hva, hf⟩ := exists_page hp hin
    obtain ⟨b, hb, hlo, hhi, hbf⟩ := h.covered q hq
    obtain ⟨a, ha, h1, h2, h3, _⟩ := exists_area hs.symm hb
    exact ⟨a, ha, by omega, by omega, by rw [← hf, hbf, h3]⟩
  · intro a ha v hal hlo hhi
    obtain ⟨b, hb, h1, h2, _, h4⟩ := exists_area hs ha
    have hback : b.backed = a.backed := by
      unfold VmArea.backed
      rw [h1, h4]
    obtain ⟨q, hq, hva⟩ := h.populated b hb v hal (by omega) (by omega)
    obtain ⟨p, hin, hva', _⟩ := exists_page hp.symm hq
    exact ⟨p, hin, hva'.trans hva⟩

theorem Laid.copy (h : Laid as) (hs : SameShape as as') (hr : as.root ≠ 0) (hr' : as'.root ≠ 0) :
    Laid as' := by
  refine ⟨h.areas_ok.copy hs.areas, hs.brkBase.trans h.brk_base, ?_, ?_, ?_, ?_, ?_⟩
  · rw [hs.brkEnd]
    exact h.brk_ge
  · rw [hs.brkEnd]
    exact h.brk_le
  · intro a ha hk
    obtain ⟨b, hb, h1, h2, h3, h4⟩ := exists_area hs.areas ha
    obtain ⟨_, hstart, hstop, hf⟩ := h.heap_at b hb (h4.trans hk)
    rw [hs.brkBase, hs.brkEnd, ← h1, ← h2, ← h3]
    exact ⟨hr', hstart, hstop, hf⟩
  · intro _ hlt
    rw [hs.brkBase, hs.brkEnd] at hlt
    obtain ⟨b, hb, hk⟩ := h.heap_exists hr hlt
    obtain ⟨a, ha, _, _, _, h4⟩ := exists_area hs.areas.symm hb
    exact ⟨a, ha, h4.trans hk⟩
  · intro a ha hk
    obtain ⟨b, hb, h1, h2, _, h4⟩ := exists_area hs.areas ha
    rw [← h1, ← h2]
    exact h.window b hb (h4 ▸ hk)

end MiniCore
