import MiniCore.Kernel.Spaces
import MiniCore.Mm.UserCopy

/-!
# MiniCore.Kernel.Agreement

What holds of every address space in every reachable world: its reservations,
its ledger and its page table agree (`Boot.threeLayers`), and through them the
user reaches nothing but its own pages, none of them writable and executable at
once (`Boot.isolated`).

Both are read off `Sound`: the reservations and the ledger are compared by
`Reserved`, the ledger and the table by `Owned`, and two spaces or a space and
the kernel by the pool they share.
-/

namespace MiniCore

open Lib Multiset

variable {P : PagePool} {m m₀ : Machine} {as : AddressSpace} {t kernel : Radix} {shared : Nat → Nat}
  {rest objs held : Multiset Nat} {kernelRoot : Nat} {w : World}

/-! ## Three layers -/

/-- The bits of a flag word that both the ledger and the table keep. -/
def rights (flags : Nat) : Nat := flags &&& (pteR ||| pteW ||| pteX ||| pteU)

/-- The reservations, the ledger and the page table of a space agree. -/
structure ThreeLayers (m : Machine) (as : AddressSpace) : Prop where
  area_ok : ∀ a ∈ as.areas,
    a.start < a.stop ∧ a.start % 4096 = 0 ∧ a.stop % 4096 = 0 ∧ a.stop ≤ 2 ^ 38
  areas_apart : as.areas.Pairwise fun a b => a.stop ≤ b.start ∨ b.stop ≤ a.start
  pages_distinct : (as.pages.map UserPage.virtualAddress).Nodup
  /-- A page lies in one area, meets no other, and has its flags. -/
  page_area : ∀ p ∈ as.pages, ∃ a ∈ as.areas,
    a.start ≤ p.virtualAddress ∧ p.virtualAddress + 4096 ≤ a.stop ∧ p.flags = a.flags ∧
      ∀ b ∈ as.areas, b.start < p.virtualAddress + 4096 → p.virtualAddress < b.stop → b = a
  /-- Every page of an area is on the ledger, but for the guard of a stack. -/
  area_pages : ∀ a ∈ as.areas, ∀ v, v % 4096 = 0 →
    (if a.kind = .stack then a.start + 4096 else a.start) ≤ v → v < a.stop →
    ∃ p ∈ as.pages, p.virtualAddress = v
  translated : ∀ v < 2 ^ 38, (vmQuery as.root v m).isSome = true ↔
    ∃ p ∈ as.pages, p.Covers v ∧ p.flags &&& (pteR ||| pteX) ≠ 0
  translation : ∀ v, ∀ p ∈ as.pages, p.Covers v → p.flags &&& (pteR ||| pteX) ≠ 0 →
    ∃ flags, vmQuery as.root v m = some (p.physical + (v - p.virtualAddress), flags) ∧
      rights flags = rights p.flags
  heap_iff : as.root ≠ 0 →
    ((∃ a ∈ as.areas, a.kind = .heap) ↔ as.brkBase < pageUp as.brkEnd)
  heap_one : (as.areas.filter fun a => a.kind = .heap).length ≤ 1
  heap_at : ∀ a ∈ as.areas, a.kind = .heap → a.start = as.brkBase ∧ a.stop = pageUp as.brkEnd

theorem mapped_iff {flags : Nat} : mapped flags = true ↔ flags &&& (pteR ||| pteX) ≠ 0 := by
  simp [mapped]

theorem rights_hardwareFlags {flags : Nat} (h : flags < 64) :
    rights (hardwareFlags flags) = rights flags := (hardwareFlags_spec flags h).2.2.2.1

/-- Two heap areas would be the same range. -/
theorem Laid.heap_one (h : Laid as) : (as.areas.filter fun a => a.kind = .heap).length ≤ 1 := by
  have hap : (as.areas.filter fun a => a.kind = .heap).Pairwise VmArea.Apart :=
    h.areas_ok.apart.sublist List.filter_sublist
  cases hf : as.areas.filter fun a => a.kind = .heap with
  | nil => simp
  | cons a l =>
    cases l with
    | nil => simp
    | cons b l =>
      have hheap : ∀ c ∈ [a, b], c ∈ as.areas ∧ c.kind = .heap := by
        intro c hc
        have hmem : c ∈ as.areas.filter fun a => a.kind = .heap := by
          rw [hf]
          exact List.mem_append_left l hc
        simpa using List.mem_filter.mp hmem
      obtain ⟨ha, hka⟩ := hheap a (by simp)
      obtain ⟨hb, hkb⟩ := hheap b (by simp)
      rw [hf] at hap
      have hab : a.Apart b := (List.pairwise_cons.mp hap).1 b (by simp)
      have hata := h.heap_at a ha hka
      have hatb := h.heap_at b hb hkb
      have hlt := (h.areas_ok.area_ok a ha).start_lt
      unfold VmArea.Apart at hab
      omega

/-- **The layers of one sound space.** -/
theorem Owned.layers_agree (h : Owned P m as t shared rest objs) (hr : Reserved as) :
    ThreeLayers m as := by
  have hok := hr.laid.areas_ok
  refine ⟨?_, hok.apart, hr.agrees.distinct, ?_, hr.agrees.populated, ?_, ?_, ?_,
    hr.laid.heap_one, ?_⟩
  · intro a ha
    obtain ⟨h1, h2, h3, h4⟩ := hok.area_ok a ha
    exact ⟨h1, h2, h3, h4⟩
  · intro p hp
    obtain ⟨a, ha, hlo, hhi, hf⟩ := hr.agrees.covered p hp
    have hal := hr.agrees.aligned p hp
    have hstop := (hok.area_ok a ha).stop_aligned
    refine ⟨a, ha, hlo, by omega, hf, fun b hb hlo' hhi' => ?_⟩
    have hbs := (hok.area_ok b hb).start_aligned
    exact hok.eq_of_meet hb ha (by omega) (by omega)
  · intro v hv
    constructor
    · intro hq
      obtain ⟨r, hq⟩ := Option.isSome_iff_exists.mp hq
      obtain ⟨p, hp, hm, hc, _⟩ := h.vmQuery_some hv hq
      exact ⟨p, hp, hc, mapped_iff.mp hm⟩
    · rintro ⟨p, hp, hc, hm⟩
      rw [h.vmQuery_page hp (mapped_iff.mpr hm) hc]
      rfl
  · intro v p hp hc hm
    have hlt := validLeafFlags_lt ((h.page_ok p hp).valid (mapped_iff.mpr hm))
    exact ⟨_, h.vmQuery_page hp (mapped_iff.mpr hm) hc, rights_hardwareFlags hlt⟩
  · intro hroot
    constructor
    · rintro ⟨a, ha, hk⟩
      have hat := hr.laid.heap_at a ha hk
      have hlt := (hok.area_ok a ha).start_lt
      omega
    · exact hr.laid.heap_exists hroot
  · intro a ha hk
    have hat := hr.laid.heap_at a ha hk
    exact ⟨hat.2.1, hat.2.2.1⟩

/-- A struct of a reachable world, with its table and everything else as rest. -/
theorem Boot.focus (hb : Boot kernelRoot kernel held m₀)
    (hr : Reach (step kernelRoot) (fun _ op => op.raw = false) ⟨m₀, []⟩ w) {i : Nat}
    {as : AddressSpace} (hi : w.spaces[i]? = some as) :
    ∃ l t, l.map Prod.fst = w.spaces ∧ l[i]? = some (as, t) ∧ Reserved as ∧
      Sound hb.pool (fun i => entry m₀.mem kernelRoot i) True (kernel.frames + held)
        (liveBag m₀.slabs) m₀ w.machine l := by
  obtain ⟨l, hl, hs⟩ : w.Sound hb.pool kernelRoot True (kernel.frames + held)
    (liveBag m₀.slabs) m₀ :=
    hb.reach (fun _ _ _ h => h) hr
  obtain ⟨t, hx⟩ := exists_entry hl hi
  have hmem := List.mem_of_getElem? hx
  exact ⟨l, t, hl, hx, ⟨(hs.space _ hmem).laid, hs.agrees trivial _ hmem⟩, hs⟩

/-- **Three-layer agreement**: in every world reached by any calls that go
through the reservations, failing or not, every struct has its three layers in
agreement. -/
theorem Boot.threeLayers (hb : Boot kernelRoot kernel held m₀)
    (hr : Reach (step kernelRoot) (fun _ op => op.raw = false) ⟨m₀, []⟩ w) {as : AddressSpace}
    (has : as ∈ w.spaces) : ThreeLayers w.machine as := by
  obtain ⟨i, hi⟩ := List.getElem?_of_mem has
  obtain ⟨l, t, _, hx, hres, hs⟩ := hb.focus hr hi
  exact (hs.focus hx).layers_agree hres

theorem smallRun_threeLayers : ∃ w, runSteps (step 4096) ⟨smallMachine, []⟩ smallRun = some w ∧
    w.spaces.map (fun as => (as.areas.length, as.pages.length)) = [(2, 5), (2, 5)] ∧
    ∀ as ∈ w.spaces, ThreeLayers w.machine as := by
  obtain ⟨w, hrun, hsize⟩ := smallRun_reaches
  refine ⟨w, hrun, hsize, fun as has => ?_⟩
  exact smallMachine_boot.threeLayers (Reach.of_runSteps hrun (by simp [smallRun, Op.raw])) has

/-! ## Isolation -/

/-- A word that the hardware takes for a leaf above the lowest level. -/
def isHugeLeaf (pte : Nat) : Prop := pte &&& pteV ≠ 0 ∧ isTable pte = false

/-- The valid leaf words under the root slots `0..255`, at any of the three
levels a walk may stop at. -/
inductive UserLeaf (mem : Memory) (root : Nat) : Nat → Prop
  | giga {i : Nat} : i < 256 → isHugeLeaf (entry mem root i) → UserLeaf mem root (entry mem root i)
  | mega {i j : Nat} : i < 256 → isTable (entry mem root i) = true → j < 512 →
      isHugeLeaf (entry mem (ptePhysical (entry mem root i)) j) →
      UserLeaf mem root (entry mem (ptePhysical (entry mem root i)) j)
  | page {i j k : Nat} : i < 256 → isTable (entry mem root i) = true → j < 512 →
      isTable (entry mem (ptePhysical (entry mem root i)) j) = true → k < 512 →
      entry mem (ptePhysical (entry mem (ptePhysical (entry mem root i)) j)) k &&& pteV ≠ 0 →
      UserLeaf mem root (entry mem (ptePhysical (entry mem (ptePhysical (entry mem root i)) j)) k)

theorem not_isHugeLeaf_tableWord {o : Option Nat} (ho : ∀ p, o = some p → IsPage p) :
    ¬ isHugeLeaf (tableWord o) := by
  cases o with
  | none => exact fun h => h.1 rfl
  | some p =>
    rintro ⟨_, hnot⟩
    rw [tableWord, isTable_makeTablePte (ho p rfl)] at hnot
    cases hnot

theorem eq_some_of_isTable {o : Option Nat} (ho : ∀ p, o = some p → IsPage p)
    (h : isTable (tableWord o) = true) : o = some (ptePhysical (tableWord o)) := by
  have hslot := slot_of_tableWord ho
  rw [if_pos h] at hslot
  exact hslot.symm

/-- **A leaf in the user half is the leaf of a ledger page.** -/
theorem Owned.page_of_leaf (h : Owned P m as t shared rest objs) (hroot : as.root ≠ 0) {pte : Nat}
    (hleaf : UserLeaf m.mem as.root pte) :
    ∃ p ∈ as.pages, mapped p.flags = true ∧ pte = leafPte p.physical p.flags := by
  have hrep := h.tabled.rep
  rw [← h.root_eq] at hleaf hroot
  have hmid : ∀ {i p}, t.mid i = some p → IsPage p := fun hm => h.tabled.isPage (hrep.mem_mid hm)
  have hlow : ∀ {j p}, t.low j = some p → IsPage p := fun hl => h.tabled.isPage (hrep.mem_low hl)
  have hentry : ∀ {i}, i < 256 → entry m.mem t.root i = tableWord (t.mid i) :=
    fun hi => hrep.root_entry hroot _ (h.width ▸ hi)
  cases hleaf with
  | giga hi hhuge =>
    rw [hentry hi] at hhuge
    exact absurd hhuge (not_isHugeLeaf_tableWord fun p hp => hmid hp)
  | mega hi htab hj hhuge =>
    rw [hentry hi] at htab hhuge
    rw [hrep.mid_entry (eq_some_of_isTable (fun p hp => hmid hp) htab) _ hj] at hhuge
    exact absurd hhuge (not_isHugeLeaf_tableWord fun p hp => hlow hp)
  | @page i j k hi htab hj htab' hk hvalid =>
    rw [hentry hi] at htab htab' hvalid ⊢
    have hm := eq_some_of_isTable (fun p hp => hmid hp) htab
    rw [hrep.mid_entry hm _ hj] at htab' hvalid ⊢
    have hl := eq_some_of_isTable (fun p hp => hlow hp) htab'
    rw [hrep.low_entry hl _ hk] at hvalid ⊢
    have hne : t.leaf (512 * (512 * i + j) + k) ≠ 0 := fun hz => hvalid (by rw [hz]; rfl)
    obtain ⟨p, hp, hmap, hdiv⟩ := h.leaves.page_of _ hne
    exact ⟨p, hp, hmap, by rw [← hdiv, h.leaves.of_page p hp hmap]⟩

/-- The permission bits of a leaf are those of its flags. -/
theorem leafPte_and {p flags c : Nat} (hp : IsPage p) (h : validLeafFlags flags = true)
    (hc : c ∈ [pteR, pteW, pteX, pteU]) : leafPte p flags &&& c = flags &&& c := by
  obtain ⟨q, _, rfl⟩ := hp.ppn
  have hlt := validLeafFlags_lt h
  have hc' : c < 1024 := by
    simp only [List.mem_cons, List.not_mem_nil, or_false] at hc
    rcases hc with rfl | rfl | rfl | rfl <;> decide
  have hall : ∀ f < 64, ∀ c ∈ [pteR, pteW, pteX, pteU], hardwareFlags f &&& c = f &&& c := by decide
  rw [leaf_eq hlt, and_low hc', hall flags hlt c hc]

/-- The space `as` at index `i` is closed off: its leaves are user leaves, never
writable and executable; its upper half is the kernel's; and what the kernel
copies or validates on its behalf is on its own ledger, whose pages nobody else
has.  `kept` are the pages of the kernel. -/
structure Isolated (kernelRoot : Nat) (kept : Multiset Nat) (m₀ : Machine) (w : World) (i : Nat)
    (as : AddressSpace) : Prop where
  leaf : as.root ≠ 0 → ∀ pte, UserLeaf w.machine.mem as.root pte →
    pte &&& pteU ≠ 0 ∧ ¬ (pte &&& pteW ≠ 0 ∧ pte &&& pteX ≠ 0) ∧
      (pte &&& pteW ≠ 0 → pte &&& pteR ≠ 0)
  upper : as.root ≠ 0 → ∀ n, 256 ≤ n → n < 512 →
    entry w.machine.mem as.root n = entry m₀.mem kernelRoot n
  /-- The kernel's slots never change, so it does not matter when they were copied. -/
  kernel : ∀ n < 512, entry w.machine.mem kernelRoot n = entry m₀.mem kernelRoot n
  copy_touches : ∀ buffer address size toUser,
    ∀ r ∈ (addressSpaceCopy as buffer address size toUser w.machine).2.touched,
    ∃ p ∈ as.pages, p.physical ≤ r.1 ∧ r.1 + r.2 ≤ p.physical + 4096
  copy_writes : ∀ buffer address size toUser b,
    (addressSpaceCopy as buffer address size toUser w.machine).2.machine.mem b ≠ w.machine.mem b →
    ∃ p ∈ as.pages, p.physical ≤ b ∧ b < p.physical + 4096
  /-- Change any byte outside the space's tables and ledger pages: copying and
  validating return what they returned. -/
  copy_reads : ∀ mem : Memory,
    (∀ p ∈ tablePages w.machine.mem as.root 256 ++ as.pages.map UserPage.physical,
      Set.EqOn mem w.machine.mem (pageBytes p)) →
    ∀ buffer address size toUser,
      (addressSpaceCopy as buffer address size toUser { w.machine with mem := mem }).1 =
          (addressSpaceCopy as buffer address size toUser w.machine).1 ∧
        (addressSpaceCopy as buffer address size toUser { w.machine with mem := mem }).2.buffer =
          (addressSpaceCopy as buffer address size toUser w.machine).2.buffer ∧
        addressSpaceValidate as address size toUser { w.machine with mem := mem } =
          addressSpaceValidate as address size toUser w.machine
  validate : ∀ address size write, addressSpaceValidate as address size write w.machine = true →
    ∀ a, address ≤ a → a < address + size → ∃ p ∈ as.pages, p.Covers a ∧
      p.flags &&& pteU ≠ 0 ∧ p.flags &&& pteR ≠ 0 ∧ (write = true → p.flags &&& pteW ≠ 0)
  own : ∀ p ∈ as.pages, p.physical ∉ kept ∧ p.physical ∉ tablePages w.machine.mem as.root 256 ∧
    ∀ j as', j ≠ i → w.spaces[j]? = some as' →
      p.physical ∉ as'.pages.map UserPage.physical ∧
        p.physical ∉ tablePages w.machine.mem as'.root 256

section

variable {strict : Prop} {kept : Multiset Nat} {l : List (AddressSpace × Radix)}
  {x : AddressSpace × Radix} {i : Nat}

variable (h : Sound P shared strict kept objs m₀ m l)

include h

/-- The tables found in memory are the tables of the struct. -/
theorem Sound.tablePages_eq (hi : l[i]? = some x) :
    (tablePages m.mem x.1.root 256 : Multiset Nat) = x.2.frames := by
  have hown := h.focus hi
  have heq := hown.tabled.rep.tablePages_eq fun p hp => hown.tabled.isPage hp
  rwa [hown.width, hown.root_eq] at heq

theorem Sound.mem_tablePages (hi : l[i]? = some x)
    {p : Nat} : p ∈ tablePages m.mem x.1.root 256 ↔ p ∈ x.2.frames := by
  rw [← h.tablePages_eq hi, mem_coe]

/-- A ledger page has no other owner. -/
theorem Sound.own (hi : l[i]? = some x) {p : UserPage}
    (hp : p ∈ x.1.pages) : p.physical ∉ kept ∧ p.physical ∉ tablePages m.mem x.1.root 256 ∧
      ∀ j y, j ≠ i → l[j]? = some y → p.physical ∉ y.1.pages.map UserPage.physical ∧
        p.physical ∉ tablePages m.mem y.1.root 256 := by
  have hphys : p.physical ∈ x.1.physicals := List.mem_map_of_mem hp
  have hnd := Multiset.nodup_add.mp (h.focus hi).tabled.stock.nodup_rest
  have hnd' := Multiset.nodup_add.mp hnd.2.1
  have hother : p.physical ∉ shares (l.eraseIdx i) + kept := fun hmem =>
    Multiset.disjoint_left.mp hnd'.2.2 hphys hmem
  refine ⟨fun hk => hother (Multiset.mem_add.mpr (.inr hk)), ?_, ?_⟩
  · rw [h.mem_tablePages hi]
    exact fun hf => Multiset.disjoint_left.mp hnd.2.2 hf (Multiset.mem_add.mpr (.inl hphys))
  intro j y hji hj
  have hy : y ∈ l.eraseIdx i := List.mem_eraseIdx_iff_getElem?.mpr ⟨j, hji, hj⟩
  have hnot : p.physical ∉ share y := fun hmem =>
    hother (Multiset.mem_add.mpr (.inl (mem_of_le (mem_shares hy) hmem)))
  constructor
  · exact fun hmem => hnot (Multiset.mem_add.mpr (.inr hmem))
  · rw [h.mem_tablePages hj]
    exact fun hmem => hnot (Multiset.mem_add.mpr (.inl hmem))

end

/-- **User isolation and W^X**, for every struct of every reachable world. -/
theorem Boot.isolated (hb : Boot kernelRoot kernel held m₀)
    (hr : Reach (step kernelRoot) (fun _ op => op.raw = false) ⟨m₀, []⟩ w) {i : Nat}
    {as : AddressSpace} (hi : w.spaces[i]? = some as) :
    Isolated kernelRoot (kernel.frames + held) m₀ w i as := by
  obtain ⟨l, t, hl, hx, hres, hs⟩ := hb.focus hr hi
  have hown := hs.focus hx
  refine ⟨?_, ?_, hs.upper hb.mem_kernel, ?_, ?_, ?_, fun _ _ _ hv _ => hown.validate_covers hv, ?_⟩
  · intro hroot pte hleaf
    obtain ⟨p, hp, hm, rfl⟩ := hown.page_of_leaf hroot hleaf
    have hvalid := (hown.page_ok p hp).valid hm
    obtain ⟨a, ha, _, _, hf⟩ := hres.agrees.covered p hp
    have hok : FlagsOk p.flags := hf ▸ hres.laid.areas_ok.flags_ok a ha
    have hbit : ∀ c ∈ [pteR, pteW, pteX, pteU], leafPte p.physical p.flags &&& c = p.flags &&& c :=
      fun c hc => leafPte_and (hown.isPage hp) hvalid hc
    rw [hbit pteR (by simp), hbit pteW (by simp), hbit pteX (by simp), hbit pteU (by simp)]
    refine ⟨hok.user, fun hwx => ?_, hok.read_of_write⟩
    rcases hok.write_xor_exec with hz | hz
    · exact hwx.1 hz
    · exact hwx.2 hz
  · intro hroot n hlo hhi
    have hrep := hown.tabled.rep
    rw [← hown.root_eq] at hroot ⊢
    exact hrep.shared_entry hroot n (hown.width ▸ hlo) hhi
  · intro buffer address size toUser
    exact (addressSpaceCopy_spec hown buffer address size toUser).2.1.holds
  · intro buffer address size toUser b hne
    by_contra hout
    refine hne ((addressSpaceCopy_spec hown buffer address size toUser).2.1.mem b fun p hp hb => ?_)
    exact hout ⟨p, hp, hb⟩
  · intro mem heq buffer address size toUser
    have hbytes : ∀ p ∈ as.pages, Set.EqOn mem w.machine.mem (pageBytes p.physical) := fun p hp =>
      heq _ (List.mem_append_right _ (List.mem_map_of_mem hp))
    have hown' : Owned hb.pool { w.machine with mem := mem } as t
        (fun i => entry m₀.mem kernelRoot i) _ _ :=
      ⟨hown.tabled.congr (hown.tabled.stock.congr rfl rfl rfl) fun p hp =>
        heq p (List.mem_append_left _ ((hs.mem_tablePages hx).mpr hp)),
        hown.root_eq, hown.width, hown.tight, hown.leaves, hown.page_ok, hown.live⟩
    obtain ⟨hres, hstep⟩ := addressSpaceCopy_congr hown hown' hbytes buffer address size toUser
    exact ⟨hres, hstep.buffer, hown.validate_congr hown' address size toUser⟩
  · intro p hp
    obtain ⟨hkept, htab, hother⟩ := hs.own hx hp
    refine ⟨hkept, htab, fun j as' hji hj => ?_⟩
    obtain ⟨u, hy⟩ := exists_entry hl hj
    exact hother j (as', u) hji hy

theorem smallRun_isolated : ∃ w, runSteps (step 4096) ⟨smallMachine, []⟩ smallRun = some w ∧
    w.spaces.map (fun as => (as.areas.length, as.pages.length)) = [(2, 5), (2, 5)] ∧
    ∀ i as, w.spaces[i]? = some as →
      Isolated 4096 ((Radix.bare 4096 512).frames + 0) smallMachine w i as := by
  obtain ⟨w, hrun, hsize⟩ := smallRun_reaches
  refine ⟨w, hrun, hsize, fun i as hi => ?_⟩
  exact smallMachine_boot.isolated (Reach.of_runSteps hrun (by simp [smallRun, Op.raw])) hi

end MiniCore
