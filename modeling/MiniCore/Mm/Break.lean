import MiniCore.Mm.Unmapping
import MiniCore.Mm.UserCopy

/-!
# MiniCore.Mm.Break

The heap of a program, as `address_space_brk` moves its end
(`src/mm/address_space.c`).

The exact break and the page-rounded area evolve separately in the code.  What
the program has is a `UserHeap`: the break, and the bytes below its last page.
Moving the break cuts bytes off or adds zeros, and a write of the program
replaces bytes; nothing else changes it.
-/

namespace MiniCore

open Lib

variable {as as' : AddressSpace} {m m' : Machine} {rest : Multiset Nat} {requested : Nat}

variable {old stop : Nat}

/-! ## The heap of a program -/

/-- The break and the bytes of the heap; there is nothing behind its last page,
which is written as zero. -/
@[ext] structure UserHeap where
  brk : Nat
  bytes : Nat → UInt8

namespace UserHeap

/-- The pages of the heap. -/
def Covers (h : UserHeap) (a : Nat) : Prop := heapBase ≤ a ∧ a < pageUp h.brk

def empty : UserHeap := ⟨heapBase, fun _ => 0⟩

/-- The break moves: what is cut off is lost, what is added is zero. -/
def move (h : UserHeap) (requested : Nat) : UserHeap where
  brk := requested
  bytes a := if a < pageUp requested then h.bytes a else 0

/-- The program writes `n` bytes at `a`, as far as they are on the heap. -/
def write (h : UserHeap) (a n : Nat) (f : Nat → UInt8) : UserHeap where
  brk := h.brk
  bytes b := if (heapBase ≤ b ∧ b < pageUp h.brk) ∧ a ≤ b ∧ b < a + n then f (b - a) else h.bytes b

theorem write_zero (h : UserHeap) (a : Nat) (f : Nat → UInt8) : h.write a 0 f = h := by
  refine UserHeap.ext rfl (funext fun b => ?_)
  exact if_neg (by omega)

end UserHeap

/-- The byte that the page table shows at an address. -/
def shownByte (as : AddressSpace) (m : Machine) (a : Nat) : UInt8 :=
  ((peek as m a).map Prod.snd).getD 0

/-- The heap of a struct, read through its page table. -/
def AddressSpace.heap (as : AddressSpace) (m : Machine) : UserHeap where
  brk := as.brkEnd
  bytes a := if heapBase ≤ a ∧ a < pageUp as.brkEnd then shownByte as m a else 0

/-- Exactly the pages from the base to the rounded break are there for the heap. -/
structure HeapExact (as : AddressSpace) (m : Machine) : Prop where
  area : ∀ x ∈ as.areas, x.kind = .heap →
    x.start = as.brkBase ∧ x.stop = pageUp as.brkEnd ∧ x.flags = heapFlags
  exists_area : as.brkBase < pageUp as.brkEnd → ∃ x ∈ as.areas, x.kind = .heap
  mapped : ∀ b, as.brkBase ≤ b → b < pageUp as.brkEnd → ∃ p ∈ as.pages, p.Covers b ∧
    p.flags = heapFlags ∧
    vmQuery as.root b m = some (p.physical + (b - p.virtualAddress), hardwareFlags heapFlags)
  unmapped : ∀ b, pageUp as.brkEnd ≤ b → b < as.brkBase + maxMapping →
    vmQuery as.root b m = none ∧ ∀ p ∈ as.pages, ¬p.Covers b

/-- What is not the heap has not changed, nor the pages of the heap that stay. -/
structure OthersSame (as as' : AddressSpace) (m m' : Machine) : Prop where
  reservations : ∀ x : Nat × AreaKind × Nat, x.2.1 ≠ .heap →
    (x ∈ reservations as'.areas ↔ x ∈ reservations as.areas)
  pages : ∀ p, ¬(heapBase ≤ p.virtualAddress ∧ p.virtualAddress < heapBase + maxMapping) →
    (p ∈ as.pages ↔ p ∈ as'.pages)
  queries : ∀ b, ¬(heapBase ≤ vpn b * 4096 ∧ vpn b * 4096 < heapBase + maxMapping) →
    vmQuery as'.root b m' = vmQuery as.root b m
  contents : ∀ p ∈ as.pages, p ∈ as'.pages → Set.EqOn m'.mem m.mem (pageBytes p.physical)

/-- What one call of `brk` promises. -/
structure BrkLaw (as as' : AddressSpace) (m m' : Machine) (requested : Nat)
    (res : Except Errno Nat) :
    Prop where
  query : requested = 0 → res = .ok as.brkEnd ∧ as' = as ∧ m' = m
  range : requested ≠ 0 → ∀ n, res = .ok n →
    as.brkBase ≤ requested ∧ requested ≤ as.brkBase + maxMapping ∧ as'.brkEnd = requested ∧
      n = requested
  exact : ∀ n, res = .ok n → HeapExact as' m'
  heap : requested ≠ 0 → ∀ n, res = .ok n → as'.heap m' = (as.heap m).move requested
  others : ∀ n, res = .ok n → OthersSame as as' m m'
  failed : ∀ e, res = .error e → as' = as ∧ SameMapping as as' m m'

/-! ## The view of a call -/

section View

variable {v v' : View} {n : Nat}

/-- What `View.brk` does when it moves the break. -/
structure BrkView (v v' : View) (requested n : Nat) : Prop where
  le : v.brkBase ≤ requested
  ge : requested ≤ v.brkBase + maxMapping
  eq : n = requested
  brkEnd : v'.brkEnd = requested
  areas : ∀ c : VmArea, c.kind ≠ .heap → (c ∈ v'.areas ↔ c ∈ v.areas)
  pages : pageUp v.brkEnd < pageUp requested → v'.pages = v.pages ++
    (List.range (pageCount (pageUp v.brkEnd) (pageUp requested))).map fun i =>
      ⟨pageUp v.brkEnd + 4096 * i, heapFlags, zeroPage⟩

theorem mem_moved {areas : List VmArea} {stop : Nat} {c : VmArea} (hc : c.kind ≠ .heap) :
    c ∈ areas.map (fun a => if a.kind = .heap then { a with stop := stop } else a) ↔ c ∈ areas := by
  rw [List.mem_map]
  constructor
  · rintro ⟨a, ha, rfl⟩
    split at hc
    · next hk => exact absurd hk hc
    · next hk => rwa [if_neg hk]
  · exact fun h => ⟨c, h, if_neg hc⟩

theorem View.brk_ok (h : v.brk requested = (.ok n, v')) (hne : requested ≠ 0) :
    BrkView v v' requested n := by
  simp only [View.brk, if_neg hne] at h
  split at h
  · cases h
  next hrange =>
  rw [not_or, not_lt, not_lt] at hrange
  split at h
  · next hgrow =>
    split at h
    · cases h
    cases h
    refine ⟨hrange.1, hrange.2, rfl, rfl, fun c hc => ?_, fun _ => ?_⟩
    · dsimp only
      split
      · exact mem_moved hc
      · rw [List.mem_append, List.mem_singleton]
        exact or_iff_left fun heq => hc (by rw [heq])
    · rw [newPages_zero]
      rfl
  next hgrow =>
  split at h
  · cases h
    refine ⟨hrange.1, hrange.2, rfl, rfl, fun c hc => ?_, fun hlt => absurd hlt hgrow⟩
    dsimp only
    split
    · rw [List.mem_filter, decide_eq_true_eq]
      exact and_iff_left hc
    · exact mem_moved hc
  · cases h
    exact ⟨hrange.1, hrange.2, rfl, rfl, fun c _ => Iff.rfl, fun hlt => absurd hlt hgrow⟩

theorem reservations_bare (areas : List VmArea) :
    reservations (areas.map VmArea.bare) = reservations areas := by
  ext x
  simp only [reservations, Set.mem_ofPred_eq, List.mem_map, exists_exists_and_eq_and,
    VmArea.bare_start, VmArea.bare_stop, VmArea.bare_kind, VmArea.bare_flags]

/-- The reservations of the areas that are not heap. -/
theorem reservations_others {areas areas' : List VmArea}
    (h : ∀ c : VmArea, c.kind ≠ .heap → (c ∈ areas' ↔ c ∈ areas)) {x : Nat × AreaKind × Nat}
    (hx : x.2.1 ≠ .heap) : x ∈ reservations areas' ↔ x ∈ reservations areas := by
  refine exists_congr fun c => ?_
  constructor
  · rintro ⟨hc, hlo, hhi, hkind, hflags⟩
    exact ⟨(h c (hkind ▸ hx)).mp hc, hlo, hhi, hkind, hflags⟩
  · rintro ⟨hc, hlo, hhi, hkind, hflags⟩
    exact ⟨(h c (hkind ▸ hx)).mpr hc, hlo, hhi, hkind, hflags⟩

end View

/-! ## The call -/

section

variable (h : BrkLedger rest old stop m m' as as')

include h

theorem BrkLedger.mem_iff {p : UserPage}
    (hp : p.virtualAddress < min old stop ∨ max old stop ≤ p.virtualAddress) :
    p ∈ as.pages ↔ p ∈ as'.pages := by
  cases h with
  | grow new lt root pages run length keeps =>
    rw [pages, List.mem_append]
    refine (or_iff_left fun hin => ?_).symm
    obtain ⟨i, hi, hva⟩ := run.mem_range hin
    omega
  | shrink le root pages keeps =>
    rw [pages, List.mem_filter, outside, Bool.or_eq_true, decide_eq_true_eq, decide_eq_true_eq]
    exact (and_iff_left (by omega)).symm

theorem BrkLedger.contents {p : UserPage} (hp : p ∈ as.pages) (hp' : p ∈ as'.pages) :
    Set.EqOn m'.mem m.mem (pageBytes p.physical) := by
  cases h with
  | grow new lt root pages run length keeps =>
    exact keeps.page hp
  | shrink le root pages keeps =>
    exact keeps.page hp'

theorem BrkLedger.root_eq : as'.root = as.root := by
  cases h <;> assumption

end

section Brk

variable {P : PagePool} {t t' kernel : Radix} {shared shared' : Nat → Nat}
  {rest' objs objs' : Multiset Nat} {b : Nat}

variable {res : Except Errno Nat}

/-- An address shows the same if its page is on both ledgers and was left alone. -/
theorem Owned.peek_eq_of (h : Owned P m as t shared rest objs)
    (h' : Owned P m' as' t' shared' rest' objs') (hb : b < 2 ^ 38)
    (hsame : ∀ p, p.virtualAddress / 4096 = b / 4096 → (p ∈ as.pages ↔ p ∈ as'.pages))
    (hbytes : ∀ p ∈ as.pages, p ∈ as'.pages → Set.EqOn m'.mem m.mem (pageBytes p.physical)) :
    peek as' m' b = peek as m b := by
  have hleaf : t.leaf (b / 4096) = t'.leaf (b / 4096) := h.leaves.leaf_eq_of h'.leaves hsame
  have hquery : vmQuery as'.root b m' = vmQuery as.root b m := by
    rw [h.vmQuery_eq hb, h'.vmQuery_eq hb, hleaf]
  rw [peek, peek, hquery]
  cases hq : vmQuery as.root b m with
  | none => rfl
  | some r =>
    obtain ⟨p, hp, -, ⟨hlo, hhi⟩, rfl⟩ := h.vmQuery_some hb hq
    have hal := (h.page_ok p hp).aligned
    have hp' := (hsame p (by omega)).mp hp
    simp only [Option.map_some]
    rw [hbytes p hp hp' ⟨by omega, by omega⟩]

theorem heapBase_aligned : heapBase % 4096 = 0 := by decide

/-- The heap ends in its window. -/
theorem Laid.pageUp_le (h : Laid as) :
    heapBase ≤ pageUp as.brkEnd ∧ pageUp as.brkEnd ≤ heapBase + maxMapping ∧
    pageUp as.brkEnd % 4096 = 0 := by
  have hbase : heapBase % 4096 = 0 ∧ maxMapping % 4096 = 0 := by decide
  have hge := h.brk_ge
  have hle := h.brk_le
  rw [pageUp_eq]
  omega

/-- The window of the heap is in the user half. -/
theorem heapWindow_le : heapBase + maxMapping ≤ 2 ^ 38 := by decide

section

variable (h : Owned P m as t shared rest objs)

include h

/-- **The heap of a sound space** is where its break says. -/
theorem Owned.heapExact (hr : Reserved as) (hroot : as.root ≠ 0) : HeapExact as m := by
  have hbase := hr.laid.brk_base
  have hal := heapBase_aligned
  obtain ⟨hge, hle, hend⟩ := hr.laid.pageUp_le
  have hwin := heapWindow_le
  have hok := hr.agrees.areas_ok
  refine ⟨fun x hx hk => (hr.laid.heap_at x hx hk).2, hr.laid.heap_exists hroot,
    fun b hlo hhi => ?_, fun b hlo hhi => ?_⟩
  · obtain ⟨x, hx, hk⟩ := hr.laid.heap_exists hroot (by omega)
    obtain ⟨-, hstart, hstop, hflags⟩ := hr.laid.heap_at x hx hk
    have hbacked : x.backed = x.start := by simp [VmArea.backed, hk]
    obtain ⟨p, hp, hva⟩ :=
      hr.agrees.populated x hx (b / 4096 * 4096) (by omega) (by omega) (by omega)
    obtain ⟨y, hy, hylo, hyhi, hyf⟩ := hr.agrees.covered p hp
    obtain rfl : y = x := hok.eq_of_meet hy hx (by omega) (by omega)
    have hcov : p.Covers b := ⟨by omega, by omega⟩
    have hpf : p.flags = heapFlags := hyf.trans hflags
    have hmap : mapped p.flags = true := by
      rw [hpf]
      decide
    refine ⟨p, hp, hcov, hpf, ?_⟩
    rw [h.vmQuery_page hp hmap hcov, hpf]
  · have hnone : ∀ p ∈ as.pages, ¬p.Covers b := by
      rintro p hp ⟨hplo, hphi⟩
      have hpal := hr.agrees.aligned p hp
      obtain ⟨y, hy, hylo, hyhi, -⟩ := hr.agrees.covered p hp
      by_cases hk : y.kind = .heap
      · obtain ⟨-, -, hstop, -⟩ := hr.laid.heap_at y hy hk
        omega
      · have hyw := hr.laid.window y hy hk
        omega
    refine ⟨?_, hnone⟩
    by_contra hne
    obtain ⟨r, hq⟩ := Option.ne_none_iff_exists'.mp hne
    obtain ⟨p, hp, -, hcov, -⟩ := h.vmQuery_some (by omega) hq
    exact hnone p hp hcov

omit h in
/-- No page lies in the window behind the heap. -/
theorem HeapExact.pages_out (h : HeapExact as m) (hl : Laid as) {p : UserPage} (hp : p ∈ as.pages)
    (hal : p.virtualAddress % 4096 = 0) :
    p.virtualAddress + 4096 ≤ pageUp as.brkEnd ∨ heapBase + maxMapping ≤ p.virtualAddress := by
  obtain ⟨-, -, hend⟩ := hl.pageUp_le
  have hbase := hl.brk_base
  by_contra hno
  exact (h.unmapped p.virtualAddress (by omega) (by omega)).2 p hp ⟨Nat.le_refl _, by omega⟩

/-- The bytes of the heap after its end has moved. -/
theorem Owned.heap_moved (h' : Owned P m' as' t' shared rest objs)
    (hl : Laid as) (hl' : Laid as') (hex : HeapExact as m)
    (hledger : BrkLedger rest (pageUp as.brkEnd) (pageUp requested) m m' as as') {n : Nat}
    (hv : BrkView (as.view m.mem) (as'.view m'.mem) requested n) :
    as'.heap m' = (as.heap m).move requested := by
  have hbrk : as'.brkEnd = requested := hv.brkEnd
  obtain ⟨hge, hle, hend⟩ := hl.pageUp_le
  obtain ⟨hge', hle', hend'⟩ := hl'.pageUp_le
  rw [hbrk] at hge' hle' hend'
  have hwin := heapWindow_le
  refine UserHeap.ext hbrk (funext fun b => ?_)
  simp only [AddressSpace.heap, UserHeap.move, hbrk]
  by_cases hb : heapBase ≤ b ∧ b < pageUp requested
  · rw [if_pos hb, if_pos hb.2]
    by_cases hold : b < pageUp as.brkEnd
    · -- a page that stays
      rw [if_pos ⟨hb.1, hold⟩, shownByte, shownByte, h.peek_eq_of h' (by omega)
        (fun p hp => hledger.mem_iff (by omega)) fun p hp hp' => hledger.contents hp hp']
    -- a page that is new
    have hpages : as'.pages.map (UserPage.image m'.mem) = as.pages.map (UserPage.image m.mem) ++
        (List.range (pageCount (pageUp as.brkEnd) (pageUp requested))).map fun i =>
          ⟨pageUp as.brkEnd + 4096 * i, heapFlags, zeroPage⟩ :=
      hv.pages (Nat.lt_of_le_of_lt (Nat.le_of_not_lt hold) hb.2)
    have hcount : pageUp as.brkEnd + 4096 * pageCount (pageUp as.brkEnd) (pageUp requested) =
        pageUp requested := by
      have hrun := pageCount_run (a := pageUp as.brkEnd)
        (show (pageUp requested - pageUp as.brkEnd) % 4096 = 0 by omega)
      rw [Nat.add_sub_cancel' (by omega)] at hrun
      omega
    have hout : ∀ p ∈ as.pages.map (UserPage.image m.mem), p.address + 4096 ≤ pageUp as.brkEnd ∨
        pageUp as.brkEnd + 4096 * pageCount (pageUp as.brkEnd) (pageUp requested) ≤ p.address := by
      intro p hp
      obtain ⟨q, hq, rfl⟩ := List.mem_map.mp hp
      have := hex.pages_out hl hq (h.page_ok q hq).aligned
      simp only [UserPage.image]
      omega
    rw [if_neg (fun hno => hold hno.2), shownByte, h'.peek_eq_lookup (by omega), hpages,
      lookup_append_run (by decide) hend hout, showRange, if_pos (by omega)]
    rfl
  · rw [if_neg hb]
    split
    · rw [if_neg (by omega)]
    · rfl

/-- **`address_space_brk`** keeps its law on every sound space with a table. -/
theorem Owned.brkLaw (hr : Reserved as) (hroot : as.root ≠ 0) (hk : KernelHalf kernel shared rest m)
    (hrun : addressSpaceBrk as requested m = (res, as', m')) :
    BrkLaw as as' m m' requested res := by
  obtain ⟨t', hout⟩ := addressSpaceBrk_keeps h hr.laid hrun
  have hfailed : ∀ e, res = .error e → as' = as ∧ SameMapping as as' m m' := by
    intro e he
    obtain ⟨rfl, -, hkeep⟩ := hout.error e he hr.agrees
    exact ⟨rfl, h.sameMapping hout.owned hk (hk.keep hout.keeps) rfl rfl
      (fun p hp => hkeep.page hp) ⟨rfl, rfl, rfl⟩⟩
  by_cases hzero : requested = 0
  · rw [addressSpaceBrk, if_pos hzero] at hrun
    cases hrun
    refine ⟨fun _ => ⟨rfl, rfl, rfl⟩, fun hne => absurd hzero hne, fun _ _ => h.heapExact hr hroot,
      fun hne => absurd hzero hne, fun _ _ => ?_, hfailed⟩
    exact ⟨fun _ _ => Iff.rfl, fun _ _ => Iff.rfl, fun _ _ => rfl, fun _ _ _ => Set.eqOn_refl _ _⟩
  cases res with
  | error e => exact ⟨fun h0 => absurd h0 hzero, by simp, by simp, by simp, by simp, hfailed⟩
  | ok n =>
    obtain ⟨hno, hyes⟩ := brk_view h hr hroot hrun
    have hallocs : false ∉ brkAllocs as requested m := fun hf => absurd (hno hf).1 (by simp)
    have hv := View.brk_ok (hyes hallocs).symm hzero
    obtain ⟨⟨hl', hag'⟩, hled⟩ := hout.ok n rfl
    have hledger := hled hzero
    have hr' : Reserved as' := ⟨hl', hag' hr.agrees⟩
    have hroot' : as'.root ≠ 0 := by rwa [hledger.root_eq]
    have hbase := hr.laid.brk_base
    obtain ⟨hge, hle, -⟩ := hr.laid.pageUp_le
    obtain ⟨hge', hle', -⟩ := hl'.pageUp_le
    rw [show as'.brkEnd = requested from hv.brkEnd] at hge' hle'
    have hpages : ∀ p, ¬(heapBase ≤ p.virtualAddress ∧ p.virtualAddress < heapBase + maxMapping) →
        (p ∈ as.pages ↔ p ∈ as'.pages) := fun p hp => hledger.mem_iff (by omega)
    refine ⟨fun h0 => absurd h0 hzero, fun _ k hk => ⟨hv.le, hv.ge, hv.brkEnd, ?_⟩, fun _ _ => ?_,
      fun _ _ _ => ?_, fun _ _ => ⟨fun x hx => ?_, hpages, fun b hb => ?_, fun p hp hp' => ?_⟩,
      hfailed⟩
    · rw [← hv.eq, Except.ok.inj hk]
    · exact hout.owned.heapExact hr' hroot'
    · exact h.heap_moved hout.owned hr.laid hl' (h.heapExact hr hroot) hledger hv
    · rw [← reservations_bare as'.areas, ← reservations_bare as.areas]
      exact reservations_others hv.areas hx
    · exact h.vmQuery_outside hout.owned hk (hk.keep hout.keeps) hledger.root_eq hpages hb
    · exact hledger.contents hp hp'

/-! ## The other calls -/

/-- Spaces that look the same have the same heap. -/
theorem Owned.heap_of_view (h' : Owned P m' as' t' shared' rest' objs')
    (hl : Laid as) (hview : as'.view m'.mem = as.view m.mem) : as'.heap m' = as.heap m := by
  have hbrk : as'.brkEnd = as.brkEnd := congrArg View.brkEnd hview
  have hpages : as'.pages.map (UserPage.image m'.mem) = as.pages.map (UserPage.image m.mem) :=
    congrArg View.pages hview
  obtain ⟨-, hle, -⟩ := hl.pageUp_le
  have hwin := heapWindow_le
  refine UserHeap.ext hbrk (funext fun b => ?_)
  simp only [AddressSpace.heap, hbrk]
  split
  · rw [shownByte, shownByte, h.peek_eq_lookup (by omega), h'.peek_eq_lookup (by omega), hpages]
  · rfl

/-- The heap is the same if its pages are. -/
theorem Owned.heap_congr (h' : Owned P m' as' t' shared' rest' objs')
    (hl : Laid as) (hbrk : as'.brkEnd = as.brkEnd)
    (hsame : ∀ p, heapBase ≤ p.virtualAddress → p.virtualAddress < pageUp as.brkEnd →
      p.virtualAddress % 4096 = 0 → (p ∈ as.pages ↔ p ∈ as'.pages))
    (hbytes : ∀ p ∈ as.pages, p ∈ as'.pages → Set.EqOn m'.mem m.mem (pageBytes p.physical)) :
    as'.heap m' = as.heap m := by
  obtain ⟨-, hle, hend⟩ := hl.pageUp_le
  have hwin := heapWindow_le
  have hal := heapBase_aligned
  refine UserHeap.ext hbrk (funext fun b => ?_)
  simp only [AddressSpace.heap, hbrk]
  split
  · next hb =>
    rw [shownByte, shownByte, h.peek_eq_of h' (by omega) (fun p hp => ?_) hbytes]
    by_cases hpal : p.virtualAddress % 4096 = 0
    · exact hsame p (by omega) (by omega) hpal
    · exact ⟨fun hin => absurd (h.page_ok p hin).aligned hpal,
        fun hin => absurd (h'.page_ok p hin).aligned hpal⟩
  · rfl

/-- A call that does nothing leaves the heap. -/
theorem Owned.heap_error {Done : Nat → Prop} {e : Errno}
    (hr : Reserved as) (hout : Outcome P m m' as as' t shared rest objs res Done t')
    (he : res = .error e) : as'.heap m' = as.heap m := by
  obtain ⟨rfl, -, hkeep⟩ := hout.error e he hr.agrees
  exact h.heap_of_view hout.owned hr.laid (view_congr hkeep)

theorem Owned.heap_mmap (hr : Reserved as)
    {address length prot mapflags offset : Nat} {file : Option File}
    (hrun : addressSpaceMmap as address length prot mapflags file offset m = (res, as', m')) :
    as'.heap m' = as.heap m ∧ as'.root = as.root := by
  obtain ⟨t', hout⟩ := addressSpaceMmap_keeps h hrun
  refine ⟨?_, hout.root⟩
  cases res with
  | error e => exact h.heap_error hr hout rfl
  | ok n =>
    obtain ⟨⟨x, new, -, hm⟩, hkeep⟩ := hout.ok n rfl
    have hpages : as'.pages = as.pages ++ new := by rw [hm.eq]
    obtain ⟨-, hle, -⟩ := hr.laid.pageUp_le
    refine h.heap_congr hout.owned hr.laid (by rw [hm.eq]) (fun p hlo hhi _ => ?_) fun p hp _ => ?_
    · rw [hpages, List.mem_append]
      refine (or_iff_left fun hin => ?_).symm
      obtain ⟨i, hi, hva⟩ := hm.run.mem_range hin
      have hwin := hm.window
      have hlen := hm.length
      have hbacked : x.start ≤ x.backed := by
        unfold VmArea.backed
        split <;> omega
      omega
    · exact hkeep.page hp

theorem Owned.heap_munmap (hr : Reserved as)
    {start length : Nat} (hrun : addressSpaceMunmap as start length m = (res, as', m')) :
    as'.heap m' = as.heap m ∧ as'.root = as.root := by
  obtain ⟨t', hout⟩ := addressSpaceMunmap_keeps h hr.agrees.areas_ok.apart hrun
  refine ⟨?_, hout.root⟩
  cases res with
  | error e => exact h.heap_error hr hout rfl
  | ok n =>
    obtain ⟨hu, hkeep⟩ := hout.ok n rfl
    have hpages : as'.pages = as.pages.filter (outside start (pageUp (start + length))) := by
      rw [hu.eq]
    refine h.heap_congr hout.owned hr.laid (by rw [hu.eq]) (fun p hlo hhi _ => ?_) fun p _ hp => ?_
    · rw [hpages, List.mem_filter]
      refine ⟨fun hp => ⟨hp, ?_⟩, And.left⟩
      -- the page is in the heap area, which is not cut
      obtain ⟨x, hx, hxlo, hxhi, -⟩ := hr.agrees.covered p hp
      have hkind : x.kind = .heap := by
        by_contra hk
        have := hr.laid.window x hx hk
        have := hr.laid.pageUp_le
        omega
      have hbeside : x.stop ≤ start ∨ pageUp (start + length) ≤ x.start := by
        by_contra hmeet
        rcases hu.cuttable x hx hmeet with hk | hk <;> rw [hkind] at hk <;> cases hk
      rw [outside, Bool.or_eq_true, decide_eq_true_eq, decide_eq_true_eq]
      omega
    · exact hkeep.page hp

/-- A range of stores, seen on the heap. -/
theorem Owned.heap_stores (hl : Laid as) (hex : HeapExact as m)
    {a k : Nat} {f : Nat → UInt8} (hs : Stores as m m' a k f) (hle : k = 0 ∨ a + k ≤ 2 ^ 38) :
    as.heap m' = (as.heap m).write a k f := by
  obtain ⟨-, hend, -⟩ := hl.pageUp_le
  have hwin := heapWindow_le
  have hbase := hl.brk_base
  refine UserHeap.ext rfl (funext fun b => ?_)
  simp only [AddressSpace.heap, UserHeap.write]
  by_cases hb : heapBase ≤ b ∧ b < pageUp as.brkEnd
  · obtain ⟨p, -, -, -, hq⟩ := hex.mapped b (by omega) hb.2
    rw [if_pos hb, if_pos hb, shownByte, shownByte, peek, peek, hs.query b (by omega), hq]
    simp only [Option.map_some, Option.getD_some, hb, and_self, true_and]
    split
    · next hin =>
      have hq' : vmQuery as.root (a + (b - a)) m =
          some (p.physical + (b - p.virtualAddress), hardwareFlags heapFlags) := by
        rw [Nat.add_sub_cancel' hin.1, hq]
      exact hs.inside (b - a) (by omega) _ hq'
    · next hin =>
      refine hs.outside _ fun i hi r hr heq => ?_
      have := h.vmQuery_inj (by omega) (by omega) hr hq heq
      omega
  · rw [if_neg hb, if_neg hb]
    exact (if_neg fun hno => hb hno.1).symm

/-- **A copy of the program's** writes a prefix of its bytes, all of them if it
succeeds. -/
theorem Owned.heap_copy (hl : Laid as) (hex : HeapExact as m)
    (f : Nat → UInt8) (a n : Nat) : ∃ k ≤ n,
      as.heap (addressSpaceCopy as (some f) a n true m).2.machine = (as.heap m).write a k f ∧
      ((addressSpaceCopy as (some f) a n true m).1 = true → k = n) := by
  by_cases hle : a + n ≤ 2 ^ 38
  · obtain ⟨k, hk, -, hstores, hend⟩ := h.copyOut f a n
    refine ⟨k, hk, h.heap_stores hl hex hstores (.inr (by omega)), fun hok => ?_⟩
    rcases hend with ⟨-, hkn, -⟩ | ⟨hfail, -⟩
    · exact hkn
    · rw [hok] at hfail
      cases hfail
  -- refused, or nothing to do
  rw [addressSpaceCopy]
  refine ⟨0, Nat.zero_le _, ?_⟩
  rw [UserHeap.write_zero]
  by_cases hn : n = 0
  · rw [if_pos hn]
    exact ⟨rfl, fun _ => hn.symm⟩
  · rw [if_neg hn, if_pos (.inr (by unfold userEnd; omega))]
    exact ⟨rfl, fun hok => absurd hok Bool.false_ne_true⟩

theorem Owned.heap_brk (hr : Reserved as) (hk : KernelHalf kernel shared rest m)
    (hrun : addressSpaceBrk as requested m = (res, as', m')) :
    as'.root = as.root ∧ (as.root ≠ 0 → as'.heap m' = as.heap m ∨
      requested ≠ 0 ∧ heapBase ≤ requested ∧ requested ≤ heapBase + maxMapping ∧
        as'.heap m' = (as.heap m).move requested) := by
  obtain ⟨t', hout⟩ := addressSpaceBrk_keeps h hr.laid hrun
  refine ⟨hout.root, fun hroot => ?_⟩
  cases res with
  | error e => exact .inl (h.heap_error hr hout rfl)
  | ok n =>
    by_cases hzero : requested = 0
    · rw [addressSpaceBrk, if_pos hzero] at hrun
      cases hrun
      exact .inl rfl
    refine .inr ?_
    have hlaw := h.brkLaw hr hroot hk hrun
    obtain ⟨hge, hle, -⟩ := hlaw.range hzero n rfl
    rw [hr.laid.brk_base] at hge hle
    exact ⟨hzero, hge, hle, hlaw.heap hzero n rfl⟩

end

/-- A heap whose break is at the base has no bytes. -/
theorem heap_empty (h : as.brkEnd = heapBase) : as.heap m = .empty := by
  refine UserHeap.ext h (funext fun b => if_neg ?_)
  have hup : pageUp heapBase = heapBase := by decide
  rw [h, hup]
  omega

theorem addressSpaceCopy_none {a n : Nat} {toUser : Bool} :
    (addressSpaceCopy as none a n toUser m).2.machine = m := by
  unfold addressSpaceCopy
  split
  · rfl
  · simp

end Brk

end MiniCore
