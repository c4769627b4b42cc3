import MiniCore.Lib.Radix
import MiniCore.Mm.Vm
import MiniCore.Mm.Heap

/-!
# MiniCore.Mm.PageTable

The page tables of `MiniCore.Mm.Vm` as `Radix` tables.

`Rep mem t shared` says that the words in memory spell the table `t`, with the
borrowed root slots holding `shared`.  `Tabled` adds that the pages of the table
are pages of the pool, apart from the pages `rest` of everybody else.

* **cell updates** — storing one word is one update of `t` (`Rep.setMid`,
  `Rep.setLow`, `Rep.setLeaf`).
* **links** — `Tabled.linkMid`, `Tabled.linkLow` and their inverses
  `Tabled.unlinkMid`, `Tabled.unlinkLow` move one page between the allocator and
  the table.
-/

namespace MiniCore

open Lib Multiset Function

variable {mem : Memory} {t : Radix} {shared : Nat → Nat} {p : Nat}

/-! ## Tables in memory -/

/-- The word of a slot that may point to a lower table. -/
def tableWord : Option Nat → Nat
  | none => 0
  | some p => makeTablePte p

/-- Memory holds the table `t`; the root slots it does not own hold `shared`. -/
structure Rep (mem : Memory) (t : Radix) (shared : Nat → Nat) : Prop where
  wf : t.WF
  width_le : t.width ≤ 512
  root_entry : t.root ≠ 0 → ∀ i < t.width, entry mem t.root i = tableWord (t.mid i)
  shared_entry : t.root ≠ 0 → ∀ i, t.width ≤ i → i < 512 → entry mem t.root i = shared i
  mid_entry : ∀ {i p}, t.mid i = some p → ∀ j < 512, entry mem p j = tableWord (t.low (512 * i + j))
  low_entry : ∀ {j p}, t.low j = some p → ∀ k < 512, entry mem p k = t.leaf (512 * j + k)
  leaf_ok : ∀ {v}, t.leaf v ≠ 0 → IsLeaf (t.leaf v)

/-- The nodes of `t` are distinct pages. -/
structure Placed (t : Radix) : Prop where
  isPage : ∀ p ∈ t.frames, IsPage p
  separate : t.Separate

section Cells

variable {q : Nat}

variable (h : Rep mem t shared)

include h

theorem Rep.mem_mid (hm : t.mid i = some p) : p ∈ t.frames :=
  (Radix.mem_frames h.wf).mpr (.inr (.inl ⟨i, hm⟩))

theorem Rep.mem_low (hl : t.low j = some p) : p ∈ t.frames :=
  (Radix.mem_frames h.wf).mpr (.inr (.inr ⟨j, hl⟩))

theorem Rep.mem_root (hr : t.root ≠ 0) : t.root ∈ t.frames :=
  (Radix.mem_frames h.wf).mpr (.inl ⟨hr, rfl⟩)

/-- The table only depends on the bytes of its own pages. -/
theorem Rep.congr {mem' : Memory}
    (heq : ∀ p ∈ t.frames, Set.EqOn mem' mem (pageBytes p)) : Rep mem' t shared := by
  refine ⟨h.wf, h.width_le, ?_, ?_, ?_, ?_, h.leaf_ok⟩
  · intro hr i hi
    rw [entry_congr (Nat.lt_of_lt_of_le hi h.width_le) (heq _ (h.mem_root hr))]
    exact h.root_entry hr i hi
  · intro hr i hw hi
    rw [entry_congr hi (heq _ (h.mem_root hr))]
    exact h.shared_entry hr i hw hi
  · intro i p hm j hj
    rw [entry_congr hj (heq _ (h.mem_mid hm))]
    exact h.mid_entry hm j hj
  · intro j p hl k hk
    rw [entry_congr hk (heq _ (h.mem_low hl))]
    exact h.low_entry hl k hk

omit h in
theorem tableWord_lt {o : Option Nat} (ho : ∀ p, o = some p → IsPage p) : tableWord o < 2 ^ 64 := by
  cases o with
  | none => decide
  | some p => exact makeTablePte_lt (ho p rfl)

/-- Store a root slot: link a cleared page, or unlink a table without children. -/
theorem Rep.setMid {o : Option Nat} {i : Nat} (hpl : Placed t)
    (hroot : t.root ≠ 0) (hi : i < t.width) (hlow : ∀ j < 512, t.low (512 * i + j) = none)
    (ho : ∀ p, o = some p → IsPage p ∧ p ∉ t.frames ∧ ∀ j < 512, entry mem p j = 0) :
    Rep (setEntry mem t.root i (tableWord o)) (t.setMid i o) shared := by
  have hi512 := Nat.lt_of_lt_of_le hi h.width_le
  have hrp := hpl.isPage _ (h.mem_root hroot)
  -- a page other than the root keeps its words
  have hother : ∀ {q j}, IsPage q → q ≠ t.root → j < 512 →
      entry (setEntry mem t.root i (tableWord o)) q j = entry mem q j :=
    fun hq hne hj => entry_setEntry_page hrp hq hne hi512 hj
  have hmid : ∀ {i' p}, (t.setMid i o).mid i' = some p →
      (i' = i ∧ o = some p) ∨ (i' ≠ i ∧ t.mid i' = some p) := by
    intro i' p hm
    by_cases hii : i' = i
    · left
      simpa [Radix.setMid, hii] using hm
    · right
      simpa [Radix.setMid, update_of_ne hii, hii] using hm
  refine ⟨⟨?_, fun _ => hroot, ?_, h.wf.leaf_parent⟩, h.width_le, ?_, ?_, ?_, ?_, h.leaf_ok⟩
  · intro i' p hm
    rcases hmid hm with ⟨rfl, _⟩ | ⟨_, hm⟩
    · exact hi
    · exact h.wf.mid_lt hm
  · intro j p hl
    obtain ⟨q, hq⟩ := h.wf.low_parent hl
    have hne : j / 512 ≠ i := by
      intro hji
      have hnone := hlow (j % 512) (Nat.mod_lt _ (by decide))
      rw [← hji, Nat.div_add_mod] at hnone
      have hsome : t.low j = some p := hl
      rw [hnone] at hsome
      cases hsome
    exact ⟨q, by simpa [Radix.setMid, update_of_ne hne] using hq⟩
  · intro _ i' hi'
    by_cases hii : i' = i
    · subst hii
      show entry (setEntry mem t.root i' (tableWord o)) t.root i' = _
      rw [entry_setEntry_self (tableWord_lt fun p hp => (ho p hp).1)]
      simp [Radix.setMid]
    · show entry (setEntry mem t.root i (tableWord o)) t.root i' = _
      rw [entry_setEntry_index hii, h.root_entry hroot i' hi']
      simp [Radix.setMid, update_of_ne hii]
  · intro _ i' hw hi'
    have hw' : t.width ≤ i' := hw
    show entry (setEntry mem t.root i (tableWord o)) t.root i' = _
    rw [entry_setEntry_index (by omega)]
    exact h.shared_entry hroot i' hw hi'
  · intro i' p hm j hj
    show _ = tableWord (t.low (512 * i' + j))
    rcases hmid hm with ⟨rfl, hop⟩ | ⟨_, hm⟩
    · obtain ⟨hpg, hfresh, hzero⟩ := ho p hop
      have hne : p ≠ t.root := fun hpr => hfresh (hpr ▸ h.mem_root hroot)
      rw [hother hpg hne hj, hzero j hj, hlow j hj]
      rfl
    · rw [hother (hpl.isPage _ (h.mem_mid hm)) (hpl.separate.mid_ne_root hm) hj]
      exact h.mid_entry hm j hj
  · intro j p hl k hk
    have hl' : t.low j = some p := hl
    rw [hother (hpl.isPage _ (h.mem_low hl')) (hpl.separate.low_ne_root hl') hk]
    exact h.low_entry hl' k hk

/-- Store a slot of a middle table: link a cleared page, or unlink an empty one. -/
theorem Rep.setLow {o : Option Nat} {j : Nat} (hpl : Placed t)
    (hmid : t.mid (j / 512) = some q) (hleaf : ∀ k < 512, t.leaf (512 * j + k) = 0)
    (ho : ∀ p, o = some p → IsPage p ∧ p ∉ t.frames ∧ ∀ k < 512, entry mem p k = 0) :
    Rep (setEntry mem q (j % 512) (tableWord o)) (t.setLow j o) shared := by
  have hj512 : j % 512 < 512 := Nat.mod_lt _ (by decide)
  have hqp := hpl.isPage _ (h.mem_mid hmid)
  have hother : ∀ {x k}, IsPage x → x ≠ q → k < 512 →
      entry (setEntry mem q (j % 512) (tableWord o)) x k = entry mem x k :=
    fun hx hne hk => entry_setEntry_page hqp hx hne hj512 hk
  have hroot := h.wf.root_ne hmid
  have hrq : t.root ≠ q := (hpl.separate.mid_ne_root hmid).symm
  have hlow : ∀ {j' p}, (t.setLow j o).low j' = some p →
      (j' = j ∧ o = some p) ∨ (j' ≠ j ∧ t.low j' = some p) := by
    intro j' p hl
    by_cases hjj : j' = j
    · left
      simpa [Radix.setLow, hjj] using hl
    · right
      simpa [Radix.setLow, update_of_ne hjj, hjj] using hl
  refine ⟨⟨h.wf.mid_lt, h.wf.root_ne, ?_, ?_⟩, h.width_le, ?_, ?_, ?_, ?_, h.leaf_ok⟩
  · intro j' p hl
    rcases hlow hl with ⟨rfl, _⟩ | ⟨_, hl⟩
    · exact ⟨q, hmid⟩
    · exact h.wf.low_parent hl
  · intro v hv
    obtain ⟨p, hp⟩ := h.wf.leaf_parent hv
    have hne : v / 512 ≠ j := by
      intro hvj
      have hz := hleaf (v % 512) (Nat.mod_lt _ (by decide))
      rw [← hvj, Nat.div_add_mod] at hz
      exact hv hz
    exact ⟨p, by simpa [Radix.setLow, update_of_ne hne] using hp⟩
  · intro _ i hi
    show entry _ t.root i = tableWord (t.mid i)
    rw [hother (hpl.isPage _ (h.mem_root hroot)) hrq (Nat.lt_of_lt_of_le hi h.width_le)]
    exact h.root_entry hroot i hi
  · intro _ i hw hi
    show entry _ t.root i = shared i
    rw [hother (hpl.isPage _ (h.mem_root hroot)) hrq hi]
    exact h.shared_entry hroot i hw hi
  · intro i p hm k hk
    have hm' : t.mid i = some p := hm
    by_cases hpq : p = q
    · -- the table that holds the stored slot
      subst hpq
      have hij : i = j / 512 := hpl.separate.mid_inj hm' hmid
      by_cases hkj : k = j % 512
      · rw [hkj, entry_setEntry_self (tableWord_lt fun p hp => (ho p hp).1), hij, Nat.div_add_mod]
        simp [Radix.setLow]
      have hne : 512 * i + k ≠ j := by omega
      rw [entry_setEntry_index hkj, h.mid_entry hm' k hk]
      simp [Radix.setLow, update_of_ne hne]
    · have hne : 512 * i + k ≠ j := by
        intro hikj
        have hij : i = j / 512 := by omega
        rw [hij, hmid] at hm'
        exact hpq (Option.some.inj hm').symm
      rw [hother (hpl.isPage _ (h.mem_mid hm')) hpq hk, h.mid_entry hm' k hk]
      simp [Radix.setLow, update_of_ne hne]
  · intro j' p hl k hk
    show _ = t.leaf (512 * j' + k)
    rcases hlow hl with ⟨rfl, hop⟩ | ⟨_, hl⟩
    · obtain ⟨hpg, hfresh, hzero⟩ := ho p hop
      have hne : p ≠ q := fun hpq => hfresh (hpq ▸ h.mem_mid hmid)
      rw [hother hpg hne hk, hzero k hk, hleaf k hk]
    · rw [hother (hpl.isPage _ (h.mem_low hl)) (hpl.separate.mid_ne_low hmid hl).symm hk]
      exact h.low_entry hl k hk

/-- Store a leaf slot. -/
theorem Rep.setLeaf {j k e : Nat} (hpl : Placed t) (hl : t.low j = some q)
    (hk : k < 512) (he : e ≠ 0 → IsLeaf e) :
    Rep (setEntry mem q k e) (t.setLeaf (512 * j + k) e) shared := by
  have hqp := hpl.isPage _ (h.mem_low hl)
  have hother : ∀ {x i}, IsPage x → x ≠ q → i < 512 →
      entry (setEntry mem q k e) x i = entry mem x i :=
    fun hx hne hi => entry_setEntry_page hqp hx hne hk hi
  have hlt : e < 2 ^ 64 := by
    by_cases he0 : e = 0
    · rw [he0]
      decide
    · exact (he he0).lt
  refine ⟨⟨h.wf.mid_lt, h.wf.root_ne, h.wf.low_parent, ?_⟩, h.width_le, ?_, ?_, ?_, ?_, ?_⟩
  · intro v hv
    by_cases hvj : v = 512 * j + k
    · exact ⟨q, by rw [hvj, show (512 * j + k) / 512 = j by omega]; exact hl⟩
    · have hv' : t.leaf v ≠ 0 := by simpa [Radix.setLeaf, update_of_ne hvj] using hv
      exact h.wf.leaf_parent hv'
  · intro hr i hi
    have hr' : t.root ≠ 0 := hr
    show entry _ t.root i = _
    rw [hother (hpl.isPage _ (h.mem_root hr')) (hpl.separate.low_ne_root hl).symm
      (Nat.lt_of_lt_of_le hi h.width_le)]
    exact h.root_entry hr i hi
  · intro hr i hw hi
    have hr' : t.root ≠ 0 := hr
    show entry _ t.root i = _
    rw [hother (hpl.isPage _ (h.mem_root hr')) (hpl.separate.low_ne_root hl).symm hi]
    exact h.shared_entry hr i hw hi
  · intro i p hm l hl'
    have hm' : t.mid i = some p := hm
    rw [hother (hpl.isPage _ (h.mem_mid hm')) (hpl.separate.mid_ne_low hm' hl) hl']
    exact h.mid_entry hm' l hl'
  · intro j' p hlp i hi
    have hlp' : t.low j' = some p := hlp
    by_cases hpq : p = q
    · subst hpq
      have hjj : j' = j := hpl.separate.low_inj hlp' hl
      by_cases hik : i = k
      · rw [hik, entry_setEntry_self hlt, hjj]
        simp [Radix.setLeaf]
      have hne : 512 * j' + i ≠ 512 * j + k := by omega
      rw [entry_setEntry_index hik, h.low_entry hlp' i hi]
      simp [Radix.setLeaf, update_of_ne hne]
    · have hjj : j' ≠ j := by
        intro hjj
        rw [hjj, hl] at hlp'
        exact hpq (Option.some.inj hlp').symm
      have hne : 512 * j' + i ≠ 512 * j + k := by omega
      rw [hother (hpl.isPage _ (h.mem_low hlp')) hpq hi, h.low_entry hlp' i hi]
      simp [Radix.setLeaf, update_of_ne hne]
  · intro v hv
    by_cases hvj : v = 512 * j + k
    · have hve : (t.setLeaf (512 * j + k) e).leaf v = e := by simp [Radix.setLeaf, hvj]
      rw [hve] at hv ⊢
      exact he hv
    have hve : (t.setLeaf (512 * j + k) e).leaf v = t.leaf v := by
      simp [Radix.setLeaf, update_of_ne hvj]
    rw [hve] at hv ⊢
    exact h.leaf_ok hv

end Cells

/-! ## Tables made of pool pages -/

/-- The table `t` is in memory, on pages of the pool; `rest` are the pages held
by everybody else. -/
structure Tabled (P : PagePool) (m : Machine) (t : Radix) (shared : Nat → Nat)
    (rest : Multiset Nat) : Prop where
  stock : Stocked P m (t.frames + rest)
  rep : Rep m.mem t shared

namespace Tabled

variable {P : PagePool} {m m' : Machine} {rest : Multiset Nat}

section

variable (h : Tabled P m t shared rest)

include h

theorem isPage (hp : p ∈ t.frames) : IsPage p :=
  h.stock.isPage_of_mem (Multiset.mem_add.mpr (.inl hp))

theorem isPage_rest (hp : p ∈ rest) : IsPage p :=
  h.stock.isPage_of_mem (Multiset.mem_add.mpr (.inr hp))

theorem placed : Placed t :=
  ⟨fun _ hp => h.isPage hp,
    Radix.separate_of_nodup h.rep.wf (Multiset.nodup_add.mp h.stock.nodup_rest).1⟩

theorem rest_ne (hp : p ∈ t.frames) (hq : q ∈ rest) : q ≠ p :=
  fun heq => Multiset.disjoint_left.mp (Multiset.nodup_add.mp h.stock.nodup_rest).2.2 hp (heq ▸ hq)

/-- Storing into a page of the table leaves the other pages alone. -/
theorem keeps_store (hp : p ∈ t.frames) (hi : i < 512) (v : Nat) : Keeps rest m (m.store p i v) :=
  Keeps.of_bytes
    (fun _ hq => eqOn_setEntry (h.isPage hp) (h.isPage_rest hq) (h.rest_ne hp hq) hi) rfl

/-- The table is where it was if its own pages are, whatever happened to `rest`. -/
theorem congr {rest' : Multiset Nat} (hst : Stocked P m' (t.frames + rest'))
    (hk : ∀ p ∈ t.frames, Set.EqOn m'.mem m.mem (pageBytes p)) : Tabled P m' t shared rest' :=
  ⟨hst, h.rep.congr hk⟩

end

section Link

variable (h : Tabled P m t shared rest)

include h

/-- Clear a fresh page and store a pointer to it in a page of the table. -/
theorem link {t' : Radix} {x i : Nat} (hst : Stocked P m' (p ::ₘ (t.frames + rest)))
    (hmem : m'.mem = m.mem) (hfrees : m'.frees = m.frees) (hx : x ∈ t.frames) (hi : i < 512)
    (hframes : t'.frames = p ::ₘ t.frames) (hrep : Rep (m'.clear p).mem t shared →
      (IsPage p ∧ p ∉ t.frames ∧ ∀ k < 512, entry (m'.clear p).mem p k = 0) →
      Rep (setEntry (m'.clear p).mem x i (makeTablePte p)) t' shared) :
    Tabled P ((m'.clear p).store x i (makeTablePte p)) t' shared rest ∧
      Keeps rest m ((m'.clear p).store x i (makeTablePte p)) := by
  have hnd := (Multiset.nodup_cons.mp hst.nodup_rest).1
  have hp : IsPage p := hst.isPage_of_mem (mem_cons_self _ _)
  have hclear : ∀ q ∈ t.frames + rest, Set.EqOn (m'.clear p).mem m.mem (pageBytes q) := by
    intro q hq
    rw [Machine.clear_mem, hmem]
    exact eqOn_clearPage hp (h.stock.isPage_of_mem hq) fun heq => hnd (heq ▸ hq)
  refine ⟨⟨?_, hrep ?_ ⟨hp, ?_, fun k hk => entry_clearPage_self hk⟩⟩, Keeps.of_bytes ?_ hfrees⟩
  · rw [hframes, cons_add]
    exact hst.congr rfl rfl rfl
  · exact h.rep.congr fun q hq => hclear q (Multiset.mem_add.mpr (.inl hq))
  · exact fun hpf => hnd (Multiset.mem_add.mpr (.inl hpf))
  · intro q hq
    have hstore : Set.EqOn (setEntry (m'.clear p).mem x i (makeTablePte p)) (m'.clear p).mem
        (pageBytes q) := eqOn_setEntry (h.isPage hx) (h.isPage_rest hq) (h.rest_ne hx hq) hi
    exact hstore.trans (hclear q (Multiset.mem_add.mpr (.inr hq)))

theorem linkMid {i : Nat} (hroot : t.root ≠ 0) (hi : i < t.width)
    (hnone : t.mid i = none) (hst : Stocked P m' (p ::ₘ (t.frames + rest)))
    (hmem : m'.mem = m.mem) (hfrees : m'.frees = m.frees) :
    Tabled P ((m'.clear p).store t.root i (makeTablePte p)) (t.setMid i (some p)) shared rest ∧
      Keeps rest m ((m'.clear p).store t.root i (makeTablePte p)) := by
  have hlow : ∀ j < 512, t.low (512 * i + j) = none := by
    intro j hj
    cases hl : t.low (512 * i + j) with
    | none => rfl
    | some q =>
      obtain ⟨r, hr⟩ := h.rep.wf.low_parent hl
      rw [show (512 * i + j) / 512 = i by omega, hnone] at hr
      cases hr
  have hframes := Radix.frames_setMid hi (some p)
  rw [hnone, bag_none, add_zero, bag_some, add_comm, singleton_add] at hframes
  refine h.link hst hmem hfrees (h.rep.mem_root hroot) (Nat.lt_of_lt_of_le hi h.rep.width_le)
    hframes
    fun hrep hp => hrep.setMid (o := some p) h.placed hroot hi hlow ?_
  rintro q ⟨⟩
  exact hp

theorem linkLow {j q : Nat} (hmid : t.mid (j / 512) = some q)
    (hnone : t.low j = none) (hst : Stocked P m' (p ::ₘ (t.frames + rest)))
    (hmem : m'.mem = m.mem) (hfrees : m'.frees = m.frees) :
    Tabled P ((m'.clear p).store q (j % 512) (makeTablePte p)) (t.setLow j (some p)) shared rest ∧
      Keeps rest m ((m'.clear p).store q (j % 512) (makeTablePte p)) := by
  have hleaf : ∀ k < 512, t.leaf (512 * j + k) = 0 := by
    intro k hk
    by_contra hne
    obtain ⟨r, hr⟩ := h.rep.wf.leaf_parent hne
    rw [show (512 * j + k) / 512 = j by omega, hnone] at hr
    cases hr
  have hlt : j < 512 * t.width := by
    have := h.rep.wf.mid_lt hmid
    omega
  have hframes := Radix.frames_setLow hlt (some p)
  rw [hnone, bag_none, add_zero, bag_some, add_comm, singleton_add] at hframes
  refine h.link hst hmem hfrees (h.rep.mem_mid hmid) (Nat.mod_lt j (by decide)) hframes
    fun hrep hp => hrep.setLow (o := some p) h.placed hmid hleaf ?_
  rintro x ⟨⟩
  exact hp

/-- Free a page of the table and clear the slot that points to it. -/
theorem unlink {t' : Radix} {x i : Nat} (hx : x ∈ t.frames) (hi : i < 512)
    (hframes : t'.frames + {p} = t.frames + 0) (hrep : Rep (setEntry m.mem x i 0) t' shared) :
    Tabled P ((pageFree p m).store x i 0) t' shared rest ∧
      Keeps rest m ((pageFree p m).store x i 0) ∧ ((pageFree p m).store x i 0).slabs = m.slabs := by
  have hst := h.stock
  rw [← add_zero t.frames, ← hframes, add_comm t'.frames, singleton_add, cons_add] at hst
  obtain ⟨hst', hmem, hslabs, hkeep⟩ := pageFree_spec hst
  refine ⟨⟨hst'.congr rfl rfl rfl, ?_⟩, ⟨fun q hq => ?_, hkeep.part.frees⟩, hslabs⟩
  · rwa [Machine.store_mem, hmem]
  · rw [Machine.store_mem, hmem]
    exact eqOn_setEntry (h.isPage hx) (h.isPage_rest hq) (h.rest_ne hx hq) hi

/-- Free a middle table without children and clear its root slot. -/
theorem unlinkMid {i : Nat} (hm : t.mid i = some p) (hlow : ∀ j < 512, t.low (512 * i + j) = none) :
    Tabled P ((pageFree p m).store t.root i 0) (t.setMid i none) shared rest ∧
      Keeps rest m ((pageFree p m).store t.root i 0) ∧
      ((pageFree p m).store t.root i 0).slabs = m.slabs := by
  have hi := h.rep.wf.mid_lt hm
  have hroot := h.rep.wf.root_ne hm
  have hframes := Radix.frames_setMid hi none
  rw [hm] at hframes
  exact h.unlink (h.rep.mem_root hroot) (Nat.lt_of_lt_of_le hi h.rep.width_le) hframes
    (h.rep.setMid (o := none) h.placed hroot hi hlow fun q hq => by cases hq)

/-- Free an empty lowest table and clear the slot that points to it. -/
theorem unlinkLow {j q : Nat} (hmid : t.mid (j / 512) = some q)
    (hl : t.low j = some p) (hleaf : ∀ k < 512, t.leaf (512 * j + k) = 0) :
    Tabled P ((pageFree p m).store q (j % 512) 0) (t.setLow j none) shared rest ∧
      Keeps rest m ((pageFree p m).store q (j % 512) 0) ∧
      ((pageFree p m).store q (j % 512) 0).slabs = m.slabs := by
  have hframes := Radix.frames_setLow (h.rep.wf.low_lt hl) none
  rw [hl] at hframes
  exact h.unlink (h.rep.mem_mid hmid) (Nat.mod_lt j (by decide)) hframes
    (h.rep.setLow (o := none) h.placed hmid hleaf fun x hx => by cases hx)

/-- Store a leaf. -/
theorem storeLeaf {j k e q : Nat} (hl : t.low j = some q) (hk : k < 512) (he : e ≠ 0 → IsLeaf e) :
    Tabled P (m.store q k e) (t.setLeaf (512 * j + k) e) shared rest ∧
      Keeps rest m (m.store q k e) :=
  ⟨⟨h.stock.congr rfl rfl rfl, h.rep.setLeaf h.placed hl hk he⟩,
    h.keeps_store (h.rep.mem_low hl) hk e⟩

end Link

end Tabled

/-! ## The pages of a table, read from memory -/

/-- The lower tables that the first `n` slots of `table` point to. -/
def childTables (mem : Memory) (table n : Nat) : List Nat :=
  (List.range n).filterMap fun i =>
    if isTable (entry mem table i) then some (ptePhysical (entry mem table i)) else none

/-- The root and the intermediate tables under the first `n` root slots. -/
def tablePages (mem : Memory) (root n : Nat) : List Nat :=
  if root = 0 then []
  else root :: (childTables mem root n).flatMap fun table => table :: childTables mem table 512

/-- What a slot that holds `tableWord o` points to. -/
theorem slot_of_tableWord {o : Option Nat} (ho : ∀ p, o = some p → IsPage p) :
    (if isTable (tableWord o) then some (ptePhysical (tableWord o)) else none) = o := by
  cases o with
  | none => rfl
  | some p =>
    have hp := ho p rfl
    rw [tableWord, if_pos (isTable_makeTablePte hp), ptePhysical_makeTablePte hp]

theorem childTables_eq {table n : Nat} {o : Nat → Option Nat}
    (hentry : ∀ i < n, entry mem table i = tableWord (o i))
    (ho : ∀ i < n, ∀ p, o i = some p → IsPage p) :
    childTables mem table n = (List.range n).filterMap o := by
  refine List.filterMap_congr fun i hi => ?_
  have hin := List.mem_range.mp hi
  rw [hentry i hin, slot_of_tableWord (ho i hin)]

theorem coe_filterMap_range (o : Nat → Option Nat) (n : Nat) :
    ((List.range n).filterMap o : Multiset Nat) = ∑ i ∈ Finset.range n, bag (o i) := by
  induction n with
  | zero => rfl
  | succ n ih =>
    rw [List.range_succ, List.filterMap_append, ← coe_add, ih, Finset.sum_range_succ]
    cases hn : o n with
    | none => simp [hn]
    | some p => simp [hn]

/-- **The pages found by walking memory are the pages of the table.** -/
theorem Rep.tablePages_eq (h : Rep mem t shared) (hpage : ∀ p ∈ t.frames, IsPage p) :
    (tablePages mem t.root t.width : Multiset Nat) = t.frames := by
  by_cases hr : t.root = 0
  · rw [tablePages, if_pos hr, Radix.frames_of_root_zero h.wf hr]
    rfl
  have hroot : childTables mem t.root t.width = (List.range t.width).filterMap t.mid :=
    childTables_eq (h.root_entry hr) fun _ _ _ hm => hpage _ (h.mem_mid hm)
  have hmid : ∀ {i p}, t.mid i = some p → (p :: childTables mem p 512 : List Nat) = t.branch i := by
    intro i p hm
    rw [childTables_eq (h.mid_entry hm) fun _ _ _ hl => hpage _ (h.mem_low hl), ← cons_coe,
      coe_filterMap_range fun j => t.low (512 * i + j), Radix.branch, hm, bag_some,
      singleton_add]
  -- slot by slot: an empty one has no branch, a linked one has its table's
  have hsum : ∀ n, (((List.range n).filterMap t.mid).flatMap fun table =>
      table :: childTables mem table 512 : Multiset Nat) = ∑ i ∈ Finset.range n, t.branch i := by
    intro n
    induction n with
    | zero => rfl
    | succ n ih =>
      rw [List.range_succ, List.filterMap_append, List.flatMap_append, ← coe_add, ih,
        Finset.sum_range_succ]
      cases hm : t.mid n with
      | none => simp [hm, Radix.branch_of_mid_none h.wf hm]
      | some p => simp [hm, ← hmid hm]
  rw [tablePages, if_neg hr, hroot, ← cons_coe, hsum, Radix.frames_eq_branches, Radix.rootPage,
    if_neg hr, bag_some, singleton_add]

end MiniCore
