import MiniCore.Mm.VmReclaim

/-!
# MiniCore.Mm.Reclamation

Which table pages `vm_unmap` and `vm_prune_user` give back, read off memory.

`midTable` and `lowTable` follow the pointers of a table in memory, as the
hardware does.  Over a sound table they are the nodes of its `Radix` table, so
what the specifications of `MiniCore.Mm.VmReclaim` say about tight tables becomes
a statement about words and free pages: the tables that go are those that lost
their last translation, or that an aborted insertion had added.
-/

namespace MiniCore

open Lib Function

variable {P : PagePool} {m m' : Machine} {t t' kernel : Radix} {shared : Nat → Nat}
  {rest : Multiset Nat} {v : Nat}

/-- The table a word points to. -/
def tableOf (pte : Nat) : Option Nat := if isTable pte then some (ptePhysical pte) else none

/-- The level-1 table in slot `i` of the root. -/
def midTable (mem : Memory) (root i : Nat) : Option Nat := tableOf (entry mem root i)

/-- The level-0 table `j`, in slot `j % 512` of level-1 table `j / 512`. -/
def lowTable (mem : Memory) (root j : Nat) : Option Nat :=
  (midTable mem root (j / 512)).bind fun q => tableOf (entry mem q (j % 512))

/-- An intermediate table of the private half. -/
def InnerTable (mem : Memory) (root x : Nat) : Prop :=
  (∃ i < 256, midTable mem root i = some x) ∨ ∃ j < 512 * 256, lowTable mem root j = some x

/-- No intermediate table of the private half is empty. -/
structure NoEmptyTable (mem : Memory) (root : Nat) : Prop where
  mid : ∀ i < 256, ∀ q, midTable mem root i = some q → tableEmpty mem q = false
  low : ∀ j < 512 * 256, ∀ p, lowTable mem root j = some p → tableEmpty mem p = false

/-- The same tree: the same words in the root and in every table of the private half. -/
structure SameTree (root : Nat) (mem mem' : Memory) : Prop where
  top : ∀ i < 512, entry mem' root i = entry mem root i
  mid : ∀ i < 256, ∀ q, midTable mem root i = some q → ∀ j < 512, entry mem' q j = entry mem q j
  low : ∀ j < 512 * 256, ∀ p, lowTable mem root j = some p → ∀ k < 512,
    entry mem' p k = entry mem p k

/-- A table on the path to `v` with no other translation below it. -/
def Emptied (root v : Nat) (m : Machine) (x : Nat) : Prop :=
  (lowTable m.mem root (v / 2 ^ 21) = some x ∧
    ∀ a < 2 ^ 38, vmQuery root a m ≠ none → a / 2 ^ 21 = v / 2 ^ 21 → a / 4096 = v / 4096) ∨
  (midTable m.mem root (v / 2 ^ 30) = some x ∧
    ∀ a < 2 ^ 38, vmQuery root a m ≠ none → a / 2 ^ 30 = v / 2 ^ 30 → a / 4096 = v / 4096)

section Tables

variable {i j x : Nat}

variable (h : Tabled P m t shared rest)

include h

section

variable (hroot : t.root ≠ 0)

include hroot

theorem Tabled.midTable_eq (hi : i < t.width) : midTable m.mem t.root i = t.mid i := by
  rw [midTable, tableOf, isTable_entry_root h hroot hi]
  cases hm : t.mid i with
  | none => rfl
  | some q => simp [physical_entry_root h hroot hm]

theorem Tabled.lowTable_eq (hj : j / 512 < t.width) : lowTable m.mem t.root j = t.low j := by
  have hj' : j % 512 < 512 := Nat.mod_lt _ (by decide)
  rw [lowTable, h.midTable_eq hroot hj]
  cases hm : t.mid (j / 512) with
  | none =>
    cases hl : t.low j with
    | none => rfl
    | some p =>
      obtain ⟨q, hq⟩ := h.rep.wf.low_parent hl
      rw [hm] at hq
      cases hq
  | some q =>
    have htab := isTable_entry_mid h hm hj'
    rw [Nat.div_add_mod] at htab
    rw [Option.bind_some, tableOf, htab]
    cases hl : t.low j with
    | none => rfl
    | some p => simp [physical_entry_mid h hm hj' (by rw [Nat.div_add_mod]; exact hl)]

/-- The nodes below the root are the intermediate tables. -/
theorem Tabled.innerTable_iff (hw : t.width = 256) :
    InnerTable m.mem t.root x ↔ (∃ i, t.mid i = some x) ∨ ∃ j, t.low j = some x := by
  refine or_congr ⟨?_, ?_⟩ ⟨?_, ?_⟩
  · rintro ⟨i, hi, hx⟩
    exact ⟨i, by rwa [h.midTable_eq hroot (hw ▸ hi)] at hx⟩
  · rintro ⟨i, hx⟩
    have hi := h.rep.wf.mid_lt hx
    exact ⟨i, hw ▸ hi, by rwa [h.midTable_eq hroot hi]⟩
  · rintro ⟨j, hj, hx⟩
    exact ⟨j, by rwa [h.lowTable_eq hroot (by omega)] at hx⟩
  · rintro ⟨j, hx⟩
    have hj := h.rep.wf.low_lt hx
    rw [hw] at hj
    exact ⟨j, hj, by rwa [h.lowTable_eq hroot (by omega)]⟩

theorem Tabled.innerTable_frames (hw : t.width = 256) :
    InnerTable m.mem t.root x ↔ x ∈ t.frames ∧ x ≠ t.root := by
  rw [h.innerTable_iff hroot hw, Radix.mem_frames h.rep.wf]
  have hsep := h.placed.separate
  constructor
  · rintro (⟨i, hi⟩ | ⟨j, hj⟩)
    · exact ⟨.inr (.inl ⟨i, hi⟩), hsep.mid_ne_root hi⟩
    · exact ⟨.inr (.inr ⟨j, hj⟩), hsep.low_ne_root hj⟩
  · rintro ⟨⟨-, hx⟩ | hx, hne⟩
    · exact absurd hx hne
    · exact hx

theorem Tabled.noEmptyTable (hw : t.width = 256)
    (htight : t.Tight) : NoEmptyTable m.mem t.root where
  mid i hi q hq := by
    rw [h.midTable_eq hroot (hw ▸ hi)] at hq
    obtain ⟨j, hj, p, hp⟩ := htight.mid_used hq
    rw [← Bool.not_eq_true, h.rep.tableEmpty_mid (fun _ hp => h.isPage hp) hq]
    intro hall
    rw [hall j hj] at hp
    cases hp
  low j hj p hp := by
    rw [h.lowTable_eq hroot (by omega)] at hp
    obtain ⟨k, hk, hne⟩ := htight.low_used hp
    rw [← Bool.not_eq_true, h.rep.tableEmpty_low hp]
    exact fun hall => hne (hall k hk)

end

/-- Two machines that hold one table hold the same words. -/
theorem Tabled.sameTree {rest' : Multiset Nat}
    (h' : Tabled P m' t shared rest') (hroot : t.root ≠ 0) (hw : t.width = 256) :
    SameTree t.root m.mem m'.mem where
  top i hi := by
    by_cases hlt : i < t.width
    · rw [h.rep.root_entry hroot i hlt, h'.rep.root_entry hroot i hlt]
    · rw [h.rep.shared_entry hroot i (Nat.not_lt.mp hlt) hi,
        h'.rep.shared_entry hroot i (Nat.not_lt.mp hlt) hi]
  mid i hi q hq j hj := by
    rw [h.midTable_eq hroot (hw ▸ hi)] at hq
    rw [h.rep.mid_entry hq j hj, h'.rep.mid_entry hq j hj]
  low j hj p hp k hk := by
    rw [h.lowTable_eq hroot (by omega)] at hp
    rw [h.rep.low_entry hp k hk, h'.rep.low_entry hp k hk]

/-- A table that got smaller has given the difference to the allocator. -/
theorem Tabled.mem_freeList (h' : Tabled P m' t' shared rest)
    (hslabs : m'.slabs = m.slabs) (hle : Radix.Le t' t) :
    x ∈ m'.freeList ↔ x ∈ m.freeList ∨ x ∈ t.frames ∧ x ∉ t'.frames := by
  have hsub := hle.mem_frames h'.rep.wf h.rep.wf (p := x)
  -- both sides of the pool, without what they have in common
  have hpool : (m'.freeList : Multiset Nat) + t'.frames = m.freeList + t.frames := by
    have heq := h'.stock.pool.trans h.stock.pool.symm
    rw [Machine.stock, Machine.stock, hslabs] at heq
    have hcancel : (m'.freeList : Multiset Nat) + t'.frames + (slabBag m.slabs + rest) =
        m.freeList + t.frames + (slabBag m.slabs + rest) := by
      calc
        _ = (m'.freeList : Multiset Nat) + slabBag m.slabs + (t'.frames + rest) := by abel
        _ = (m.freeList : Multiset Nat) + slabBag m.slabs + (t.frames + rest) := heq
        _ = _ := by abel
    exact add_right_cancel hcancel
  have hnodup : ∀ {n : Machine} {u : Radix}, Tabled P n u shared rest → x ∈ n.freeList →
      x ∉ u.frames := by
    intro n u hn hx hu
    have hnd := P.nodup
    rw [← hn.stock.pool] at hnd
    refine Multiset.disjoint_left.mp (Multiset.nodup_add.mp hnd).2.2 ?_
      (Multiset.mem_add.mpr (.inl hu))
    exact Multiset.mem_add.mpr (.inl hx)
  have hmem : x ∈ m'.freeList ∨ x ∈ t'.frames ↔ x ∈ m.freeList ∨ x ∈ t.frames := by
    have := congrArg (x ∈ ·) hpool
    simpa only [Multiset.mem_add, Multiset.mem_coe, eq_iff_iff] using this
  have hno := hnodup h
  have hno' := hnodup h'
  tauto

theorem Tabled.vmQuery_ne_none (hw : t.width = 256) {a : Nat}
    (ha : a < 2 ^ 38) : vmQuery t.root a m ≠ none ↔ t.leaf (a / 4096) ≠ 0 := by
  have hv : vpn a / 512 / 512 < t.width := by
    rw [hw, vpn_of_lt ha]
    omega
  rw [vmQuery_spec h (canonical_of_lt ha) hv, vpn_of_lt ha]
  split <;> simp_all

/-- A leaf of the private half has an address. -/
theorem Tabled.leaf_lt (hw : t.width = 256) {u : Nat} (hne : t.leaf u ≠ 0) : u * 4096 < 2 ^ 38 := by
  obtain ⟨p, hp⟩ := h.rep.wf.leaf_parent hne
  have := h.rep.wf.low_lt hp
  rw [hw] at this
  omega

/-- No translation but that of `v` in its block of `n` bytes, seen from the leaves. -/
theorem Tabled.only_iff (hw : t.width = 256) (n : Nat) (hn : 4096 ∣ n) :
    (∀ a < 2 ^ 38, vmQuery t.root a m ≠ none → a / n = v / n → a / 4096 = v / 4096) ↔
      ∀ u, u / (n / 4096) = v / 4096 / (n / 4096) → update t.leaf (v / 4096) 0 u = 0 := by
  obtain ⟨k, rfl⟩ := hn
  rw [Nat.mul_div_cancel_left k (by decide)]
  simp only [Nat.div_div_eq_div_mul]
  constructor
  · intro hall u hu
    by_cases huv : u = v / 4096
    · rw [huv, update_self]
    rw [update_of_ne huv]
    by_contra hne
    have hlt := h.leaf_lt hw hne
    have hq : vmQuery t.root (u * 4096) m ≠ none := by
      rw [h.vmQuery_ne_none hw hlt, Nat.mul_div_cancel _ (by decide)]
      exact hne
    refine huv ?_
    have := hall (u * 4096) hlt hq
      (by rw [← Nat.div_div_eq_div_mul, Nat.mul_div_cancel _ (by decide), hu])
    rwa [Nat.mul_div_cancel _ (by decide)] at this
  · intro hall a ha hq heq
    by_contra hne
    have hz := hall (a / 4096) (by rw [Nat.div_div_eq_div_mul, heq])
    rw [update_of_ne hne] at hz
    exact (h.vmQuery_ne_none hw ha).mp hq hz

/-- The tables a tight table loses with the leaf of `v`. -/
theorem Tabled.emptied_iff (hroot : t.root ≠ 0) (hw : t.width = 256)
    (htight : t.Tight) (hv : v < 2 ^ 38) (hwf : t'.WF) (htight' : t'.Tight) (hle : Radix.Le t' t)
    (hleaf : t'.leaf = update t.leaf (v / 4096) 0) :
    Emptied t.root v m x ↔ x ∈ t.frames ∧ x ∉ t'.frames := by
  rw [htight'.lost_iff hwf hle h.rep.wf h.placed.separate, Emptied,
    h.only_iff hw (2 ^ 21) ⟨512, rfl⟩, h.only_iff hw (2 ^ 30) ⟨512 * 512, rfl⟩,
    h.lowTable_eq hroot (by omega), h.midTable_eq hroot (by omega), ← hleaf]
  have h21 : v / 2 ^ 21 = v / 4096 / 512 := by omega
  have h30 : v / 2 ^ 30 = v / 4096 / 512 / 512 := by omega
  -- a node without a leaf below had one before, so it is on the path to `v`
  have hpath : ∀ {u : Nat}, t'.leaf u = 0 → t.leaf u ≠ 0 → u = v / 4096 := by
    intro u hz hne
    by_contra huv
    rw [hleaf, update_of_ne huv] at hz
    exact hne hz
  refine or_congr ⟨?_, ?_⟩ ⟨?_, ?_⟩
  · rintro ⟨hx, hz⟩
    exact ⟨v / 4096 / 512, h21 ▸ hx, hz⟩
  · rintro ⟨j, hx, hz⟩
    obtain ⟨k, hk, hne⟩ := htight.low_used hx
    have hu := hpath (hz (512 * j + k) (by omega)) hne
    obtain rfl : v / 4096 / 512 = j := by omega
    exact ⟨h21 ▸ hx, hz⟩
  · rintro ⟨hx, hz⟩
    exact ⟨v / 4096 / 512 / 512, h30 ▸ hx, fun u hu => hz u (by omega)⟩
  · rintro ⟨i, hx, hz⟩
    obtain ⟨j, hj, q, hq⟩ := htight.mid_used hx
    obtain ⟨k, hk, hne⟩ := htight.low_used hq
    have hu := hpath (hz (512 * (512 * i + j) + k) (by omega)) hne
    obtain rfl : v / 4096 / 512 / 512 = i := by omega
    exact ⟨h30 ▸ hx, fun u hu => hz u (by omega)⟩

end Tables

/-! ## Translations in both halves -/

/-- The upper half of a table is that of the kernel's table, whose pages are
among `rest`. -/
structure KernelHalf (kernel : Radix) (shared : Nat → Nat) (rest : Multiset Nat) (m : Machine) :
    Prop where
  rep : Rep m.mem kernel fun _ => 0
  width : kernel.width = 512
  root_ne : kernel.root ≠ 0
  le : kernel.frames ≤ rest
  shared_eq : ∀ n < 512, shared n = entry m.mem kernel.root n

section Translations

variable {address : Nat}

theorem KernelHalf.keep (h : KernelHalf kernel shared rest m) (hk : Keeps rest m m') :
    KernelHalf kernel shared rest m' := by
  have hbytes : ∀ p ∈ kernel.frames, Set.EqOn m'.mem m.mem (pageBytes p) :=
    fun p hp => hk.bytes p (Multiset.mem_of_le h.le hp)
  refine ⟨h.rep.congr hbytes, h.width, h.root_ne, h.le, fun n hn => ?_⟩
  rw [h.shared_eq n hn, entry_congr hn (hbytes _ (h.rep.mem_root h.root_ne))]

theorem KernelHalf.mono {rest' : Multiset Nat} (h : KernelHalf kernel shared rest m)
    (hle : rest ≤ rest') : KernelHalf kernel shared rest' m :=
  ⟨h.rep, h.width, h.root_ne, h.le.trans hle, h.shared_eq⟩

/-- A query only sees the root through the slot of the address. -/
theorem vmQuery_root_congr {r r' : Nat} (hr : r ≠ 0) (hr' : r' ≠ 0)
    (heq : entry m.mem r (vpnIndex address 2) = entry m.mem r' (vpnIndex address 2)) :
    vmQuery r address m = vmQuery r' address m := by
  have hstep : walkStep false r (vpnIndex address 2) m = walkStep false r'
      (vpnIndex address 2) m := by
    simp only [walkStep, heq, Bool.false_eq_true, if_false]
  have hwalk : walk false r address m = walk false r' address m := by
    simp only [walk, hr, hr', false_or, walkFrom, hstep]
  rw [vmQuery, vmQuery, hwalk]

/-- Above the user half a query is a query of the kernel's table. -/
theorem Tabled.vmQuery_upper (h : Tabled P m t shared rest) (hk : KernelHalf kernel shared rest m)
    (hroot : t.root ≠ 0) (hw : t.width = 256) (hc : canonical address = true)
    (hv : ¬ vpn address / 512 / 512 < 256) : vmQuery t.root address m =
      if kernel.leaf (vpn address) = 0 then none
      else some (ptePhysical (kernel.leaf (vpn address)) ||| pageOffset address,
        kernel.leaf (vpn address) &&& 0x3ff) := by
  have hlt : vpn address / 512 / 512 < 512 := by
    unfold vpn
    omega
  obtain ⟨others, hothers⟩ := Multiset.le_iff_exists_add.mp hk.le
  have htab : Tabled P m kernel (fun _ => 0) (t.frames + others) := by
    refine ⟨?_, hk.rep⟩
    have hst := h.stock
    rwa [hothers, add_left_comm] at hst
  rw [← vmQuery_spec htab hc (hk.width ▸ hlt)]
  refine vmQuery_root_congr hroot hk.root_ne ?_
  rw [vpnIndex_two, ← hk.shared_eq _ hlt]
  exact h.rep.shared_entry hroot _ (by rw [hw]; omega) hlt

/-- Two machines whose tables have the same leaf for an address, under the same
upper half, translate it alike. -/
theorem Tabled.vmQuery_congr {rest' : Multiset Nat} (h : Tabled P m t shared rest)
    (h' : Tabled P m' t' shared rest') (hk : KernelHalf kernel shared rest m)
    (hk' : KernelHalf kernel shared rest' m')
    (hw : t.width = 256) (hle : t'.root = t.root ∧ t'.width = t.width)
    (hleaf : t'.leaf (vpn address) = t.leaf (vpn address)) :
    vmQuery t.root address m' = vmQuery t.root address m := by
  have hnone : t.root = 0 ∨ canonical address = false → ∀ n : Machine,
      vmQuery t.root address n = none := by
    intro hbad n
    rw [vmQuery, walk, if_pos hbad]
  by_cases hroot : t.root = 0
  · rw [hnone (.inl hroot), hnone (.inl hroot)]
  by_cases hc : canonical address = true
  · by_cases hv : vpn address / 512 / 512 < 256
    · rw [vmQuery_spec h hc (hw ▸ hv), ← hle.1, vmQuery_spec h' hc (by rw [hle.2, hw]; exact hv),
        hleaf]
    · rw [h.vmQuery_upper hk hroot hw hc hv, ← hle.1,
        h'.vmQuery_upper hk' (hle.1 ▸ hroot) (hle.2.trans hw) hc hv]
  · have hc' : canonical address = false := by simpa using hc
    rw [hnone (.inr hc'), hnone (.inr hc')]

end Translations

/-! ## The laws -/

/-- What mapping, unmapping and pruning do to the tables under a root. -/
structure ReclaimLaws (root : Nat) (m : Machine) : Prop where
  noEmpty : NoEmptyTable m.mem root
  /-- `vm_unmap` of a mapped page gives back the tables that become empty -/
  unmap : ∀ v < 2 ^ 38, v % 4096 = 0 → vmQuery root v m ≠ none → ∀ ok m',
    vmUnmap root v m = (ok, m') →
    ok = true ∧ (∀ x, x ∈ m'.freeList ↔ x ∈ m.freeList ∨ Emptied root v m x) ∧
    (∀ x, InnerTable m'.mem root x ↔ InnerTable m.mem root x ∧ ¬Emptied root v m x) ∧
    vmQuery root v m' = none ∧ ∀ a, vpn a ≠ vpn v → vmQuery root a m' = vmQuery root a m
  /-- a page mapped and unmapped leaves no trace -/
  map_unmap : ∀ v < 2 ^ 38, ∀ physical < 2 ^ 64, ∀ flags m₁ ok m₂,
    vmMap root v physical flags m = (true, m₁) → vmUnmap root v m₁ = (ok, m₂) →
    ok = true ∧ SameTree root m.mem m₂.mem ∧ ∀ x, x ∈ m₂.freeList ↔ x ∈ m.freeList
  /-- `vm_prune_user` gives back what a failed `vm_map` has built -/
  prune : ∀ v < 2 ^ 38, ∀ physical < 2 ^ 64, ∀ flags m₁, vmMap root v physical flags m =
    (false, m₁) →
    (∀ x, x ∈ (vmPruneUser root m₁).freeList ↔
      x ∈ m₁.freeList ∨ InnerTable m₁.mem root x ∧ ¬InnerTable m.mem root x) ∧
    SameTree root m.mem (vmPruneUser root m₁).mem ∧
    (∀ a, vmQuery root a (vmPruneUser root m₁) = vmQuery root a m₁) ∧
    ∀ i < 512, 256 ≤ i → entry (vmPruneUser root m₁).mem root i = entry m₁.mem root i

section Laws

variable {m₁ : Machine} {physical flags : Nat} {ok : Bool}

variable (h : Tabled P m t shared rest)

include h

variable (hroot : t.root ≠ 0)

include hroot

variable (hw : t.width = 256)

include hw

variable (htight : t.Tight)

include htight

variable (hk : KernelHalf kernel shared rest m)

include hk

theorem Tabled.vmUnmap_exact (hv : v < 2 ^ 38) (hal : v % 4096 = 0)
    (hq : vmQuery t.root v m ≠ none) (hrun : vmUnmap t.root v m = (ok, m')) :
    ok = true ∧ (∀ x, x ∈ m'.freeList ↔ x ∈ m.freeList ∨ Emptied t.root v m x) ∧
    (∀ x, InnerTable m'.mem t.root x ↔ InnerTable m.mem t.root x ∧ ¬Emptied t.root v m x) ∧
    vmQuery t.root v m' = none ∧ ∀ a, vpn a ≠ vpn v → vmQuery t.root a m' = vmQuery t.root a m := by
  obtain ⟨t', hs, htight', hiff⟩ := vmUnmap_spec h (canonical_of_lt hv) hal
    (show vpn v / 512 / 512 < t.width by rw [hw, vpn_of_lt hv]; omega)
  rw [hrun, vpn_of_lt hv] at hs
  rw [hrun, vpn_of_lt hv, ← h.vmQuery_ne_none hw hv] at hiff
  have hroot' : t'.root ≠ 0 := hs.le.root ▸ hroot
  have hw' : t'.width = 256 := hs.le.width.trans hw
  have hempty : ∀ x, Emptied t.root v m x ↔ x ∈ t.frames ∧ x ∉ t'.frames := fun x =>
    h.emptied_iff hroot hw htight hv hs.tabled.rep.wf (htight' htight) hs.le hs.leaf_eq
  refine ⟨hiff.mpr hq, fun x => ?_, fun x => ?_, ?_, fun a ha => ?_⟩
  · rw [hempty, h.mem_freeList hs.tabled hs.slabs hs.le]
  · rw [hempty, h.innerTable_frames hroot hw, ← hs.le.root, hs.tabled.innerTable_frames hroot' hw']
    have hsub := hs.le.mem_frames hs.tabled.rep.wf h.rep.wf (p := x)
    tauto
  · rw [← not_not (a := vmQuery t.root v m' = none), ← hs.le.root, ← ne_eq,
      hs.tabled.vmQuery_ne_none hw' hv, hs.leaf_eq, update_self]
    exact fun hne => hne rfl
  · refine h.vmQuery_congr hs.tabled hk (hk.keep hs.keeps) hw ⟨hs.le.root, hs.le.width⟩ ?_
    rw [hs.leaf_eq, update_of_ne (vpn_of_lt hv ▸ ha)]

omit hk in
theorem Tabled.vmMap_vmUnmap (hv : v < 2 ^ 38) (hp : physical < 2 ^ 64)
    (hmap : vmMap t.root v physical flags m = (true, m₁)) (hrun : vmUnmap t.root v m₁ = (ok, m')) :
    ok = true ∧ SameTree t.root m.mem m'.mem ∧ ∀ x, x ∈ m'.freeList ↔ x ∈ m.freeList := by
  have hvpn : vpn v / 512 / 512 < t.width := by
    rw [hw, vpn_of_lt hv]
    omega
  obtain ⟨t1, h1, -, hs1, hok, -⟩ := vmMap_spec h flags hvpn hp
  rw [hmap] at h1 hs1 hok
  obtain ⟨hal, halp, hvalid, hzero, htight1, hle1, hleaf1⟩ := hok rfl
  obtain ⟨t2, hs, htight2, hiff⟩ := vmUnmap_spec h1 (canonical_of_lt hv) hal (hle1.width ▸ hvpn)
  rw [← hle1.root, hrun] at hs hiff
  -- the two tables are tight, inside the one between them, and have the same leaves
  have hleaf : t2.leaf = t.leaf := by
    rw [hs.leaf_eq, hleaf1, update_idem, ← hzero, update_eq_self]
  obtain rfl : t2 = t :=
    Radix.Le.eq_of_leaf_eq hs.tabled.rep.wf h.rep.wf (htight2 (htight1 htight)) htight
    hs.le hle1 hleaf
  refine ⟨hiff.mpr ?_, h.sameTree hs.tabled hroot hw, fun x => ?_⟩
  · rw [hleaf1, update_self]
    exact (isLeaf_leafPte halp hp hvalid).ne_zero
  · exact h.stock.mem_freeList_iff hs.tabled.stock (by rw [hs.slabs, hs1])

theorem Tabled.vmPruneUser_exact (hv : v < 2 ^ 38) (hp : physical < 2 ^ 64)
    (hmap : vmMap t.root v physical flags m = (false, m₁)) :
    (∀ x, x ∈ (vmPruneUser t.root m₁).freeList ↔
      x ∈ m₁.freeList ∨ InnerTable m₁.mem t.root x ∧ ¬InnerTable m.mem t.root x) ∧
    SameTree t.root m.mem (vmPruneUser t.root m₁).mem ∧
    (∀ a, vmQuery t.root a (vmPruneUser t.root m₁) = vmQuery t.root a m₁) ∧
    ∀ i < 512, 256 ≤ i → entry (vmPruneUser t.root m₁).mem t.root i = entry m₁.mem t.root i := by
  obtain ⟨t1, h1, hkeeps1, -, -, hfail⟩ := vmMap_spec h flags
    (show vpn v / 512 / 512 < t.width by rw [hw, vpn_of_lt hv]; omega) hp
  rw [hmap] at h1 hkeeps1 hfail
  have hg := hfail rfl
  obtain ⟨h2, hkeeps2, hslabs2⟩ := vmPruneUser_of_grows h1 h.rep.wf htight hw hg
  have hroot1 : t1.root ≠ 0 := hg.le.root ▸ hroot
  have hw1 : t1.width = 256 := hg.le.width ▸ hw
  have hk1 := hk.keep hkeeps1
  refine ⟨fun x => ?_, h.sameTree h2 hroot hw, fun a => ?_, fun i hi hge => ?_⟩
  · have htop : t.root ∈ t.frames := h.rep.mem_root hroot
    rw [h1.mem_freeList h2 hslabs2 hg.le, h.innerTable_frames hroot hw, hg.le.root,
      h1.innerTable_frames hroot1 hw1, ← hg.le.root]
    refine or_congr_right ⟨fun hx => ⟨⟨hx.1, ?_⟩, fun hno => hx.2 hno.1⟩, fun hx => ⟨hx.1.1, ?_⟩⟩
    · rintro rfl
      exact hx.2 htop
    · exact fun hno => hx.2 ⟨hno, hx.1.2⟩
  · have hsame := h1.vmQuery_congr h2 hk1 (hk1.keep hkeeps2) hw1 ⟨hg.le.root, hg.le.width⟩
      (congrFun hg.leaf.symm (vpn a))
    rwa [← hg.le.root] at hsame
  · rw [h2.rep.shared_entry hroot i (hw ▸ hge) hi]
    have := h1.rep.shared_entry hroot1 i (hw1 ▸ hge) hi
    rw [hg.le.root, this]

/-- **The tables under a tight root are reclaimed exactly.** -/
theorem Tabled.lawful_tables
    : ReclaimLaws t.root m where
  noEmpty := h.noEmptyTable hroot hw htight
  unmap _ hv hal hq _ _ hrun := h.vmUnmap_exact hroot hw htight hk hv hal hq hrun
  map_unmap _ hv _ hp _ _ _ _ hmap hrun := h.vmMap_vmUnmap hroot hw htight hv hp hmap hrun
  prune _ hv _ hp _ _ hmap := h.vmPruneUser_exact hroot hw htight hk hv hp hmap

end Laws

end MiniCore
