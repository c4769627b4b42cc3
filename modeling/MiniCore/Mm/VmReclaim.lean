import Mathlib.Algebra.BigOperators.Intervals
import MiniCore.Mm.VmSpec

/-!
# MiniCore.Mm.VmReclaim

The routines of `MiniCore.Mm.Vm` that give table pages back, and creation.

`vmUnmap` reclaims upward from the leaf it erases, `vmPruneUser` sweeps the whole
private half, `vmDestroyUser` frees everything.  The first two end in a tight
table (`vmUnmap_spec`, `vmPruneUser_spec`); on a table that was tight before an
aborted insertion, pruning therefore restores that very table
(`vmPruneUser_of_grows`).  The third leaves the pool as if the table had never
been there (`vmDestroyUser_spec`).
-/

namespace MiniCore

open Lib Multiset

variable {t : Radix} {shared : Nat → Nat} {P : PagePool} {m : Machine} {rest : Multiset Nat}

section Empty

variable {mem : Memory}

theorem tableEmpty_iff {table : Nat} :
    tableEmpty mem table = true ↔ ∀ i < 512, entry mem table i &&& pteV = 0 := by
  simp [tableEmpty]

theorem Rep.tableEmpty_low (h : Rep mem t shared) (hl : t.low j = some p) :
    tableEmpty mem p = true ↔ ∀ k < 512, t.leaf (512 * j + k) = 0 := by
  rw [tableEmpty_iff]
  refine forall₂_congr fun k hk => ?_
  rw [h.low_entry hl k hk]
  constructor
  · intro hv
    by_contra hne
    exact (h.leaf_ok hne).valid hv
  · intro hz
    rw [hz, Nat.zero_and]

theorem Rep.tableEmpty_mid (h : Rep mem t shared) (hpage : ∀ p ∈ t.frames, IsPage p)
    (hm : t.mid i = some p) : tableEmpty mem p = true ↔ ∀ j < 512, t.low (512 * i + j) = none := by
  rw [tableEmpty_iff]
  refine forall₂_congr fun j hj => ?_
  rw [h.mid_entry hm j hj]
  cases hl : t.low (512 * i + j) with
  | none => simp [tableWord]
  | some q =>
    have hq := isTable_iff.mp (isTable_makeTablePte (hpage q (h.mem_low hl)))
    simp [tableWord, hq.1]

/-- A leaf passes both tests `vm_unmap` makes on it. -/
theorem IsLeaf.unmappable (h : IsLeaf pte) : pte &&& (pteV ||| pteR ||| pteX) ≠ pteV := by
  intro heq
  apply h.mapped
  have hsub : pte &&& (pteR ||| pteX) = pte &&& (pteV ||| pteR ||| pteX) &&& (pteR ||| pteX) := by
    rw [Nat.and_assoc]
    rfl
  rw [hsub, heq]
  rfl

end Empty

/-! ## Unmapping -/

section Unmap

/-- The state after giving pages of the table back: a smaller table with the
leaves `leaf`, everybody else untouched. -/
structure Shrunk (P : PagePool) (m m' : Machine) (t t' : Radix) (shared : Nat → Nat)
    (rest : Multiset Nat) (leaf : Nat → Nat) : Prop where
  tabled : Tabled P m' t' shared rest
  keeps : Keeps rest m m'
  slabs : m'.slabs = m.slabs
  le : Radix.Le t' t
  leaf_eq : t'.leaf = leaf

variable (h : Tabled P m t shared rest)

include h

theorem isTable_entry_root (hroot : t.root ≠ 0) {i : Nat}
    (hi : i < t.width) : isTable (entry m.mem t.root i) = (t.mid i).isSome := by
  rw [h.rep.root_entry hroot i hi]
  cases hm : t.mid i with
  | none => rfl
  | some p => exact isTable_makeTablePte (h.isPage (h.rep.mem_mid hm))

theorem isTable_entry_mid {i j q : Nat} (hq : t.mid i = some q)
    (hj : j < 512) : isTable (entry m.mem q j) = (t.low (512 * i + j)).isSome := by
  rw [h.rep.mid_entry hq j hj]
  cases hl : t.low (512 * i + j) with
  | none => rfl
  | some p => exact isTable_makeTablePte (h.isPage (h.rep.mem_low hl))

theorem physical_entry_root (hroot : t.root ≠ 0) {i : Nat}
    (hm : t.mid i = some p) : ptePhysical (entry m.mem t.root i) = p := by
  rw [h.rep.root_entry hroot i (h.rep.wf.mid_lt hm), hm]
  exact ptePhysical_makeTablePte (h.isPage (h.rep.mem_mid hm))

theorem physical_entry_mid {i j q : Nat} (hq : t.mid i = some q)
    (hj : j < 512) (hl : t.low (512 * i + j) = some p) : ptePhysical (entry m.mem q j) = p := by
  rw [h.rep.mid_entry hq j hj, hl]
  exact ptePhysical_makeTablePte (h.isPage (h.rep.mem_low hl))

/-- Without a leaf there is nothing to unmap. -/
theorem vmUnmap_of_leaf_eq_zero {address : Nat}
    (hv : vpn address / 512 / 512 < t.width) (hz : t.leaf (vpn address) = 0) :
    vmUnmap t.root address m = (false, m) := by
  by_cases hbad : t.root = 0 ∨ pageOffset address ≠ 0 ∨ canonical address = false
  · simp [vmUnmap, hbad]
  have hroot : t.root ≠ 0 := fun hr => hbad (.inl hr)
  have hi1 : vpn address / 512 % 512 < 512 := Nat.mod_lt _ (by decide)
  have hi0 : vpn address % 512 < 512 := Nat.mod_lt _ (by decide)
  have htab2 := isTable_entry_root h hroot hv
  cases hm : t.mid (vpn address / 512 / 512) with
  | none =>
    rw [hm] at htab2
    simp [vmUnmap, hbad, vpnIndex_two, htab2]
  | some q =>
    rw [hm] at htab2
    have hptr2 := physical_entry_root h hroot hm
    have htab1 := isTable_entry_mid h hm hi1
    rw [Nat.div_add_mod] at htab1
    cases hl : t.low (vpn address / 512) with
    | none =>
      rw [hl] at htab1
      simp [vmUnmap, hbad, vpnIndex_two, vpnIndex_one, htab2, hptr2, htab1]
    | some p =>
      rw [hl] at htab1
      have hptr1 := physical_entry_mid h hm hi1 (by rw [Nat.div_add_mod]; exact hl)
      have hentry := h.rep.low_entry hl _ hi0
      rw [Nat.div_add_mod] at hentry
      simp [vmUnmap, hbad, vpnIndex_two, vpnIndex_one, vpnIndex_zero, htab2, hptr2, htab1, hptr1,
        hentry, hz]

/-- With a leaf, the walk ends at its slot and the rest of `vm_unmap` is this. -/
theorem vmUnmap_of_leaf {address p q : Nat}
    (hc : canonical address = true) (hal : pageOffset address = 0)
    (hm : t.mid (vpn address / 512 / 512) = some q) (hl : t.low (vpn address / 512) = some p)
    (hne : t.leaf (vpn address) ≠ 0) : vmUnmap t.root address m =
      let erased := m.store p (vpn address % 512) 0
      if tableEmpty erased.mem p = false then (true, erased)
      else
        let unlinked := (pageFree p erased).store q (vpn address / 512 % 512) 0
        if tableEmpty unlinked.mem q = false then (true, unlinked)
        else (true, (pageFree q unlinked).store t.root (vpn address / 512 / 512) 0) := by
  have hroot := h.rep.wf.root_ne hm
  have hi1 : vpn address / 512 % 512 < 512 := Nat.mod_lt _ (by decide)
  have hi0 : vpn address % 512 < 512 := Nat.mod_lt _ (by decide)
  have htab2 := isTable_entry_root h hroot (h.rep.wf.mid_lt hm)
  have htab1 := isTable_entry_mid h hm hi1
  have hentry := h.rep.low_entry hl _ hi0
  rw [Nat.div_add_mod] at htab1 hentry
  rw [hm] at htab2
  rw [hl] at htab1
  have hptr2 := physical_entry_root h hroot hm
  have hptr1 := physical_entry_mid h hm hi1 (by rw [Nat.div_add_mod]; exact hl)
  have hleaf := h.rep.leaf_ok hne
  simp [vmUnmap, hroot, hc, hal, vpnIndex_two, vpnIndex_one, vpnIndex_zero, htab2, hptr2,
    htab1, hptr1, hentry, hleaf.valid, hleaf.unmappable]
  rfl

/-- **`vm_unmap`** erases the leaf of the address, if there is one, and reclaims
exactly the tables this empties. -/
theorem vmUnmap_spec {address : Nat} (hc : canonical address = true) (hal : pageOffset address = 0)
    (hv : vpn address / 512 / 512 < t.width) :
    ∃ t', Shrunk P m (vmUnmap t.root address m).2 t t' shared rest
        (Function.update t.leaf (vpn address) 0) ∧ (t.Tight → t'.Tight) ∧
      ((vmUnmap t.root address m).1 = true ↔ t.leaf (vpn address) ≠ 0) := by
  by_cases hz : t.leaf (vpn address) = 0
  · have hsame : Function.update t.leaf (vpn address) 0 = t.leaf := by
      rw [← hz]
      exact Function.update_eq_self _ _
    rw [vmUnmap_of_leaf_eq_zero h hv hz, hsame]
    exact ⟨t, ⟨h, Keeps.refl rest m, rfl, Radix.Le.refl t, rfl⟩, id, by simp [hz]⟩
  obtain ⟨p, hl⟩ := h.rep.wf.leaf_parent hz
  obtain ⟨q, hm⟩ := h.rep.wf.low_parent hl
  have hi0 : vpn address % 512 < 512 := Nat.mod_lt _ (by decide)
  have hpath : 512 * (vpn address / 512) + vpn address % 512 = vpn address := Nat.div_add_mod _ _
  obtain ⟨h1, hk1⟩ := h.storeLeaf (e := 0) hl hi0 fun h0 => absurd rfl h0
  rw [hpath] at h1
  rw [vmUnmap_of_leaf h hc hal hm hl hz]
  dsimp only
  split
  next hused =>
    -- the lowest table still holds a leaf
    refine ⟨t.setLeaf (vpn address) 0, ⟨h1, hk1, rfl, ⟨rfl, rfl, id, id⟩, rfl⟩,
      fun htight => ?_, by simp [hz]⟩
    refine htight.eraseLeaf ?_
    by_contra hnone
    have hall : ∀ k < 512, (t.setLeaf (vpn address) 0).leaf (512 * (vpn address / 512) + k) =
        0 := by
      simpa using hnone
    rw [(h1.rep.tableEmpty_low hl).mpr hall] at hused
    cases hused
  next hempty =>
  have hall := (h1.rep.tableEmpty_low hl).mp (by simpa using hempty)
  obtain ⟨h2, hk2, hs2⟩ := h1.unlinkLow hm hl hall
  have hle2 := Radix.le_setLow_none (t.setLeaf (vpn address) 0) (vpn address / 512)
  split
  next hused =>
    refine ⟨t.dropLow (vpn address), ⟨h2, hk1.trans hk2, hs2, ⟨rfl, rfl, id, hle2.low⟩, rfl⟩,
      fun htight => ?_, by simp [hz]⟩
    refine htight.dropLow ?_
    by_contra hnone
    have hnil : ∀ j < 512, (t.dropLow (vpn address)).low (512 * (vpn address / 512 / 512) + j) =
        none := by
      intro j hj
      rw [Option.eq_none_iff_forall_ne_some]
      exact fun x hx => hnone ⟨j, hj, x, hx⟩
    rw [(h2.rep.tableEmpty_mid (fun _ hp => h2.isPage hp) hm).mpr hnil] at hused
    cases hused
  next hempty' =>
  have hnil := (h2.rep.tableEmpty_mid (fun _ hp => h2.isPage hp) hm).mp (by simpa using hempty')
  obtain ⟨h3, hk3, hs3⟩ := h2.unlinkMid hm hnil
  have hle3 := Radix.le_setMid_none (t.dropLow (vpn address)) (vpn address / 512 / 512)
  exact ⟨(t.dropLow (vpn address)).setMid (vpn address / 512 / 512) none,
    ⟨h3, (hk1.trans hk2).trans hk3, hs3.trans hs2, ⟨rfl, rfl, hle3.mid, hle2.low⟩, rfl⟩,
    fun htight => htight.dropMid, by simp [hz]⟩

end Unmap

/-! ## Pruning -/

theorem Shrunk.refl (h : Tabled P m t shared rest) : Shrunk P m m t t shared rest t.leaf :=
  ⟨h, Keeps.refl rest m, rfl, Radix.Le.refl t, rfl⟩

theorem Shrunk.trans {m1 m2 : Machine} {t1 t2 : Radix} {leaf leaf' : Nat → Nat}
    (h : Shrunk P m m1 t t1 shared rest leaf) (h' : Shrunk P m1 m2 t1 t2 shared rest leaf') :
    Shrunk P m m2 t t2 shared rest leaf' :=
  ⟨h'.tabled, h.keeps.trans h'.keeps, h'.slabs.trans h.slabs, h'.le.trans h.le, h'.leaf_eq⟩

/-- `t'` is `t` after the sweep of the first `n` slots of middle table `i`. -/
structure Swept (i n : Nat) (t t' : Radix) : Prop where
  mid : t'.mid = t.mid
  other : ∀ j, j / 512 ≠ i → t'.low j = t.low j
  used : ∀ j < n, ∀ p, t'.low (512 * i + j) = some p → ∃ k < 512,
    t.leaf (512 * (512 * i + j) + k) ≠ 0

/-- `prune_level` at level 1 frees the empty tables under a middle table and
tells whether none is left. -/
theorem pruneLevel_one (h : Tabled P m t shared rest) {i q : Nat} (hm : t.mid i = some q) :
    ∃ t', Shrunk P m (pruneLevel 1 q m).2 t t' shared rest t.leaf ∧ Swept i 512 t t' ∧
      ((pruneLevel 1 q m).1 = true ↔ ∀ j < 512, t'.low (512 * i + j) = none) := by
  rw [pruneLevel]
  have hloop := forRange_invariant (σ := Machine)
    (I := fun n m' => ∃ t', Shrunk P m m' t t' shared rest t.leaf ∧ Swept i n t t')
    (f := pruneSlot (pruneLevel 0) q) (s := m) 512
    ⟨t, Shrunk.refl h, rfl, fun _ _ => rfl, fun j hj => absurd hj (Nat.not_lt_zero j)⟩
    (by
      intro j m' hj hI
      obtain ⟨t', hs, hsw⟩ := hI
      have hm' : t'.mid i = some q := by rw [hsw.mid, hm]
      have hdiv : (512 * i + j) / 512 = i := by omega
      have hmod : (512 * i + j) % 512 = j := by omega
      -- the slots before this one are done; what is left to say is about slot `j`
      have hnext : ∀ {n t''}, Swept i n t t'' → (∀ p, t''.low (512 * i + n) = some p →
          ∃ k < 512, t.leaf (512 * (512 * i + n) + k) ≠ 0) → Swept i (n + 1) t t'' := by
        intro n t'' hsw' hslot
        refine ⟨hsw'.mid, hsw'.other, ?_⟩
        intro j' hj' p hp
        rcases Nat.lt_succ_iff_lt_or_eq.mp hj' with hlt | heq
        · exact hsw'.used j' hlt p hp
        · rw [heq] at hp ⊢
          exact hslot p hp
      unfold pruneSlot
      dsimp only
      rw [isTable_entry_mid hs.tabled hm' hj]
      cases hl : t'.low (512 * i + j) with
      | none =>
        refine ⟨t', hs, hnext hsw ?_⟩
        intro p hp
        rw [hl] at hp
        cases hp
      | some p =>
        have hptr := physical_entry_mid hs.tabled hm' hj hl
        simp only [Option.isSome_some, if_true, hptr, pruneLevel]
        cases he : tableEmpty m'.mem p with
        | false =>
          refine ⟨t', hs, hnext hsw ?_⟩
          intro p' _
          by_contra hnone
          have hall : ∀ k < 512, t'.leaf (512 * (512 * i + j) + k) = 0 := by
            intro k hk
            rw [hs.leaf_eq]
            by_contra hne
            exact hnone ⟨k, hk, hne⟩
          rw [(hs.tabled.rep.tableEmpty_low hl).mpr hall] at he
          cases he
        | true =>
          have hall := (hs.tabled.rep.tableEmpty_low hl).mp he
          obtain ⟨h2, hk2, hs2⟩ := hs.tabled.unlinkLow (by rw [hdiv]; exact hm') hl hall
          rw [hmod] at h2 hk2 hs2
          have hle := Radix.le_setLow_none t' (512 * i + j)
          refine ⟨_, hs.trans ⟨h2, hk2, hs2, hle, hs.leaf_eq⟩, hnext ⟨hsw.mid, ?_, ?_⟩ ?_⟩
          · intro x hx
            have hne : x ≠ 512 * i + j := fun hxe => hx (hxe ▸ hdiv)
            simp [Radix.setLow, Function.update_of_ne hne, hsw.other x hx]
          · exact fun j' hj' p' hp' => hsw.used j' hj' p' (hle.low hp')
          · intro p' hp'
            simp [Radix.setLow] at hp')
  -- from here on the loop's final state is just some state
  dsimp only
  generalize forRange 512 (pruneSlot (pruneLevel 0) q) m = m' at hloop
  obtain ⟨t', hs, hsw⟩ := hloop
  have hm' : t'.mid i = some q := by rw [hsw.mid, hm]
  exact ⟨t', hs, hsw, hs.tabled.rep.tableEmpty_mid (fun _ hp => hs.tabled.isPage hp) hm'⟩

/-- The part of a table under the first `n` root slots is tight. -/
structure TightBelow (n : Nat) (t : Radix) : Prop where
  mid_used : ∀ i < n, ∀ p, t.mid i = some p → ∃ j < 512, ∃ q, t.low (512 * i + j) = some q
  low_used : ∀ j, j / 512 < n → ∀ p, t.low j = some p → ∃ k < 512, t.leaf (512 * j + k) ≠ 0

/-- **`vm_prune_user`** makes the table tight and keeps its leaves. -/
theorem vmPruneUser_spec (h : Tabled P m t shared rest) (hw : t.width = 256) :
    ∃ t', Shrunk P m (vmPruneUser t.root m) t t' shared rest t.leaf ∧ t'.Tight := by
  by_cases hroot : t.root = 0
  · have hnil : ∀ {i p}, t.mid i = some p → False := fun hi => h.rep.wf.root_ne hi hroot
    rw [vmPruneUser, if_pos hroot]
    refine ⟨t, Shrunk.refl h, fun hi => (hnil hi).elim, ?_⟩
    intro j p hj
    obtain ⟨q, hq⟩ := h.rep.wf.low_parent hj
    exact (hnil hq).elim
  rw [vmPruneUser, if_neg hroot]
  have hloop := forRange_invariant (σ := Machine)
    (I := fun n m' => ∃ t', Shrunk P m m' t t' shared rest t.leaf ∧ TightBelow n t')
    (f := pruneSlot (pruneLevel 1) t.root) (s := m) 256
    ⟨t, Shrunk.refl h, fun i hi => absurd hi (Nat.not_lt_zero i),
      fun j hj => absurd hj (Nat.not_lt_zero _)⟩
    (by
      intro i m' hi hI
      obtain ⟨t', hs, htb⟩ := hI
      have hr' : t'.root = t.root := hs.le.root
      have hroot' : t'.root ≠ 0 := by rw [hr']; exact hroot
      have hi' : i < t'.width := by rw [hs.le.width, hw]; exact hi
      unfold pruneSlot
      dsimp only
      rw [← hr', isTable_entry_root hs.tabled hroot' hi']
      cases hm : t'.mid i with
      | none =>
        refine ⟨t', hs, ?_, ?_⟩
        · intro x hx p hp
          rcases Nat.lt_succ_iff_lt_or_eq.mp hx with hlt | heq
          · exact htb.mid_used x hlt p hp
          · rw [heq, hm] at hp
            cases hp
        intro j hj p hp
        rcases Nat.lt_succ_iff_lt_or_eq.mp hj with hlt | heq
        · exact htb.low_used j hlt p hp
        obtain ⟨q, hq⟩ := hs.tabled.rep.wf.low_parent hp
        rw [heq, hm] at hq
        cases hq
      | some q =>
        rw [physical_entry_root hs.tabled hroot' hm]
        obtain ⟨t2, hs2, hsw, hempty⟩ := pruneLevel_one hs.tabled hm
        rw [hs.leaf_eq] at hs2
        have hm2 : t2.mid i = some q := by rw [hsw.mid, hm]
        have hlow2 : ∀ j, j / 512 < i + 1 → ∀ p, t2.low j = some p →
            ∃ k < 512, t2.leaf (512 * j + k) ≠ 0 := by
          intro j hj p hp
          rw [hs2.leaf_eq]
          rcases Nat.lt_succ_iff_lt_or_eq.mp hj with hlt | heq
          · rw [hsw.other j (by omega)] at hp
            obtain ⟨k, hk, hne⟩ := htb.low_used j hlt p hp
            exact ⟨k, hk, by rw [← hs.leaf_eq]; exact hne⟩
          have hj' : 512 * i + j % 512 = j := by omega
          rw [← hj'] at hp ⊢
          have := hsw.used (j % 512) (Nat.mod_lt _ (by decide)) p hp
          rwa [hs.leaf_eq] at this
        have hmid2 : ∀ x < i, ∀ p, t2.mid x = some p →
            ∃ j < 512, ∃ r, t2.low (512 * x + j) = some r := by
          intro x hx p hp
          rw [hsw.mid] at hp
          obtain ⟨j, hj, r, hr⟩ := htb.mid_used x hx p hp
          exact ⟨j, hj, r, by rw [hsw.other _ (by omega)]; exact hr⟩
        obtain ⟨b, m2, heq⟩ : ∃ b m2, pruneLevel 1 q m' = (b, m2) := ⟨_, _, rfl⟩
        rw [heq] at hs2 hempty
        simp only [Option.isSome_some, if_true, heq]
        cases b with
        | false =>
          refine ⟨t2, hs.trans hs2, ?_, hlow2⟩
          intro x hx p hp
          rcases Nat.lt_succ_iff_lt_or_eq.mp hx with hlt | hxi
          · exact hmid2 x hlt p hp
          by_contra hnone
          have hall : ∀ j < 512, t2.low (512 * i + j) = none := by
            intro j hj
            cases hx' : t2.low (512 * i + j) with
            | none => rfl
            | some r => exact absurd ⟨j, hj, r, by rw [hxi]; exact hx'⟩ hnone
          cases hempty.mpr hall
        | true =>
          obtain ⟨h3, hk3, hs3⟩ := hs2.tabled.unlinkMid hm2 (hempty.mp rfl)
          have hr2 : t2.root = t'.root := hs2.le.root
          have hle := Radix.le_setMid_none t2 i
          rw [hr2] at h3 hk3 hs3
          refine ⟨_, (hs.trans hs2).trans ⟨h3, hk3, hs3, hle, hs2.leaf_eq⟩, ?_, hlow2⟩
          intro x hx p hp
          have hxi : x ≠ i := by
            intro hxi
            simp [Radix.setMid, hxi] at hp
          exact hmid2 x (by omega) p (hle.mid hp))
  obtain ⟨t', hs, htb⟩ := hloop
  refine ⟨t', hs, ?_, ?_⟩
  · intro i p hp
    have := hs.tabled.rep.wf.mid_lt hp
    rw [hs.le.width, hw] at this
    exact htb.mid_used i this p hp
  · intro j p hp
    have := hs.tabled.rep.wf.low_lt hp
    rw [hs.le.width, hw] at this
    exact htb.low_used j (by omega) p hp

/-- **An aborted insertion is undone by pruning**: the table is again the one
before the call. -/
theorem vmPruneUser_of_grows {m1 : Machine} {t1 : Radix} {v : Nat}
    (h1 : Tabled P m1 t1 shared rest) (ht : t.WF) (htight : t.Tight) (hw : t.width = 256)
    (hg : Radix.GrowsAt v t t1) :
    Tabled P (vmPruneUser t.root m1) t shared rest ∧ Keeps rest m1 (vmPruneUser t.root m1) ∧
      (vmPruneUser t.root m1).slabs = m1.slabs := by
  obtain ⟨t', hs, htight'⟩ := vmPruneUser_spec h1 (hg.le.width ▸ hw)
  have heq : t' = t := hg.eq_of_tight ht hs.tabled.rep.wf htight htight' hs.le hs.leaf_eq
  rw [← hg.le.root, heq] at hs
  exact ⟨hs.tabled, hs.keeps, hs.slabs⟩

/-! ## Destroying and creating -/

/-- Pages went back to the allocator and `rest` is what is still out. -/
structure Released (P : PagePool) (m m' : Machine) (rest : Multiset Nat) : Prop where
  stock : Stocked P m' rest
  mem : m'.mem = m.mem
  slabs : m'.slabs = m.slabs
  keeps : Keeps rest m m'

theorem Released.refl (h : Stocked P m rest) : Released P m m rest :=
  ⟨h, rfl, rfl, Keeps.refl rest m⟩

theorem Released.trans {m1 m2 : Machine} {rest' : Multiset Nat} (h : Released P m m1 rest')
    (h' : Released P m1 m2 rest) (hle : rest ≤ rest') : Released P m m2 rest :=
  ⟨h'.stock, h'.mem.trans h.mem, h'.slabs.trans h.slabs, (h.keeps.mono hle).trans h'.keeps⟩

theorem pageFree_released {p : Nat} (hst : Stocked P m (p ::ₘ rest)) :
    Released P m (pageFree p m) rest := by
  obtain ⟨hst', hmem, hslabs, hkeep⟩ := pageFree_spec hst
  exact ⟨hst', hmem, hslabs, hkeep⟩

/-- A loop whose rounds each release a share releases all the shares. -/
theorem Released.forRange {share : Nat → Multiset Nat} {f : Nat → Machine → Machine} (n : Nat)
    (hbody : ∀ i < n, ∀ m' rest', m'.mem = m.mem → Stocked P m' (share i + rest') →
      Released P m' (f i m') rest') (hst : Stocked P m (∑ i ∈ Finset.range n, share i + rest)) :
    Released P m (forRange n f m) rest := by
  have hloop := forRange_invariant (f := f) (s := m)
    (I := fun k m' => Released P m m' (∑ i ∈ Finset.Ico k n, share i + rest)) n
    (Released.refl (by rwa [← Finset.range_eq_Ico]))
    (by
      intro i m' hi hI
      rw [Finset.sum_eq_sum_Ico_succ_bot hi, add_assoc] at hI
      exact hI.trans (hbody i hi m' _ hI.mem hI.stock) (Multiset.le_add_left _ _))
  rwa [Finset.Ico_self, Finset.sum_empty, zero_add] at hloop

/-- `destroy_level` at level 1 releases a whole branch. -/
theorem destroyLevel_one {mem : Memory} (hrep : Rep mem t shared) (hpl : Placed t)
    (hmem : m.mem = mem) {i q : Nat} (hm : t.mid i = some q)
    (hst : Stocked P m (t.branch i + rest)) : Released P m (destroyLevel 1 q m) rest := by
  rw [Radix.branch, hm, bag_some, add_assoc, add_left_comm, singleton_add] at hst
  have hloop : Released P m (Lib.forRange 512 (destroySlot (destroyLevel 0) q) m) (q ::ₘ rest) := by
    refine Released.forRange 512 ?_ hst
    intro j hj m' rest' hmem' hst'
    have hentry := hrep.mid_entry hm j hj
    rw [← hmem, ← hmem'] at hentry
    unfold destroySlot
    cases hl : t.low (512 * i + j) with
    | none =>
      rw [hl, bag_none, zero_add] at hst'
      rw [hl, tableWord] at hentry
      simp only [hentry]
      exact Released.refl hst'
    | some p =>
      rw [hl, bag_some, singleton_add] at hst'
      have hp := hpl.isPage p (hrep.mem_low hl)
      rw [hl, tableWord] at hentry
      simp only [hentry, isTable_makeTablePte hp, if_true, ptePhysical_makeTablePte hp]
      exact pageFree_released hst'
  rw [destroyLevel]
  exact hloop.trans (pageFree_released hloop.stock) (le_cons_self _ _)

section

variable (h : Tabled P m t shared rest)

include h

/-- Freeing what hangs under the root's own slots, and the root. -/
theorem destroyRoot (hroot : t.root ≠ 0) : Released P m (pageFree t.root
      (Lib.forRange t.width (destroySlot (destroyLevel 1) t.root) m)) rest := by
  have hst := h.stock
  rw [Radix.frames_eq_branches, Radix.rootPage, if_neg hroot, bag_some, add_assoc, add_left_comm,
    singleton_add] at hst
  have hloop : Released P m (Lib.forRange t.width (destroySlot (destroyLevel 1) t.root) m)
      (t.root ::ₘ rest) := by
    refine Released.forRange t.width ?_ hst
    intro i hi m' rest' hmem' hst'
    have hentry := h.rep.root_entry hroot i hi
    rw [← hmem'] at hentry
    unfold destroySlot
    cases hm : t.mid i with
    | none =>
      rw [Radix.branch_of_mid_none h.rep.wf hm, zero_add] at hst'
      rw [hm, tableWord] at hentry
      simp only [hentry]
      exact Released.refl hst'
    | some q =>
      have hq := h.isPage (h.rep.mem_mid hm)
      rw [hm, tableWord] at hentry
      simp only [hentry, isTable_makeTablePte hq, if_true, ptePhysical_makeTablePte hq]
      exact destroyLevel_one h.rep h.placed hmem' hm hst'
  exact hloop.trans (pageFree_released hloop.stock) (le_cons_self _ _)

/-- Without a root there are no pages to give back. -/
theorem released_of_root_zero (hroot : t.root = 0) : Released P m m rest := by
  have hst := h.stock
  rw [Radix.frames_of_root_zero h.rep.wf hroot, zero_add] at hst
  exact Released.refl hst

/-- **`vm_destroy_user`** gives every page of the table back. -/
theorem vmDestroyUser_spec (hw : t.width = 256) : Released P m (vmDestroyUser t.root m) rest := by
  by_cases hroot : t.root = 0
  · rw [vmDestroyUser, if_pos hroot]
    exact released_of_root_zero h hroot
  · rw [vmDestroyUser, if_neg hroot, ← hw]
    exact destroyRoot h hroot

/-- **`vm_destroy`** does so for a table that owns its whole root. -/
theorem vmDestroy_spec (hw : t.width = 512) : Released P m (vmDestroy t.root m) rest := by
  by_cases hroot : t.root = 0
  · rw [vmDestroy, if_pos hroot]
    exact released_of_root_zero h hroot
  · rw [vmDestroy, if_neg hroot, destroyLevel, ← hw]
    exact destroyRoot h hroot

end

/-- **`vm_create`** makes an empty table, or fails without a trace. -/
theorem vmCreate_spec (h : Stocked P m rest) : ((vmCreate m).1 = 0 ∧ m.Same (vmCreate m).2) ∨
    (Tabled P (vmCreate m).2 (Radix.bare (vmCreate m).1 512) (fun _ => 0) rest ∧
      (vmCreate m).1 ≠ 0 ∧
      Keeps rest m (vmCreate m).2 ∧ (vmCreate m).2.slabs = m.slabs) := by
  obtain ⟨root, m1, heq⟩ : ∃ root m1, pageAlloc m = (root, m1) := ⟨_, _, rfl⟩
  have hspec := pageAlloc_spec h
  rw [heq] at hspec
  rcases hspec with ⟨rfl, hsame⟩ | ⟨hroot, hst, hmem, hslabs, hfrees⟩
  · left
    simpa [vmCreate, heq] using hsame
  right
  have hne : root ≠ 0 := hroot.ne_zero
  have hmem' : m1.mem = m.mem := hmem
  have hfresh : root ∉ rest := (Multiset.nodup_cons.mp hst.nodup_rest).1
  have hrun : vmCreate m = (root, m1.clear root) := by simp [vmCreate, heq]
  rw [hrun]
  refine ⟨⟨?_, Radix.wf_bare root 512, by simp [Radix.bare], ?_, ?_, ?_, ?_, ?_⟩, hne, ?_, hslabs⟩
  · rw [Radix.frames_bare hne, singleton_add]
    exact hst.congr rfl rfl rfl
  · exact fun _ i hi => entry_clearPage_self hi
  · exact fun _ i hw hi => absurd hi (Nat.not_lt.mpr hw)
  · exact fun hm => by cases hm
  · exact fun hl => by cases hl
  · exact fun hv => absurd rfl hv
  · refine Keeps.of_bytes (fun q hq => ?_) hfrees
    have hqr : q ≠ root := fun hqr => hfresh (hqr ▸ hq)
    show Set.EqOn (clearPage m1.mem root) m.mem (pageBytes q)
    rw [hmem']
    exact eqOn_clearPage hroot (h.isPage_of_mem hq) hqr

/-- The words of a root made by `vm_create_user`. -/
theorem entry_userRoot {mem : Memory} {root kernelRoot i : Nat} (hr : IsPage root)
    (hk : IsPage kernelRoot) (hne : kernelRoot ≠ root) (hi : i < 512) :
    entry (fill (clearPage mem root) (root + 256 * 8) (256 * 8) fun j =>
        clearPage mem root (kernelRoot + 256 * 8 + j)) root i =
      if i < 256 then 0 else entry mem kernelRoot i := by
  by_cases hlow : i < 256
  · rw [if_pos hlow, ← entry_clearPage_self (p := root) hi]
    exact loadLE_fill_of_disjoint (by omega)
  rw [if_neg hlow]
  apply loadLE_congr
  intro k hk8
  have hoff : root + 8 * i + k = root + 256 * 8 + (8 * (i - 256) + k) := by omega
  have hkoff : kernelRoot + 256 * 8 + (8 * (i - 256) + k) = kernelRoot + 8 * i + k := by omega
  rw [hoff, fill_of_mem (by omega), hkoff]
  refine eqOn_clearPage hr hk hne ?_
  constructor <;> omega

/-- **`vm_create_user`** makes an empty private half under a copy of the kernel's
upper half, or fails without a trace. -/
theorem vmCreateUser_spec (h : Stocked P m rest) {kernelRoot : Nat} (hk : kernelRoot ∈ rest) :
    ((vmCreateUser kernelRoot m).1 = 0 ∧ m.Same (vmCreateUser kernelRoot m).2) ∨
    (Tabled P (vmCreateUser kernelRoot m).2 (Radix.bare (vmCreateUser kernelRoot m).1 256)
        (fun i => entry m.mem kernelRoot i) rest ∧ (vmCreateUser kernelRoot m).1 ≠ 0 ∧
      Keeps rest m (vmCreateUser kernelRoot m).2 ∧
      (vmCreateUser kernelRoot m).2.slabs = m.slabs) := by
  have hkp := h.isPage_of_mem hk
  obtain ⟨root, m1, heq⟩ : ∃ root m1, pageAlloc m = (root, m1) := ⟨_, _, rfl⟩
  have hspec := pageAlloc_spec h
  rw [heq] at hspec
  rcases hspec with ⟨h0, hsame⟩ | ⟨hroot, hst, hmem, hslabs, hfrees⟩
  · left
    have h0' : root = 0 := h0
    subst h0'
    simpa [vmCreateUser, vmCreate, hkp.ne_zero, heq] using hsame
  right
  have hne : root ≠ 0 := hroot.ne_zero
  have hfresh : root ∉ rest := (Multiset.nodup_cons.mp hst.nodup_rest).1
  have hkr : kernelRoot ≠ root := fun hkr => hfresh (hkr ▸ hk)
  have hrun : vmCreateUser kernelRoot m = (root, { m1 with
      mem := fill (clearPage m.mem root) (root + 256 * 8) (256 * 8) fun j =>
        clearPage m.mem root (kernelRoot + 256 * 8 + j) }) := by
    have hmem' : m1.mem = m.mem := hmem
    simp [vmCreateUser, vmCreate, hkp.ne_zero, heq, Machine.clear, hmem']
  rw [hrun]
  refine ⟨⟨?_, Radix.wf_bare root 256, by simp [Radix.bare], ?_, ?_, ?_, ?_, ?_⟩, hne, ?_, hslabs⟩
  · rw [Radix.frames_bare hne, singleton_add]
    exact hst.congr rfl rfl rfl
  · intro _ i hi
    have hi' : i < 256 := hi
    show entry _ root i = 0
    rw [entry_userRoot hroot hkp hkr (by omega), if_pos hi']
  · intro _ i hw hi
    have hw' : 256 ≤ i := hw
    show entry _ root i = _
    rw [entry_userRoot hroot hkp hkr hi, if_neg (by omega)]
  · exact fun hm => by cases hm
  · exact fun hl => by cases hl
  · exact fun hv => absurd rfl hv
  · refine Keeps.of_bytes (fun q hq => ?_) hfrees
    have hqr : q ≠ root := fun hqr => hfresh (hqr ▸ hq)
    have hqp := h.isPage_of_mem hq
    have hcopy : Set.EqOn (fill (clearPage m.mem root) (root + 256 * 8) (256 * 8) fun j =>
        clearPage m.mem root (kernelRoot + 256 * 8 + j)) (clearPage m.mem root) (pageBytes q) :=
      eqOn_fill_page hroot hqp hqr (by omega) (by omega)
    exact hcopy.trans (eqOn_clearPage hroot hqp hqr)

end MiniCore
