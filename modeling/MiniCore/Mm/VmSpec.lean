import MiniCore.Mm.PageTable

/-!
# MiniCore.Mm.VmSpec

One lemma per function of `MiniCore.Mm.Vm`, over the tables of
`MiniCore.Mm.PageTable`.

`walk` with `create` grows the table along one path and may stop half way
(`walk_create`); without it, it reads (`walk_read`).  On top of the walk,
`vmMap` inserts a leaf or leaves some of its path behind, and `vmQuery` reads a
leaf.  The routines that give table pages back are in `MiniCore.Mm.VmReclaim`.
-/

namespace MiniCore

open Lib

variable {P : PagePool} {m : Machine} {t : Radix} {shared : Nat → Nat} {rest : Multiset Nat}

/-! ## Virtual page numbers -/

/-- The 27-bit page number that selects a leaf slot. -/
def vpn (address : Nat) : Nat := address / 4096 % 2 ^ 27

theorem vpnIndex_eq (address level : Nat) :
    vpnIndex address level = address / 2 ^ (12 + level * 9) % 512 := by
  rw [vpnIndex, Nat.shiftRight_eq_div_pow, show (0x1ff : Nat) = 2 ^ 9 - 1 by rfl,
    Nat.and_two_pow_sub_one_eq_mod]

theorem vpnIndex_two (address : Nat) : vpnIndex address 2 = vpn address / 512 / 512 := by
  rw [vpnIndex_eq, vpn]
  omega

theorem vpnIndex_one (address : Nat) : vpnIndex address 1 = vpn address / 512 % 512 := by
  rw [vpnIndex_eq, vpn]
  omega

theorem vpnIndex_zero (address : Nat) : vpnIndex address 0 = vpn address % 512 := by
  rw [vpnIndex_eq, vpn]
  omega

theorem canonical_of_lt {address : Nat} (h : address < 2 ^ 38) : canonical address = true := by
  have hz : address >>> 39 = 0 := by
    rw [Nat.shiftRight_eq_div_pow]
    omega
  simp [canonical, hz]

theorem vpn_of_lt {address : Nat} (h : address < 2 ^ 38) : vpn address = address / 4096 := by
  unfold vpn
  omega

/-! ## Walking -/

section Walk

theorem isTable_iff {pte : Nat} :
    isTable pte = true ↔ pte &&& pteV ≠ 0 ∧ pte &&& (pteR ||| pteW ||| pteX) = 0 := by
  simp [isTable]

/-- What is left of a walk that made it to `some` table or stopped: the table
has grown along the path to `v`, everybody else's pages and the heap are as they
were. -/
structure Grown (P : PagePool) (m m' : Machine) (t t' : Radix) (shared : Nat → Nat)
    (rest : Multiset Nat) (v : Nat) : Prop where
  tabled : Tabled P m' t' shared rest
  keeps : Keeps rest m m'
  slabs : m'.slabs = m.slabs
  grows : Radix.GrowsAt v t t'

variable (h : Tabled P m t shared rest)

include h

theorem Grown.refl (v : Nat) : Grown P m m t t shared rest v :=
  ⟨h, Keeps.refl rest m, rfl, Radix.GrowsAt.refl v t⟩

omit h in
theorem Grown.trans {m' m'' : Machine} {t' t'' : Radix} {v : Nat}
    (h : Grown P m m' t t' shared rest v) (h' : Grown P m' m'' t' t'' shared rest v) :
    Grown P m m'' t t'' shared rest v := by
  refine ⟨h'.tabled, h.keeps.trans h'.keeps, h'.slabs.trans h.slabs, ?_⟩
  refine ⟨h.grows.le.trans h'.grows.le, h'.grows.leaf.trans h.grows.leaf, ?_, ?_⟩
  · intro i p hp
    rcases h'.grows.mid_new hp with hp | hi
    · exact h.grows.mid_new hp
    · exact .inr hi
  · intro j p hp
    rcases h'.grows.low_new hp with hp | hj
    · exact h.grows.low_new hp
    · exact .inr hj

theorem Grown.of_same {m' : Machine} (hs : m.Same m') (v : Nat) :
    Grown P m m' t t shared rest v := by
  refine ⟨⟨h.stock.of_same hs, ?_⟩, Keeps.of_same hs, hs.slabs, Radix.GrowsAt.refl v t⟩
  rw [hs.mem]
  exact h.rep

omit h in
/-- A round follows the pointer in its slot. -/
theorem walkStep_some (create : Bool) {x i q : Nat} (hentry : entry m.mem x i = tableWord (some q))
    (hq : IsPage q) : walkStep create x i m = (some q, m) := by
  obtain ⟨hvalid, hptr⟩ := isTable_iff.mp (isTable_makeTablePte hq)
  simp [walkStep, hentry, tableWord, hvalid, hptr, ptePhysical_makeTablePte hq]

omit h in
/-- A creating round follows the pointer in its slot, fails, or links a page. -/
theorem walkStep_true {x i : Nat} {o : Option Nat} (hst : Stocked P m rest)
    (hentry : entry m.mem x i = tableWord o) (ho : ∀ p, o = some p → IsPage p) :
    (∃ q, o = some q ∧ walkStep true x i m = (some q, m)) ∨
    o = none ∧ ((∃ m', m.Same m' ∧ walkStep true x i m = (none, m')) ∨
      ∃ page m', Stocked P m' (page ::ₘ rest) ∧ m'.mem = m.mem ∧ m'.slabs = m.slabs ∧
        m'.frees = m.frees ∧
        walkStep true x i m = (some page, (m'.clear page).store x i (makeTablePte page))) := by
  cases o with
  | some q => exact .inl ⟨q, rfl, walkStep_some true hentry (ho q rfl)⟩
  | none =>
    refine .inr ⟨rfl, ?_⟩
    obtain ⟨page, m', heq⟩ : ∃ page m', pageAlloc m = (page, m') := ⟨_, _, rfl⟩
    have hspec := pageAlloc_spec hst
    rw [heq] at hspec
    rcases hspec with ⟨rfl, hsame⟩ | ⟨hpage, hst', hmem, hslabs, hfrees⟩
    · exact .inl ⟨m', hsame, by simp [walkStep, hentry, tableWord, heq]⟩
    obtain ⟨n, rfl⟩ := Nat.exists_eq_succ_of_ne_zero hpage.ne_zero
    refine .inr ⟨n + 1, m', hst', hmem, hslabs, hfrees, ?_⟩
    simp [walkStep, hentry, tableWord, heq, entry_setEntry_self (makeTablePte_lt hpage),
      ptePhysical_makeTablePte hpage]

/-- The top round of a creating walk. -/
theorem walkStep_root (hroot : t.root ≠ 0) {v : Nat} (hv : v / 512 / 512 < t.width) :
    ∃ t', Grown P m (walkStep true t.root (v / 512 / 512) m).2 t t' shared rest v ∧
      t'.root = t.root ∧
      ∀ q, (walkStep true t.root (v / 512 / 512) m).1 = some q →
      t'.mid (v / 512 / 512) = some q := by
  rcases walkStep_true h.stock (h.rep.root_entry hroot _ hv) fun p hp => h.isPage
    (h.rep.mem_mid hp) with
    ⟨q, hm, heq⟩ | ⟨hm, ⟨m', hsame, heq⟩ | ⟨page, m', hst, hmem, hslabs, hfrees, heq⟩⟩
  all_goals rw [heq]
  · exact ⟨t, Grown.refl h v, rfl, fun r hr => hr ▸ hm⟩
  · exact ⟨t, Grown.of_same h hsame v, rfl, fun r hr => by cases hr⟩
  obtain ⟨htab, hkeep⟩ := h.linkMid hroot hv hm hst hmem hfrees
  refine ⟨_,
    ⟨htab, hkeep, hslabs, ⟨⟨rfl, rfl, fun {i p} hp => ?_, id⟩, rfl, fun {i p} hp => ?_, .inl⟩⟩, rfl,
    fun r hr => ?_⟩
  · have hne : i ≠ v / 512 / 512 := by
      intro hi
      rw [hi, hm] at hp
      cases hp
    simpa [Radix.setMid, Function.update_of_ne hne] using hp
  · by_cases hi : i = v / 512 / 512
    · exact .inr hi
    · exact .inl (by simpa [Radix.setMid, Function.update_of_ne hi] using hp)
  · cases hr
    simp [Radix.setMid]

/-- The second round of a creating walk. -/
theorem walkStep_mid {v q : Nat} (hq : t.mid (v / 512 / 512) = some q) :
    ∃ t', Grown P m (walkStep true q (v / 512 % 512) m).2 t t' shared rest v ∧
      ∀ p, (walkStep true q (v / 512 % 512) m).1 = some p → t'.low (v / 512) = some p := by
  have hentry := h.rep.mid_entry hq (v / 512 % 512) (Nat.mod_lt _ (by decide))
  rw [Nat.div_add_mod] at hentry
  rcases walkStep_true h.stock hentry fun p hp => h.isPage (h.rep.mem_low hp) with
    ⟨p, hl, heq⟩ | ⟨hl, ⟨m', hsame, heq⟩ | ⟨page, m', hst, hmem, hslabs, hfrees, heq⟩⟩
  all_goals rw [heq]
  · exact ⟨t, Grown.refl h v, fun r hr => hr ▸ hl⟩
  · exact ⟨t, Grown.of_same h hsame v, fun r hr => by cases hr⟩
  obtain ⟨htab, hkeep⟩ := h.linkLow hq hl hst hmem hfrees
  refine ⟨_,
    ⟨htab, hkeep, hslabs, ⟨⟨rfl, rfl, id, fun {j p} hp => ?_⟩, rfl, .inl, fun {j p} hp => ?_⟩⟩,
    fun r hr => ?_⟩
  · have hne : j ≠ v / 512 := by
      intro hj
      rw [hj, hl] at hp
      cases hp
    simpa [Radix.setLow, Function.update_of_ne hne] using hp
  · by_cases hj : j = v / 512
    · exact .inr hj
    · exact .inl (by simpa [Radix.setLow, Function.update_of_ne hj] using hp)
  · cases hr
    simp [Radix.setLow]

/-- **A creating walk** grows the table along its path; if it gets to the end,
the slot it returns is the leaf slot of the address. -/
theorem walk_create {address : Nat} (hv : vpn address / 512 / 512 < t.width) :
    ∃ t', Grown P m (walk true t.root address m).2 t t' shared rest (vpn address) ∧
      ∀ p i, (walk true t.root address m).1 = some (p, i) →
        t'.low (vpn address / 512) = some p ∧ i = vpn address % 512 := by
  by_cases hbad : t.root = 0 ∨ canonical address = false
  · refine ⟨t, ?_, ?_⟩
    · simp only [walk, hbad, if_true]
      exact Grown.refl h _
    · intro p i hw
      simp [walk, hbad] at hw
  have hroot : t.root ≠ 0 := fun hr => hbad (.inl hr)
  obtain ⟨t1, hg1, hroot1, hres1⟩ := walkStep_root h hroot hv
  have hwalk : walk true t.root address m = walkFrom true address 2 t.root m := by
    simp [walk, hbad]
  rw [hwalk, walkFrom, vpnIndex_two]
  obtain ⟨r1, m1, heq1⟩ : ∃ r1 m1, walkStep true t.root (vpn address / 512 / 512) m = (r1, m1) :=
    ⟨_, _, rfl⟩
  rw [heq1] at hg1 hres1 ⊢
  cases r1 with
  | none => exact ⟨t1, hg1, fun p i hw => by simp at hw⟩
  | some q =>
    have hq := hres1 q rfl
    obtain ⟨t2, hg2, hres2⟩ := walkStep_mid hg1.tabled hq
    dsimp only
    rw [walkFrom, vpnIndex_one]
    obtain ⟨r2, m2, heq2⟩ : ∃ r2 m2, walkStep true q (vpn address / 512 % 512) m1 = (r2, m2) :=
      ⟨_, _, rfl⟩
    rw [heq2] at hg2 hres2 ⊢
    cases r2 with
    | none => exact ⟨t2, hg1.trans hg2, fun p i hw => by simp at hw⟩
    | some p =>
      refine ⟨t2, hg1.trans hg2, fun p' i hw => ?_⟩
      have hw' : some (p, vpnIndex address 0) = some (p', i) := hw
      rw [vpnIndex_zero] at hw'
      cases hw'
      exact ⟨hres2 p rfl, rfl⟩

omit h in
/-- A reading round finds what its slot points to. -/
theorem walkStep_false {x i : Nat} {o : Option Nat} (hentry : entry m.mem x i = tableWord o)
    (ho : ∀ p, o = some p → IsPage p) : walkStep false x i m = (o, m) := by
  cases o with
  | none => simp [walkStep, hentry, tableWord]
  | some q => exact walkStep_some false hentry (ho q rfl)

/-- **A reading walk** finds the leaf slot if the lowest table is there. -/
theorem walk_read {address : Nat} (hc : canonical address = true)
    (hv : vpn address / 512 / 512 < t.width) : walk false t.root address m =
      ((t.low (vpn address / 512)).map fun p => (p, vpn address % 512), m) := by
  have hnone : t.mid (vpn address / 512 / 512) = none → t.low (vpn address / 512) = none := by
    intro hm
    cases hl : t.low (vpn address / 512) with
    | none => rfl
    | some p =>
      obtain ⟨q, hq⟩ := h.rep.wf.low_parent hl
      rw [hm] at hq
      cases hq
  by_cases hroot : t.root = 0
  · have hm : t.mid (vpn address / 512 / 512) = none := by
      cases hm : t.mid (vpn address / 512 / 512) with
      | none => rfl
      | some q => exact absurd hroot (h.rep.wf.root_ne hm)
    simp [walk, hroot, hnone hm]
  have hwalk : walk false t.root address m = walkFrom false address 2 t.root m := by
    simp [walk, hroot, hc]
  have htop := walkStep_false (h.rep.root_entry hroot _ hv) fun p hp => h.isPage (h.rep.mem_mid hp)
  rw [hwalk, walkFrom, vpnIndex_two, htop]
  cases hm : t.mid (vpn address / 512 / 512) with
  | none => simp [hnone hm]
  | some q =>
    have hentry := h.rep.mid_entry hm (vpn address / 512 % 512) (Nat.mod_lt _ (by decide))
    rw [Nat.div_add_mod] at hentry
    have hstep := walkStep_false hentry fun p hp => h.isPage (h.rep.mem_low hp)
    dsimp only
    rw [walkFrom, vpnIndex_one, hstep]
    cases hl : t.low (vpn address / 512) with
    | none => rfl
    | some p =>
      dsimp only
      rw [walkFrom, vpnIndex_zero]
      rfl

end Walk

/-! ## Querying and mapping -/

section Map

theorem Rep.leaf_eq_zero {mem : Memory} (h : Rep mem t shared) {v : Nat}
    (hl : t.low (v / 512) = none) : t.leaf v = 0 := by
  by_contra hne
  obtain ⟨p, hp⟩ := h.wf.leaf_parent hne
  rw [hl] at hp
  cases hp

variable (h : Tabled P m t shared rest)

include h

/-- **`vm_query`** reports the leaf of the address. -/
theorem vmQuery_spec {address : Nat} (hc : canonical address = true)
    (hv : vpn address / 512 / 512 < t.width) : vmQuery t.root address m =
      if t.leaf (vpn address) = 0 then none
      else some (ptePhysical (t.leaf (vpn address)) ||| pageOffset address,
        t.leaf (vpn address) &&& 0x3ff) := by
  rw [vmQuery, walk_read h hc hv]
  cases hl : t.low (vpn address / 512) with
  | none => simp [h.rep.leaf_eq_zero hl]
  | some p =>
    have hentry := h.rep.low_entry hl (vpn address % 512) (Nat.mod_lt _ (by decide))
    rw [Nat.div_add_mod] at hentry
    by_cases hz : t.leaf (vpn address) = 0
    · simp [hentry, hz]
    · have hleaf := h.rep.leaf_ok hz
      simp [hentry, hz, hleaf.valid, hleaf.mapped]

/-- **`vm_map`** inserts the leaf and keeps a tight table tight, or fails and
leaves at most some tables of the path behind. -/
theorem vmMap_spec (flags : Nat) {address physical : Nat}
    (hv : vpn address / 512 / 512 < t.width) (hp : physical < 2 ^ 64) :
    ∃ t', Tabled P (vmMap t.root address physical flags m).2 t' shared rest ∧
      Keeps rest m (vmMap t.root address physical flags m).2 ∧
      (vmMap t.root address physical flags m).2.slabs = m.slabs ∧
      ((vmMap t.root address physical flags m).1 = true →
        pageOffset address = 0 ∧ pageOffset physical = 0 ∧ validLeafFlags flags = true ∧
        t.leaf (vpn address) = 0 ∧ (t.Tight → t'.Tight) ∧ Radix.Le t t' ∧
        t'.leaf = Function.update t.leaf (vpn address) (leafPte physical flags)) ∧
      ((vmMap t.root address physical flags m).1 = false → Radix.GrowsAt (vpn address) t t') := by
  by_cases hbad : pageOffset address ≠ 0 ∨ pageOffset physical ≠ 0 ∨ validLeafFlags flags = false
  · have hmap : vmMap t.root address physical flags m = (false, m) := by simp [vmMap, hbad]
    rw [hmap]
    exact ⟨t, h, Keeps.refl rest m, rfl, by simp, fun _ => Radix.GrowsAt.refl _ t⟩
  obtain ⟨hal, hphys, hvalid⟩ : pageOffset address = 0 ∧ pageOffset physical = 0 ∧
      validLeafFlags flags = true := by simpa using hbad
  obtain ⟨t1, hg, hres⟩ := walk_create h hv
  obtain ⟨r, m1, heq⟩ : ∃ r m1, walk true t.root address m = (r, m1) := ⟨_, _, rfl⟩
  rw [heq] at hg hres
  simp only [vmMap, hbad, if_false, heq]
  cases r with
  | none =>
    exact ⟨t1, hg.tabled, hg.keeps, hg.slabs, by simp, fun _ => hg.grows⟩
  | some slot =>
    obtain ⟨p, i⟩ := slot
    obtain ⟨hlow, rfl⟩ := hres p i rfl
    have hi : vpn address % 512 < 512 := Nat.mod_lt _ (by decide)
    have hentry := hg.tabled.rep.low_entry hlow _ hi
    rw [Nat.div_add_mod, hg.grows.leaf] at hentry
    dsimp only
    by_cases hused : entry m1.mem p (vpn address % 512) &&& pteV ≠ 0
    · rw [if_pos hused]
      exact ⟨t1, hg.tabled, hg.keeps, hg.slabs, by simp, fun _ => hg.grows⟩
    rw [if_neg hused]
    have hzero : t.leaf (vpn address) = 0 := by
      by_contra hne
      rw [hentry] at hused
      exact hused (h.rep.leaf_ok hne).valid
    have hleaf := isLeaf_leafPte hphys hp hvalid
    obtain ⟨htab, hkeep⟩ := hg.tabled.storeLeaf hlow hi fun _ => hleaf
    rw [Nat.div_add_mod] at htab
    refine ⟨t1.setLeaf (vpn address) (leafPte physical flags), htab, hg.keeps.trans hkeep,
      hg.slabs, fun _ => ⟨hal, hphys, hvalid, hzero, ?_, ?_, ?_⟩, by simp⟩
    · exact fun htight => hg.grows.tight_setLeaf htight hlow hleaf.ne_zero hzero
    · exact ⟨hg.grows.le.root, hg.grows.le.width, hg.grows.le.mid, hg.grows.le.low⟩
    · rw [Radix.setLeaf, hg.grows.leaf]

/-- **`vm_protect`** gives a mapped leaf other flags, or does nothing. -/
theorem vmProtect_spec (flags : Nat) {address : Nat} (hc : canonical address = true)
    (hv : vpn address / 512 / 512 < t.width) : (vmProtect t.root address flags m = (false, m)) ∨
    ∃ m', vmProtect t.root address flags m = (true, m') ∧ pageOffset address = 0 ∧
      validLeafFlags flags = true ∧ t.leaf (vpn address) ≠ 0 ∧
      Tabled P m' (t.setLeaf (vpn address) (leafPte (ptePhysical (t.leaf (vpn address))) flags))
        shared rest := by
  by_cases hbad : pageOffset address ≠ 0 ∨ validLeafFlags flags = false
  · left
    simp [vmProtect, hbad]
  obtain ⟨hal, hvalid⟩ : pageOffset address = 0 ∧ validLeafFlags flags = true := by simpa using hbad
  cases hl : t.low (vpn address / 512) with
  | none =>
    left
    simp [vmProtect, hbad, walk_read h hc hv, hl]
  | some p =>
    have hi : vpn address % 512 < 512 := Nat.mod_lt _ (by decide)
    have hentry := h.rep.low_entry hl _ hi
    rw [Nat.div_add_mod] at hentry
    by_cases hz : t.leaf (vpn address) = 0
    · left
      simp [vmProtect, hbad, walk_read h hc hv, hl, hentry, hz]
    right
    have hold := h.rep.leaf_ok hz
    refine ⟨m.store p (vpn address % 512) (leafPte (ptePhysical (t.leaf (vpn address))) flags),
      ?_, hal, hvalid, hz, ?_⟩
    · simp [vmProtect, hbad, walk_read h hc hv, hl, hentry, hold.valid, hold.mapped]
    obtain ⟨htab, -⟩ := h.storeLeaf hl hi fun _ =>
      isLeaf_leafPte (ptePhysical_aligned _) (Nat.lt_trans (ptePhysical_lt _) (by decide)) hvalid
    rwa [Nat.div_add_mod] at htab

end Map

end MiniCore
