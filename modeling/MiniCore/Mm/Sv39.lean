import MiniCore.Lib.Transition
import MiniCore.Mm.VmReclaim

/-!
# MiniCore.Mm.Sv39

A page table as a map on addresses: what `vm_map`, `vm_unmap` and `vm_protect`
do to `vm_query`, in every table they can build from `vm_create`.

Sv39 translates the addresses whose bits 63 to 38 are all equal.  `canonical`
compares bits 63 to 39 only, and the walk looks at bits 38 to 12: an address
that differs from a translated one in bit 38 or in bits 63 to 39 is accepted
too, and ends at the leaf of another page (`vmMap_alias`).  Between the
addresses of Sv39 there is no such confusion (`table_is_map`).
-/

namespace MiniCore

open Lib

/-! ## Addresses -/

/-- Bits 63 to 38 are all equal. -/
def sv39 (address : Nat) : Bool := address >>> 38 == 0 || address >>> 38 == 0x3ffffff

/-- The two ends of the address space, 2 ^ 38 bytes each. -/
theorem sv39_iff {address : Nat} : sv39 address = true ↔
    address < 2 ^ 38 ∨ 2 ^ 64 - 2 ^ 38 ≤ address ∧ address < 2 ^ 64 := by
  simp only [sv39, Bool.or_eq_true, beq_iff_eq, Nat.shiftRight_eq_div_pow]
  omega

theorem canonical_of_sv39 {address : Nat} (h : sv39 address = true) : canonical address = true := by
  simp only [canonical, Bool.or_eq_true, beq_iff_eq, Nat.shiftRight_eq_div_pow]
  have := sv39_iff.mp h
  omega

/-- An address of Sv39 is determined by the bits the walk looks at. -/
theorem page_eq_of_vpn_eq {v w : Nat} (hv : sv39 v = true) (hw : sv39 w = true)
    (h : vpn v = vpn w) : v / 4096 = w / 4096 := by
  have := sv39_iff.mp hv
  have := sv39_iff.mp hw
  rw [vpn, vpn] at h
  omega

theorem vpn_congr {v w : Nat} (h : w / 4096 = v / 4096) : vpn w = vpn v := by rw [vpn, vpn, h]

theorem sv39_congr {v w : Nat} (hv : sv39 v = true) (h : w / 4096 = v / 4096) : sv39 w = true := by
  have := sv39_iff.mp hv
  refine sv39_iff.mpr ?_
  omega

theorem vpn_lt (address : Nat) : vpn address / 512 / 512 < 512 := by
  rw [vpn]
  omega

/-! ## Operations -/

inductive TableOp where
  | map (address physical flags : Nat)
  | unmap (address : Nat)
  | protect (address flags : Nat)
deriving DecidableEq, Repr

namespace TableOp

def address : TableOp → Nat
  | map address _ _ => address
  | unmap address => address
  | protect address _ => address

def run (root : Nat) : TableOp → Machine → Bool × Machine
  | map address physical flags => vmMap root address physical flags
  | unmap address => vmUnmap root address
  | protect address flags => vmProtect root address flags

/-- The word that goes into the leaf slot, given the one that was there. -/
def word (old : Nat) : TableOp → Nat
  | map _ physical flags => leafPte physical flags
  | unmap _ => 0
  | protect _ flags => leafPte (ptePhysical old) flags

/-- What `vm_query` is to answer at address `w` of the page, given what it
answered before. -/
def answer (w : Nat) (old : Option (Nat × Nat)) : TableOp → Option (Nat × Nat)
  | map _ physical flags => some (physical + pageOffset w, hardwareFlags flags)
  | unmap _ => none
  | protect _ flags => old.map fun r => (r.1, hardwareFlags flags)

/-- The address is one of Sv39; a physical address has 56 bits. -/
def Sv39 : TableOp → Prop
  | map address physical _ => sv39 address = true ∧ physical < 2 ^ 56
  | unmap address => sv39 address = true
  | protect address _ => sv39 address = true

theorem Sv39.address {op : TableOp} (h : op.Sv39) : sv39 op.address = true := by
  cases op with
  | map => exact h.1
  | unmap => exact h
  | protect => exact h

end TableOp

/-- One call on the table at `root`. -/
def tableStep (root : Nat) (m : Machine) (op : TableOp) : Option Machine := some (op.run root m).2

section Table

variable {P : PagePool} {m m' : Machine} {t : Radix} {shared : Nat → Nat} {rest : Multiset Nat}
  {op : TableOp}

/-- What `vm_query` answers at `w` when `word` is in its leaf slot. -/
def decodeLeaf (word w : Nat) : Option (Nat × Nat) :=
  if word = 0 then none else some (ptePhysical word ||| pageOffset w, word &&& 0x3ff)

/-- The three-level walk of `vm_query` is one look at the leaves. -/
theorem vmQuery_eq_decodeLeaf (h : Tabled P m t shared rest) (hw : t.width = 512) {w : Nat}
    (hs : sv39 w = true) : vmQuery t.root w m = decodeLeaf (t.leaf (vpn w)) w := by
  have hv : vpn w / 512 / 512 < t.width := by
    rw [hw]
    exact vpn_lt w
  exact vmQuery_spec h (canonical_of_sv39 hs) hv

theorem decodeLeaf_leafPte {physical flags : Nat} (ha : physical % 4096 = 0)
    (hp : physical < 2 ^ 56) (hf : validLeafFlags flags = true) (w : Nat) :
    decodeLeaf (leafPte physical flags) w = some
    (physical + pageOffset w, hardwareFlags flags) := by
  have hoff : pageOffset w < 4096 := Nat.mod_lt _ (by decide)
  have hne : leafPte physical flags ≠ 0 := by
    intro h0
    have hvalid := (isLeaf_leafPte ha (hp.trans (by decide)) hf).valid
    rw [h0, Nat.zero_and] at hvalid
    exact hvalid rfl
  rw [decodeLeaf, if_neg hne, ptePhysical_leafPte ha hp hf, leafPte_and_flags ha hp hf,
    or_offset_of_aligned ha hoff]

/-- The call went through on a slot that held `old`. -/
def TableOp.Done (old : Nat) : TableOp → Prop
  | map _ physical flags =>
    pageOffset physical = 0 ∧ physical < 2 ^ 56 ∧ validLeafFlags flags = true
  | unmap _ => True
  | protect _ flags => validLeafFlags flags = true ∧ old ≠ 0

/-- The word stored is the one that is to be answered. -/
theorem TableOp.Done.answer {old : Nat} (h : op.Done old) (w : Nat) :
    decodeLeaf (op.word old) w = op.answer w (decodeLeaf old w) := by
  cases op with
  | map address physical flags => exact decodeLeaf_leafPte h.1 h.2.1 h.2.2 w
  | unmap address => rfl
  | protect address flags =>
    have hoff : pageOffset w < 4096 := Nat.mod_lt _ (by decide)
    rw [word, decodeLeaf_leafPte (ptePhysical_aligned _) (ptePhysical_lt _) h.1]
    simp [TableOp.answer, decodeLeaf, h.2, or_offset_of_aligned (ptePhysical_aligned old) hoff]

/-- **One call** stores its word in the leaf slot of its address, or leaves all
leaves alone. -/
theorem TableOp.spec (h : Tabled P m t shared rest) (hw : t.width = 512) (hop : op.Sv39) :
    ∃ t', Tabled P (op.run t.root m).2 t' shared rest ∧ t'.root = t.root ∧ t'.width = 512 ∧
      ((op.run t.root m).1 = false → t'.leaf = t.leaf) ∧
      ((op.run t.root m).1 = true → op.Done (t.leaf (vpn op.address)) ∧
        t'.leaf = Function.update t.leaf (vpn op.address) (op.word (t.leaf (vpn op.address)))) := by
  have hc := canonical_of_sv39 hop.address
  have hv : vpn op.address / 512 / 512 < t.width := by
    rw [hw]
    exact vpn_lt _
  cases op with
  | map address physical flags =>
    obtain ⟨t', htab, -, -, htrue, hfalse⟩ := vmMap_spec h flags hv (hop.2.trans (by decide))
    cases hrun : (vmMap t.root address physical flags m).1 with
    | false =>
      have hgrows := hfalse hrun
      exact ⟨t', htab, hgrows.le.root.symm, hgrows.le.width.symm.trans hw, fun _ => hgrows.leaf,
        by simp [run, hrun]⟩
    | true =>
      obtain ⟨-, hphys, hvalid, -, -, hle, hleaf⟩ := htrue hrun
      exact ⟨t', htab, hle.root.symm, hle.width.symm.trans hw, by simp [run, hrun],
        fun _ => ⟨⟨hphys, hop.2, hvalid⟩, hleaf⟩⟩
  | unmap address =>
    by_cases hal : pageOffset address = 0
    · obtain ⟨t', hs, -, hiff⟩ := vmUnmap_spec h hc hal hv
      refine ⟨t', hs.tabled, hs.le.root, hs.le.width.trans hw, fun hfalse => ?_,
        fun _ => ⟨trivial, hs.leaf_eq⟩⟩
      have hz : t.leaf (vpn address) = 0 := by
        by_contra hne
        have htrue := hiff.mpr hne
        exact Bool.false_ne_true (hfalse.symm.trans htrue)
      rw [hs.leaf_eq, ← hz]
      exact Function.update_eq_self _ _
    · have hrun : run t.root (.unmap address) m = (false, m) := by simp [run, vmUnmap, hal]
      rw [hrun]
      exact ⟨t, h, rfl, hw, fun _ => rfl, by simp⟩
  | protect address flags =>
    simp only [TableOp.address] at hc hv ⊢
    have hspec := vmProtect_spec h flags hc hv
    rcases hspec with hrun | ⟨m', hrun, -, hvalid, hne, htab⟩
    · rw [run, hrun]
      exact ⟨t, h, rfl, hw, fun _ => rfl, by simp⟩
    · rw [run, hrun]
      exact ⟨_, htab, rfl, hw, by simp, fun _ => ⟨⟨hvalid, hne⟩, rfl⟩⟩

/-- A call at an address that is not canonical does nothing. -/
theorem TableOp.run_of_not_canonical {root : Nat} (h : canonical op.address = false) :
    op.run root m = (false, m) := by
  have hwalk : ∀ create, walk create root op.address m = (none, m) := by simp [walk, h]
  cases op with
  | map address physical flags =>
    simp only [TableOp.address] at hwalk
    simp only [run, vmMap, hwalk, ite_self]
  | unmap address =>
    simp only [TableOp.address] at h
    simp [run, vmUnmap, h]
  | protect address flags =>
    simp only [TableOp.address] at hwalk
    simp only [run, vmProtect, hwalk, ite_self]

/-- The page table of a run. -/
def IsTable (P : PagePool) (rest : Multiset Nat) (root : Nat) (m : Machine) : Prop :=
  ∃ t, Tabled P m t (fun _ => 0) rest ∧ t.root = root ∧ t.width = 512

theorem isTable_of_reach {root : Nat} {m0 m1 : Machine} (hst : Stocked P m0 rest)
    (hcreate : vmCreate m0 = (root, m1)) (hroot : root ≠ 0)
    (hr : Reach (tableStep root) (fun _ op => op.Sv39 ∨ canonical op.address = false) m1 m) :
    IsTable P rest root m := by
  refine hr.invariant ?_ ?_
  · rcases vmCreate_spec hst with ⟨hzero, -⟩ | ⟨htab, -⟩
    · rw [hcreate] at hzero
      exact absurd hzero hroot
    · rw [hcreate] at htab
      exact ⟨_, htab, rfl, rfl⟩
  · intro m op m' h hop hstep
    obtain ⟨t, htab, rfl, hw⟩ := h
    obtain rfl := Option.some.inj hstep
    rcases hop with hop | hop
    · obtain ⟨t', htab', hroot', hw', -⟩ := TableOp.spec htab hw hop
      exact ⟨t', htab', hroot', hw'⟩
    · rw [TableOp.run_of_not_canonical hop]
      exact ⟨t, htab, rfl, hw⟩

theorem canonical_of_accepted {root v physical flags : Nat}
    (h : (vmMap root v physical flags m).1 = true ∨ (vmQuery root v m).isSome) :
    v >>> 39 = 0 ∨ v >>> 39 = 0x1ffffff := by
  cases hc : canonical v with
  | true => simpa [canonical] using hc
  | false =>
    have hwalk : ∀ create, walk create root v m = (none, m) := by simp [walk, hc]
    rcases h with hmap | hquery
    · rw [vmMap, hwalk] at hmap
      split at hmap <;> cases hmap
    · simp [vmQuery, hwalk] at hquery

/-- What a call does to the answers of `vm_query`. -/
structure ActsAsMap (root : Nat) (m : Machine) : Prop where
  /-- All that the code checks of an address it accepts. -/
  accepts : ∀ v physical flags, (vmMap root v physical flags m).1 = true ∨
    (vmQuery root v m).isSome →
    v >>> 39 = 0 ∨ v >>> 39 = 0x1ffffff
  inside : ∀ (op : TableOp) m', op.Sv39 → op.run root m = (true, m') →
    ∀ w, w / 4096 = op.address / 4096 → vmQuery root w m' = op.answer w (vmQuery root w m)
  outside : ∀ (op : TableOp) m', op.Sv39 → op.run root m = (true, m') →
    ∀ w, sv39 w = true → w / 4096 ≠ op.address / 4096 → vmQuery root w m' = vmQuery root w m
  failed : ∀ (op : TableOp) m', op.Sv39 ∨ canonical op.address = false →
    op.run root m = (false, m') →
    ∀ w, sv39 w = true → vmQuery root w m' = vmQuery root w m
  /-- Two pages never share a leaf entry. -/
  apart : ∀ v w slot, sv39 v = true → sv39 w = true → (walk false root v m).1 = some slot →
    (walk false root w m).1 = some slot → v / 4096 = w / 4096

/-- What the operations do to the leaves, told by `vm_query`. -/
theorem IsTable.actsAsMap {root : Nat} (h : IsTable P rest root m) : ActsAsMap root m := by
  obtain ⟨t, h, rfl, hw⟩ := h
  constructor
  · exact fun v physical flags => canonical_of_accepted
  · intro op m' hop hrun w hpage
    obtain ⟨t', htab, hroot, hw', -, htrue⟩ := TableOp.spec h hw hop
    rw [hrun] at htab htrue
    obtain ⟨hdone, hleaf⟩ := htrue rfl
    have hs := sv39_congr hop.address hpage
    rw [← hroot, vmQuery_eq_decodeLeaf htab hw' hs, hleaf, vpn_congr hpage, Function.update_self,
      hdone.answer, hroot, vmQuery_eq_decodeLeaf h hw hs, vpn_congr hpage]
  · intro op m' hop hrun w hs hpage
    obtain ⟨t', htab, hroot, hw', -, htrue⟩ := TableOp.spec h hw hop
    rw [hrun] at htab htrue
    obtain ⟨-, hleaf⟩ := htrue rfl
    have hne : vpn w ≠ vpn op.address := fun heq => hpage (page_eq_of_vpn_eq hs hop.address heq)
    rw [← hroot, vmQuery_eq_decodeLeaf htab hw' hs, hleaf, Function.update_of_ne hne, hroot,
      vmQuery_eq_decodeLeaf h hw hs]
  · intro op m' hop hrun w hs
    rcases hop with hop | hop
    swap
    · rw [TableOp.run_of_not_canonical hop] at hrun
      cases hrun
      rfl
    obtain ⟨t', htab, hroot, hw', hfalse, -⟩ := TableOp.spec h hw hop
    rw [hrun] at htab hfalse
    rw [← hroot, vmQuery_eq_decodeLeaf htab hw' hs, hfalse rfl, hroot,
      vmQuery_eq_decodeLeaf h hw hs]
  · intro v w slot hv hs hslot hslot'
    have hlt : ∀ a, vpn a / 512 / 512 < t.width := by
      rw [hw]
      exact vpn_lt
    rw [walk_read h (canonical_of_sv39 hv) (hlt v), Option.map_eq_some_iff] at hslot
    rw [walk_read h (canonical_of_sv39 hs) (hlt w), Option.map_eq_some_iff] at hslot'
    obtain ⟨p, hp, rfl⟩ := hslot
    obtain ⟨q, hq, heq⟩ := hslot'
    obtain ⟨rfl, hmod⟩ := Prod.mk.inj heq
    have hlow := h.placed.separate.low_inj hp hq
    refine page_eq_of_vpn_eq hv hs ?_
    omega

/-- **A page table is a map on the addresses of Sv39**, in every state that
calls at such addresses, and at addresses that are refused, lead to. -/
theorem table_is_map {root : Nat} {m₀ m₁ : Machine} (hst : Stocked P m₀ rest)
    (hcreate : vmCreate m₀ = (root, m₁)) (hroot : root ≠ 0)
    (hr : Reach (tableStep root) (fun _ op => op.Sv39 ∨ canonical op.address = false) m₁ m) :
    ActsAsMap root m :=
  (isTable_of_reach hst hcreate hroot hr).actsAsMap

end Table

/-! ## Runs on a small machine -/

/-- Seven free pages, no heap. -/
def tableMachine : Machine := ⟨fun _ => 0, (List.range 7).map fun i => 4096 * (i + 1), [], [], []⟩

def tablePool : PagePool where
  pages := tableMachine.freeList
  nodup := by decide
  isPage := by
    have hall : ∀ p ∈ tableMachine.freeList, p % 4096 = 0 ∧ p ≠ 0 ∧ p < 2 ^ 56 := by decide
    intro p hp
    obtain ⟨ha, hne, hlt⟩ := hall p hp
    exact ⟨ha, hne, hlt⟩

theorem stocked_tableMachine : Stocked tablePool tableMachine 0 :=
  ⟨by simp [HeapOk, tableMachine], rfl, by simp [tableMachine]⟩

/-- Two mappings, one of them at the top of the address space; the other
protected, then a third that is removed again, and one that is refused. -/
def tableRun : List TableOp :=
  [.map 0x1000 0x5000 (pteR ||| pteW), .map 0xfffffffffffff000 0 (pteR ||| pteX),
    .protect 0x1000 pteR, .map 0x2000 0x6000 pteR, .unmap 0x2000, .map (2 ^ 63) 0x6000 pteR]

theorem tableRun_is_map :
    let root := (vmCreate tableMachine).1
    ∃ m, runSteps (tableStep root) (vmCreate tableMachine).2 tableRun = some m ∧
      vmQuery root 0x1234 m = some (0x5234, pteV ||| pteR ||| pteA) ∧
      vmQuery root 0xffffffffffffffff m = some (0xfff, pteV ||| pteR ||| pteX ||| pteA) ∧
      vmQuery root 0x2000 m = none ∧ ActsAsMap root m := by
  have hfacts :
    (runSteps (tableStep (vmCreate tableMachine).1) (vmCreate tableMachine).2 tableRun).map
      (fun m => [vmQuery (vmCreate tableMachine).1 0x1234 m,
        vmQuery (vmCreate tableMachine).1 0xffffffffffffffff m,
        vmQuery (vmCreate tableMachine).1 0x2000 m]) =
      some [some (0x5234, pteV ||| pteR ||| pteA), some (0xfff, pteV ||| pteR ||| pteX ||| pteA),
        none] := by decide +kernel
  obtain ⟨m, hm, hfacts⟩ := Option.map_eq_some_iff.mp hfacts
  simp only [List.cons.injEq, and_true] at hfacts
  refine ⟨m, hm, hfacts.1, hfacts.2.1, hfacts.2.2, ?_⟩
  exact table_is_map stocked_tableMachine rfl (by decide +kernel)
    (Reach.of_runSteps hm (by simp [tableRun, TableOp.Sv39, sv39, canonical, TableOp.address]))

/-- `vm_map` at 0x1000 makes `vm_query` answer at an address of another page,
which is none of Sv39; `vm_map` accepts such an address, too. -/
theorem vmMap_alias :
    let root := (vmCreate tableMachine).1
    let created := (vmCreate tableMachine).2
    let mapped := (vmMap root 0x1000 0x5000 pteR created).2
    sv39 0xffffff8000001000 = false ∧ sv39 0x4000000000 = false ∧
      (vmMap root 0x1000 0x5000 pteR created).1 = true ∧
      vmQuery root 0xffffff8000001000 created = none ∧
      vmQuery root 0xffffff8000001000 mapped = some (0x5000, pteV ||| pteR ||| pteA) ∧
      (vmMap root 0x4000000000 0x6000 pteR mapped).1 = true := by
  decide +kernel

end MiniCore
