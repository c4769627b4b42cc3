import MiniCore.Mm.Layout

/-!
# MiniCore.Mm.Pte

Sv39 page-table entries (`src/mm/vm.h`, top of `src/mm/vm.c`): the flag bits,
the two kinds of entry the kernel writes, and what can be read back from them.

An entry is `1024 * ppn + flags`.  The lemmas below say so once
(`table_eq`, `leaf_eq`); every later fact about an entry is a fact about its
low ten bits (`and_low`) or its page number (`ptePhysical_add`).
-/

namespace MiniCore

variable {f flags p q : Nat}

def pteV : Nat := 1
def pteR : Nat := 2
def pteW : Nat := 4
def pteX : Nat := 8
def pteU : Nat := 16
def pteG : Nat := 32
def pteA : Nat := 64
def pteD : Nat := 128

def ptePpnMask : Nat := 0x003ffffffffffc00

def ptePhysical (pte : Nat) : Nat := (pte &&& ptePpnMask) <<< 2

def makeTablePte (physical : Nat) : Nat := (physical >>> 2) ||| pteV

/-- A valid entry without R, W or X: a pointer to a lower table. -/
def isTable (pte : Nat) : Bool := pte &&& pteV != 0 && pte &&& (pteR ||| pteW ||| pteX) == 0

def validLeafFlags (flags : Nat) : Bool :=
  let allowed := pteR ||| pteW ||| pteX ||| pteU ||| pteG
  flags &&& allowed == flags && flags &&& (pteR ||| pteX) != 0 &&
    !(flags &&& pteW != 0 && flags &&& pteR == 0)

/-- `flags` as the hardware sees them: valid, accessed, and dirty if writable. -/
def hardwareFlags (flags : Nat) : Nat :=
  if flags &&& pteW ≠ 0 then flags ||| pteV ||| pteA ||| pteD else flags ||| pteV ||| pteA

def leafPte (physical flags : Nat) : Nat := (physical >>> 2) ||| hardwareFlags flags

/-! ## Low bits and page number -/

/-- A mask of flag bits sees the flags only. -/
theorem and_low {c : Nat} (hc : c < 1024) : (1024 * q + f) &&& c = f &&& c := by
  have hmod : ∀ x, x &&& c = x % 1024 &&& c := by
    intro x
    have hcm : c % 2 ^ 10 = c := Nat.mod_eq_of_lt hc
    have hand := Nat.and_mod_two_pow (a := x) (b := c) (n := 10)
    rw [hcm] at hand
    rw [← show x % 2 ^ 10 = x % 1024 by rfl, ← hand]
    exact (Nat.mod_eq_of_lt (Nat.lt_of_le_of_lt Nat.and_le_right hc)).symm
  rw [hmod, hmod f, Nat.mul_add_mod]

/-- The page number shifted into place and the flags do not overlap. -/
theorem or_low (hf : f < 1024) : (4096 * q) >>> 2 ||| f = 1024 * q + f := by
  have hshift : (4096 * q) >>> 2 = 2 ^ 10 * q := by
    rw [Nat.shiftRight_eq_div_pow]
    omega
  rw [hshift, ← Nat.two_pow_add_eq_or_of_lt hf]

/-- The address is read back from the number field, whatever the flags. -/
theorem ptePhysical_add (hq : q < 2 ^ 44) (hf : f < 1024) :
    ptePhysical (1024 * q + f) = 4096 * q := by
  have hmask : (1024 * q + f) &&& ptePpnMask = 1024 * q := by
    apply Nat.eq_of_testBit_eq
    intro i
    have hm : ptePpnMask = 2 ^ 10 * (2 ^ 44 - 1) := by decide
    rw [Nat.testBit_and, hm, Nat.testBit_two_pow_mul, Nat.testBit_two_pow_sub_one,
      show 1024 * q + f = 2 ^ 10 * q + f by rfl, Nat.testBit_two_pow_mul_add _ hf,
      show 1024 * q = 2 ^ 10 * q by rfl, Nat.testBit_two_pow_mul]
    by_cases hi : i < 10
    · simp [hi, Nat.not_le.mpr hi]
    have hle : 10 ≤ i := by omega
    by_cases hi' : i - 10 < 44
    · simp [hi, hle, hi']
    have hbig : q < 2 ^ (i - 10) :=
      Nat.lt_of_lt_of_le hq (Nat.pow_le_pow_right (by decide) (by omega))
    simp [hi, hi', Nat.testBit_lt_two_pow hbig]
  rw [ptePhysical, hmask, Nat.shiftLeft_eq]
  omega

theorem or_offset_of_aligned {off : Nat} (ha : p % 4096 = 0) (h : off < 4096) :
    p ||| off = p + off := by
  obtain ⟨q, rfl⟩ : ∃ q, p = 4096 * q := ⟨p / 4096, by omega⟩
  exact (Nat.two_pow_add_eq_or_of_lt (i := 12) h q).symm

/-- Whatever the word, the address in it is a page address of 56 bits. -/
theorem ptePhysical_aligned (pte : Nat) : ptePhysical pte % 4096 = 0 := by
  have hlow : (pte &&& ptePpnMask) % 2 ^ 10 = 0 := by
    rw [Nat.and_mod_two_pow, show ptePpnMask % 2 ^ 10 = 0 by decide, Nat.and_zero]
  rw [ptePhysical, Nat.shiftLeft_eq]
  omega

/-- Sv39 entries name 56-bit addresses. -/
theorem ptePhysical_lt (pte : Nat) : ptePhysical pte < 2 ^ 56 := by
  have hle : pte &&& ptePpnMask ≤ ptePpnMask := Nat.and_le_right
  rw [ptePpnMask] at hle
  rw [ptePhysical, ptePpnMask, Nat.shiftLeft_eq]
  omega

/-! ## Entries that point to tables -/

/-- An aligned 56-bit address is `4096` times a 44-bit page number. -/
theorem exists_ppn (ha : p % 4096 = 0) (hlt : p < 2 ^ 56) : ∃ q < 2 ^ 44, p = 4096 * q :=
  ⟨p / 4096, by omega, by omega⟩

theorem IsPage.ppn (hp : IsPage p) : ∃ q < 2 ^ 44, p = 4096 * q :=
  exists_ppn hp.aligned hp.lt

theorem table_eq (q : Nat) : makeTablePte (4096 * q) = 1024 * q + 1 := or_low (by decide)

theorem isTable_makeTablePte (hp : IsPage p) : isTable (makeTablePte p) = true := by
  obtain ⟨q, _, rfl⟩ := hp.ppn
  rw [isTable, table_eq, and_low (by decide), and_low (by decide)]
  decide

theorem ptePhysical_makeTablePte (hp : IsPage p) : ptePhysical (makeTablePte p) = p := by
  obtain ⟨q, hq, rfl⟩ := hp.ppn
  rw [table_eq, ptePhysical_add hq (by decide)]

theorem makeTablePte_lt (hp : IsPage p) : makeTablePte p < 2 ^ 64 := by
  obtain ⟨q, hq, rfl⟩ := hp.ppn
  rw [table_eq]
  omega

/-! ## Leaves -/

theorem validLeafFlags_lt (h : validLeafFlags flags = true) : flags < 64 := by
  simp only [validLeafFlags, Bool.and_eq_true, beq_iff_eq] at h
  rw [← h.1.1]
  exact Nat.lt_of_le_of_lt Nat.and_le_right (by decide)

/-- Facts about flag words are checked on all of the 64 there are. -/
theorem hardwareFlags_spec : ∀ flags < 64, hardwareFlags flags < 1024 ∧
    hardwareFlags flags &&& pteV ≠ 0 ∧
    hardwareFlags flags &&& 0x3ff = hardwareFlags flags ∧
    hardwareFlags flags &&& (pteR ||| pteW ||| pteX ||| pteU) =
      flags &&& (pteR ||| pteW ||| pteX ||| pteU) ∧
    hardwareFlags flags &&& (pteR ||| pteX) = flags &&& (pteR ||| pteX) := by
  decide

theorem leaf_eq (h : flags < 64) : leafPte (4096 * q) flags = 1024 * q + hardwareFlags flags :=
  or_low (hardwareFlags_spec flags h).1

/-- A word the kernel accepts as a mapped leaf. -/
structure IsLeaf (pte : Nat) : Prop where
  lt : pte < 2 ^ 64
  valid : pte &&& pteV ≠ 0
  mapped : pte &&& (pteR ||| pteX) ≠ 0

/-- So a leaf is told from an empty slot. -/
theorem IsLeaf.ne_zero {pte : Nat} (h : IsLeaf pte) : pte ≠ 0 := by
  intro h0
  have hv := h.valid
  rw [h0] at hv
  exact hv (Nat.zero_and _)

theorem isLeaf_leafPte (ha : p % 4096 = 0) (hp : p < 2 ^ 64) (h : validLeafFlags flags = true) :
    IsLeaf (leafPte p flags) := by
  obtain ⟨q, hq, rfl⟩ : ∃ q < 2 ^ 52, p = 4096 * q := ⟨p / 4096, by omega, by omega⟩
  have hlt := validLeafFlags_lt h
  obtain ⟨hhw, hv, _, _, hrx⟩ := hardwareFlags_spec flags hlt
  simp only [validLeafFlags, Bool.and_eq_true, bne_iff_ne] at h
  rw [leaf_eq hlt]
  refine ⟨by omega, ?_, ?_⟩
  · rw [and_low (by decide)]
    exact hv
  · rw [and_low (by decide), hrx]
    exact h.1.2

/-- A leaf entry gives back the page it was made for. -/
theorem ptePhysical_leafPte (ha : p % 4096 = 0) (hp : p < 2 ^ 56)
    (h : validLeafFlags flags = true) : ptePhysical (leafPte p flags) = p := by
  obtain ⟨q, hq, rfl⟩ := exists_ppn ha hp
  have hlt := validLeafFlags_lt h
  rw [leaf_eq hlt, ptePhysical_add hq (hardwareFlags_spec flags hlt).1]

/-- The flags of a leaf, as `vm_query` reports them. -/
theorem leafPte_and_flags (ha : p % 4096 = 0) (hp : p < 2 ^ 56) (h : validLeafFlags flags = true) :
    leafPte p flags &&& 0x3ff = hardwareFlags flags := by
  obtain ⟨q, hq, rfl⟩ := exists_ppn ha hp
  have hlt := validLeafFlags_lt h
  rw [leaf_eq hlt, and_low (by decide), (hardwareFlags_spec flags hlt).2.2.1]

end MiniCore
