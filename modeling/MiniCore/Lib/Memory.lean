import Mathlib.Data.Set.Function
import Mathlib.Algebra.Order.Ring.Nat

/-!
# MiniCore.Lib.Memory

Byte-addressed memory with little-endian words, and the frame lemmas that let
the layers above forget about bytes.

Every write is a `fill`: `n` bytes starting at `a` are replaced by the values
of a function of the offset.  Clearing a block, copying into it and storing a
word are its three uses.  A load sees a `fill` completely, or not at all, when
the two ranges coincide or are disjoint (`loadLE_store_self`,
`loadLE_fill_of_disjoint`).
-/

namespace MiniCore.Lib

/-- Byte-addressed memory. -/
abbrev Memory := Nat → UInt8

variable {mem : Memory} {a n : Nat} {f : Nat → UInt8}

/-- Little-endian load of `n` bytes at `a`. -/
def loadLE (mem : Memory) (a : Nat) : Nat → Nat
  | 0 => 0
  | n + 1 => (mem a).toNat + 256 * loadLE mem (a + 1) n

/-- Replace the `n` bytes at `a` by `f 0, f 1, …`. -/
def fill (mem : Memory) (a n : Nat) (f : Nat → UInt8) : Memory := fun b =>
  if a ≤ b ∧ b < a + n then f (b - a) else mem b

/-- Little-endian store of the low `n` bytes of `v` at `a`. -/
def storeLE (mem : Memory) (a n v : Nat) : Memory :=
  fill mem a n fun i => UInt8.ofNat (v / 256 ^ i)

/-! ## Writes seen byte by byte -/

theorem fill_of_mem (h : i < n) : fill mem a n f (a + i) = f i := by
  simp [fill, h]

theorem fill_of_not_mem (h : b < a ∨ a + n ≤ b) : fill mem a n f b = mem b := by
  have hb : ¬ (a ≤ b ∧ b < a + n) := by omega
  simp [fill, hb]

/-- A write changes nothing on a set of bytes it does not meet. -/
theorem eqOn_fill {s : Set Nat} (h : ∀ b ∈ s, b < a ∨ a + n ≤ b) :
    Set.EqOn (fill mem a n f) mem s :=
  fun b hb => fill_of_not_mem (h b hb)

/-! ## Loads -/

/-- Equal bytes load as equal words, at whatever addresses they are. -/
theorem loadLE_congr {mem' : Memory} {b : Nat} (h : ∀ i < n, mem (a + i) = mem' (b + i)) :
    loadLE mem a n = loadLE mem' b n := by
  induction n generalizing a b with
  | zero => rfl
  | succ n ih =>
    have htail : loadLE mem (a + 1) n = loadLE mem' (b + 1) n := by
      apply ih
      intro i hi
      have := h (i + 1) (by omega)
      rwa [show a + 1 + i = a + (i + 1) by omega, show b + 1 + i = b + (i + 1) by omega]
    have hhead := h 0 (by omega)
    rw [Nat.add_zero, Nat.add_zero] at hhead
    rw [loadLE, loadLE, hhead, htail]

/-- Bytes that spell `v` in base 256 load as `v`. -/
theorem loadLE_of_digits {v : Nat} (h : ∀ i < n, mem (a + i) = UInt8.ofNat (v / 256 ^ i)) :
    loadLE mem a n = v % 256 ^ n := by
  induction n generalizing a v with
  | zero => simp [loadLE, Nat.mod_one]
  | succ n ih =>
    have htail : loadLE mem (a + 1) n = v / 256 % 256 ^ n := by
      apply ih
      intro i hi
      have := h (i + 1) (by omega)
      rw [show a + 1 + i = a + (i + 1) by omega, this, Nat.pow_succ', Nat.div_div_eq_div_mul]
    have hhead := h 0 (by omega)
    rw [Nat.add_zero, Nat.pow_zero, Nat.div_one] at hhead
    have hbyte : (UInt8.ofNat v).toNat = v % 256 := UInt8.toNat_ofNat'
    rw [loadLE, hhead, htail, hbyte, Nat.pow_succ', Nat.mod_mul]

theorem loadLE_zero (h : ∀ i < n, mem (a + i) = 0) : loadLE mem a n = 0 := by
  have hdig : ∀ i < n, mem (a + i) = UInt8.ofNat (0 / 256 ^ i) := by simpa using h
  rw [loadLE_of_digits hdig, Nat.zero_mod]

/-- A word reads back as it was stored. -/
theorem loadLE_store_self {v : Nat} (hv : v < 256 ^ n) : loadLE (storeLE mem a n v) a n = v := by
  have hdig : ∀ i < n, storeLE mem a n v (a + i) = UInt8.ofNat (v / 256 ^ i) :=
    fun _ hi => fill_of_mem hi
  rw [loadLE_of_digits hdig, Nat.mod_eq_of_lt hv]

/-- A load is blind to a write elsewhere. -/
theorem loadLE_fill_of_disjoint {b k : Nat} (h : b + k ≤ a ∨ a + n ≤ b) :
    loadLE (fill mem a n f) b k = loadLE mem b k :=
  loadLE_congr fun i hi => fill_of_not_mem (by omega)

end MiniCore.Lib
