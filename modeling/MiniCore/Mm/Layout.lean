import MiniCore.Lib.Memory
import Mathlib.Data.Multiset.UnionInter

/-!
# MiniCore.Mm.Layout

Pages (`src/mm/layout.h`): sizes and rounding, the bytes of a page, and a page
read as a table of 512 eight-byte words.

Physical memory is one byte-addressed `Memory`, indexed by physical address;
the kernel reaches it through the direct map, so `phys_to_virt` and
`virt_to_phys` disappear in the model.  Page tables, user pages and heap slabs
all live in this one memory: that they do not overlap is proved, not assumed by
the types.
-/

namespace MiniCore

open Lib

variable {mem : Memory} {i p q v : Nat}

/-! ## Sizes and rounding -/

def pageSize : Nat := 4096

def pageMask : Nat := pageSize - 1

/-- `x & PAGE_MASK` -/
def pageOffset (x : Nat) : Nat := x % pageSize

/-- `x & ~PAGE_MASK` -/
def pageDown (x : Nat) : Nat := x - pageOffset x

/-- `(x + PAGE_MASK) & ~PAGE_MASK` -/
def pageUp (x : Nat) : Nat := pageDown (x + pageMask)

theorem pageOffset_eq (x : Nat) : pageOffset x = x % 4096 := rfl

theorem pageDown_eq (x : Nat) : pageDown x = x / 4096 * 4096 := by
  unfold pageDown pageOffset pageSize
  omega

theorem pageUp_eq (x : Nat) : pageUp x = (x + 4095) / 4096 * 4096 := pageDown_eq _

/-! ## Pages -/

/-- A physical address that names a page: aligned, not the null page (the
allocator's failure value) and within the 56 bits an Sv39 entry can hold. -/
structure IsPage (p : Nat) : Prop where
  aligned : p % 4096 = 0
  ne_zero : p ≠ 0
  lt : p < 2 ^ 56

/-- The bytes of a page. -/
def pageBytes (p : Nat) : Set Nat := {b | p ≤ b ∧ b < p + 4096}

theorem mem_pageBytes {p i : Nat} (hi : i < 4096) : p + i ∈ pageBytes p :=
  ⟨Nat.le_add_right _ _, Nat.add_lt_add_left hi _⟩

/-- A collection of physical pages, each there once. -/
structure PagePool where
  pages : Multiset Nat
  nodup : pages.Nodup
  isPage : ∀ p ∈ pages, IsPage p

/-- Distinct pages are a page apart. -/
theorem IsPage.disjoint (hp : IsPage p) (hq : IsPage q) (h : p ≠ q) :
    p + 4096 ≤ q ∨ q + 4096 ≤ p := by
  have := hp.aligned
  have := hq.aligned
  omega

/-- A write inside one page leaves the bytes of every other page alone. -/
theorem eqOn_fill_page {f : Nat → UInt8} {a n : Nat} (hp : IsPage p) (hq : IsPage q) (hne : q ≠ p)
    (ha : p ≤ a) (hn : a + n ≤ p + 4096) : Set.EqOn (fill mem a n f) mem (pageBytes q) := by
  apply eqOn_fill
  intro b hb
  have := hp.disjoint hq (Ne.symm hne)
  have := hb.1
  have := hb.2
  omega

/-! ## A page as a table of words -/

/-- Word `i` of the page at `p`. -/
def entry (mem : Memory) (p i : Nat) : Nat := loadLE mem (p + 8 * i) 8

/-- Store word `i` of the page at `p`. -/
def setEntry (mem : Memory) (p i v : Nat) : Memory := storeLE mem (p + 8 * i) 8 v

/-- `memset(page, 0, PAGE_SIZE)` -/
def clearPage (mem : Memory) (p : Nat) : Memory := fill mem p pageSize fun _ => 0

/-- A table entry is read from its own page alone. -/
theorem entry_congr {mem' : Memory} (hi : i < 512) (h : Set.EqOn mem mem' (pageBytes p)) :
    entry mem p i = entry mem' p i := by
  apply loadLE_congr
  intro k hk
  refine h ?_
  constructor <;> omega

theorem entry_setEntry_self (hv : v < 2 ^ 64) : entry (setEntry mem p i v) p i = v :=
  loadLE_store_self (by simpa using hv)

theorem entry_setEntry_index {j : Nat} (hne : j ≠ i) :
    entry (setEntry mem p i v) p j = entry mem p j := by
  unfold entry setEntry storeLE
  exact loadLE_fill_of_disjoint (by omega)

theorem eqOn_setEntry (hp : IsPage p) (hq : IsPage q) (hne : q ≠ p) (hi : i < 512) :
    Set.EqOn (setEntry mem p i v) mem (pageBytes q) := by
  unfold setEntry storeLE
  exact eqOn_fill_page hp hq hne (by omega) (by omega)

/-- A store to one table leaves every other table as it was. -/
theorem entry_setEntry_page {j : Nat} (hp : IsPage p) (hq : IsPage q) (hne : q ≠ p) (hi : i < 512)
    (hj : j < 512) : entry (setEntry mem p i v) q j = entry mem q j :=
  entry_congr hj (eqOn_setEntry hp hq hne hi)

/-- A fresh table has no entries. -/
theorem entry_clearPage_self (hi : i < 512) : entry (clearPage mem p) p i = 0 := by
  apply loadLE_zero
  intro k hk
  rw [Nat.add_assoc]
  exact fill_of_mem (by unfold pageSize; omega)

theorem eqOn_clearPage (hp : IsPage p) (hq : IsPage q) (hne : q ≠ p) :
    Set.EqOn (clearPage mem p) mem (pageBytes q) :=
  eqOn_fill_page hp hq hne (Nat.le_refl _) (by unfold pageSize; omega)

end MiniCore
