import Mathlib.Init

/-!
# MiniCore.Lib.Chunks

A byte range cut at the multiples of a block size: the shape of every loop that
copies `size` bytes from `address` on without crossing a block boundary.

The loop in C is

```
while (size) {
    chunk = block - address % block;
    if (chunk > size) chunk = size;
    …
    address += chunk; size -= chunk;
}
```

and `chunks block address size` is the list of pairs `(address, chunk)` its body
sees.  A proof about such a loop is an induction on `Chunked`: each chunk stays
inside one block (`Chunked.inside`), together they are the whole range
(`Chunked.cover`), and `Chunked.flatMap` is what the loop reads.
-/

namespace MiniCore.Lib

variable {address block size : Nat}

/-- The first `n` rounds of the loop; `size` rounds are always enough. -/
def chunksFrom (block : Nat) : Nat → Nat → Nat → List (Nat × Nat)
  | 0, _, _ => []
  | n + 1, address, size =>
    if size = 0 then []
    else
      let chunk := min (block - address % block) size
      (address, chunk) :: chunksFrom block n (address + chunk) (size - chunk)

def chunks (block address size : Nat) : List (Nat × Nat) := chunksFrom block size address size

/-- The rounds of the loop: a round takes a chunk that is not empty and stays in
its block, and goes on behind it. -/
inductive Chunked (block : Nat) : Nat → Nat → List (Nat × Nat) → Prop
  | nil (address : Nat) : Chunked block address 0 []
  | cons (address chunk size : Nat) (rest : List (Nat × Nat)) (pos : 0 < chunk)
      (within : address % block + chunk ≤ block)
      (next : Chunked block (address + chunk) size rest) :
      Chunked block address (chunk + size) ((address, chunk) :: rest)

theorem chunked_from (hb : 0 < block) {n : Nat} (hn : size ≤ n) :
    Chunked block address size (chunksFrom block n address size) := by
  induction n generalizing address size with
  | zero =>
    obtain rfl : size = 0 := by omega
    exact .nil address
  | succ n ih =>
    have hmod := Nat.mod_lt address hb
    rw [chunksFrom]
    split
    · next hs =>
      rw [hs]
      exact .nil address
    next hs =>
    have hround := Chunked.cons address (min (block - address % block) size)
      (size - min (block - address % block) size) _ (by omega) (by omega) (ih (by omega))
    rwa [Nat.add_sub_cancel' (Nat.min_le_right _ _)] at hround

/-- The loop ends because `size` is used up. -/
theorem chunked (hb : 0 < block) (address size : Nat) :
    Chunked block address size (chunks block address size) :=
  chunked_from hb (Nat.le_refl size)

variable {l : List (Nat × Nat)}

/-- A chunk is not empty, lies in one block and lies in the range. -/
theorem Chunked.inside (h : Chunked block address size l) : ∀ c ∈ l,
    0 < c.2 ∧ c.1 % block + c.2 ≤ block ∧ address ≤ c.1 ∧ c.1 + c.2 ≤ address + size := by
  induction h with
  | nil => simp
  | cons address chunk size rest hpos hin _ ih =>
    intro c hc
    rcases List.mem_cons.mp hc with rfl | hc
    · simp only
      omega
    · have := ih c hc
      omega

/-- Every byte of the range is in a chunk. -/
theorem Chunked.cover (h : Chunked block address size l) : ∀ a, address ≤ a → a < address + size →
    ∃ c ∈ l, c.1 ≤ a ∧ a < c.1 + c.2 := by
  induction h with
  | nil => omega
  | cons address chunk size rest _ _ _ ih =>
    intro a hlo hhi
    by_cases ha : a < address + chunk
    · exact ⟨_, List.mem_cons_self, hlo, ha⟩
    obtain ⟨c, hc, hin⟩ := ih a (by omega) (by omega)
    exact ⟨c, List.mem_cons_of_mem _ hc, hin⟩

/-- A loop that reads `f` chunk by chunk reads it byte by byte. -/
theorem Chunked.flatMap {α : Type} {g : Nat × Nat → List α} {f : Nat → α}
    (hg : ∀ c : Nat × Nat, c.1 % block + c.2 ≤ block →
      g c = (List.range c.2).map fun i => f (c.1 + i)) (h : Chunked block address size l) :
    l.flatMap g = (List.range size).map fun i => f (address + i) := by
  induction h with
  | nil => rfl
  | cons address chunk size rest _ hin _ ih =>
    rw [List.flatMap_cons, hg _ hin, ih, List.range_add, List.map_append, List.map_map]
    simp only [Function.comp_def, Nat.add_assoc]

end MiniCore.Lib
