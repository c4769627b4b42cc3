/-!
# MiniCore.Lib.Loop

Counting loops: `forRange n f s` runs `f 0`, `f 1`, …, `f (n - 1)` on `s`, and
its invariant rule.  This module depends only on the Lean 4 core library.
-/

namespace MiniCore.Lib

variable {σ : Type}

/-- `for (i = 0; i < n; ++i) s = f i s` -/
def forRange : Nat → (Nat → σ → σ) → σ → σ
  | 0, _, s => s
  | n + 1, f, s => f n (forRange n f s)

/-- **Loop rule**: what holds before the loop and is carried from `i` to `i + 1`
by the body holds at the end. -/
theorem forRange_invariant {I : Nat → σ → Prop} {f : Nat → σ → σ} {s : σ} (n : Nat) (h0 : I 0 s)
    (hbody : ∀ i s, i < n → I i s → I (i + 1) (f i s)) : I n (forRange n f s) := by
  induction n with
  | zero => exact h0
  | succ n ih =>
    exact hbody n _ (Nat.lt_succ_self n) (ih fun i s hi => hbody i s (Nat.lt_succ_of_lt hi))

end MiniCore.Lib
