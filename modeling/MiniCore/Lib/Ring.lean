import MiniCore.Lib.Loop
import Mathlib.Logic.Function.Basic
import Mathlib.Data.Nat.ModEq
import Mathlib.Data.List.DropRight

/-!
# MiniCore.Lib.Ring

Ring buffers: `used` elements from position `head` on in an array of `cap`
slots, wrapping at the end.

`ringList` is the queue such a buffer stands for.  Reading slots from `head` on
takes a prefix of it (`ringList_take`, `ringList_drop`); storing behind the last
element appends to it (`ringList_put`).  A ring that is never read is
seen from its tail: `ringLast` is the queue in front of it, and storing there
pushes the oldest element out once the ring is full (`ringLast_push`).
-/

namespace MiniCore.Lib

open List Function

variable {α : Type}

/-- The elements of the buffer, oldest first. -/
def ringList (cap : Nat) (data : Nat → α) (head used : Nat) : List α :=
  (range used).map fun i => data ((head + i) % cap)

/-- The loop `for (i = 0; i < n; ++i) out[i] = data[head], head = (head + 1) % cap`. -/
def ringTake (cap : Nat) (data : Nat → α) : Nat → Nat → List α × Nat
  | 0, head => ([], head)
  | n + 1, head =>
    let (out, last) := ringTake cap data n ((head + 1) % cap)
    (data head :: out, last)

/-- The loop `for (i = 0; i < n; ++i) data[(tail + i) % cap] = buf[i]`. -/
def ringPut (cap : Nat) (data : Nat → α) (tail n : Nat) (buf : Nat → α) : Nat → α :=
  forRange n (fun i data => update data ((tail + i) % cap) (buf i)) data

/-- The `used` elements in front of position `tail`, oldest first. -/
def ringLast (cap : Nat) (data : Nat → α) (tail used : Nat) : List α :=
  ringList cap data ((tail + cap - used) % cap) used

section

variable {cap head used n : Nat} {data : Nat → α}

@[simp] theorem length_ringList : (ringList cap data head used).length = used := by
  simp [ringList]

theorem ringTake_eq (h : head < cap) :
    ringTake cap data n head = (ringList cap data head n, (head + n) % cap) := by
  induction n generalizing head with
  | zero => simp [ringTake, ringList, Nat.mod_eq_of_lt h]
  | succ n ih =>
    have hcap : 0 < cap := Nat.lt_of_le_of_lt (Nat.zero_le _) h
    have hshift : ∀ i, ((head + 1) % cap + i) % cap = (head + (i + 1)) % cap := by
      intro i
      rw [Nat.mod_add_mod]
      congr 1
      omega
    rw [ringTake, ih (Nat.mod_lt _ hcap)]
    simp only [ringList, range_succ_eq_map, map_cons, map_map, Nat.add_zero,
      Nat.mod_eq_of_lt h, hshift, comp_def, Nat.succ_eq_add_one]

/-- Reading `n` slots from the head takes the `n` oldest elements. -/
theorem ringList_take (hn : n ≤ used) :
    ringList cap data head n = (ringList cap data head used).take n := by
  rw [ringList, ringList, ← map_take, take_range, Nat.min_eq_left hn]

/-- Moving the head past them leaves the others. -/
theorem ringList_drop :
    ringList cap data ((head + n) % cap) (used - n) = (ringList cap data head used).drop n := by
  refine ext_getElem (by simp) fun i h1 h2 => ?_
  simp only [ringList, getElem_map, getElem_range, getElem_drop]
  rw [Nat.mod_add_mod, Nat.add_assoc]

/-- Slots of a window of at most `cap` positions are distinct. -/
theorem slot_inj {i j : Nat} (hi : i < cap) (hj : j < cap)
    (h : (head + i) % cap = (head + j) % cap) : i = j := by
  have hmod : i % cap = j % cap := Nat.ModEq.add_left_cancel' head h
  rwa [Nat.mod_eq_of_lt hi, Nat.mod_eq_of_lt hj] at hmod

/-- **Storing behind the last element appends.** -/
theorem ringList_put (buf : Nat → α) (hn : used + n ≤ cap) :
    ringList cap (ringPut cap data (head + used) n buf) head (used + n) =
      ringList cap data head used ++ (range n).map buf := by
  induction n with
  | zero => simp [ringPut, forRange]
  | succ n ih =>
    have hlast : ∀ d : Nat → α, ringList cap d head (used + (n + 1)) =
        ringList cap d head (used + n) ++ [d ((head + (used + n)) % cap)] := by
      intro d
      rw [← Nat.add_assoc, ringList, range_succ, map_append]
      rfl
    -- the slot written last is none of the earlier ones
    have hkeep : ∀ d : Nat → α, ∀ v, ringList cap
        (update d ((head + (used + n)) % cap) v) head (used + n) =
        ringList cap d head (used + n) := by
      intro d v
      refine map_congr_left fun i hi => update_of_ne (fun heq => ?_) _ _
      have hlt := List.mem_range.mp hi
      have := slot_inj (by omega) (by omega) heq
      omega
    rw [ringPut, forRange, ← ringPut, Nat.add_assoc head used n, hlast, hkeep, ih (by omega),
      update_self, append_assoc, range_succ, map_append]
    rfl

/-- What is lost of an append to the last `n` elements is lost of the whole. -/
theorem rtake_rtake_append (l m : List α) (n : Nat) :
    (l.rtake n ++ m).rtake n = (l ++ m).rtake n := by
  have hl : (l ++ m).rtake n = (l.drop (l.length - n) ++ m).drop
      ((l ++ m).length - n - (l.length - n)) := by
    rw [rtake, ← drop_append_of_le_length (by omega), drop_drop]
    congr 1
    rw [length_append]
    omega
  rw [hl, rtake, rtake]
  congr 1
  simp only [length_append, length_drop]
  omega

/-- **Storing at the tail appends**, and a full ring loses its oldest element. -/
theorem ringLast_push {tail : Nat} (x : α) (htail : tail < cap) (hused : used ≤ cap) :
    ringLast cap (update data tail x) ((tail + 1) % cap) (if used < cap then used + 1 else used) =
      (ringLast cap data tail used ++ [x]).rtake cap := by
  -- the elements that stay, at most `cap - 1` of them
  obtain ⟨k, hk, hlost⟩ : ∃ k, (if used < cap then used + 1 else used) = k + 1 ∧
      used - k = used + 1 - cap ∧ k ≤ used ∧ k < cap := by
    split
    · exact ⟨used, rfl, by omega⟩
    · exact ⟨used - 1, by omega, by omega⟩
  have hnext : ((tail + 1) % cap + cap - (k + 1)) % cap = (tail + cap - k) % cap := by
    rcases Nat.lt_or_ge (tail + 1) cap with h | h
    · rw [Nat.mod_eq_of_lt h]
      congr 1
      omega
    · rw [show tail + 1 =
        cap by omega, Nat.mod_self, show tail + cap - k = cap + (0 + cap - (k + 1)) by omega,
        Nat.add_mod_left]
  have hstore : update data tail x =
      ringPut cap data ((tail + cap - k) % cap + k) 1 fun _ => x := by
    have hslot : ((tail + cap - k) % cap + k + 0) % cap = tail := by
      rw [Nat.add_zero, Nat.mod_add_mod, Nat.sub_add_cancel (by omega), Nat.add_mod_right,
        Nat.mod_eq_of_lt htail]
    rw [ringPut, forRange, forRange, hslot]
  have hkeep : ringList cap data ((tail + cap - k) % cap) k =
      (ringLast cap data tail used).drop (used - k) := by
    rw [ringLast, ← ringList_drop, Nat.mod_add_mod, Nat.sub_sub_self hlost.2.1]
    congr 2
    omega
  rw [hk, ringLast, hnext, hstore, ringList_put _ (by omega), hkeep, rtake,
    length_append, ringLast, length_ringList, length_singleton, hlost.1,
    drop_append_of_le_length (by rw [length_ringList]; omega)]
  rfl

/-- The loop `for (i = 0; i < n; ++i) data[i] = f(i)`. -/
theorem forRange_update (n : Nat) (f : Nat → α) (i : Nat) :
    forRange n (fun i data => update data i (f i)) data i =
      if i < n then f i else data i := by
  induction n with
  | zero => rfl
  | succ n ih =>
    rw [forRange, update_apply, ih]
    grind

end

end MiniCore.Lib
