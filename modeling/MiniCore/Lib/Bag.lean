import Mathlib.Algebra.BigOperators.Group.List.Basic
import Mathlib.Algebra.BigOperators.Group.Multiset.Basic
import Mathlib.Data.Multiset.UnionInter
import Mathlib.Logic.Function.Basic

/-!
# MiniCore.Lib.Bag

What a list of owners holds together.  Each owner holds a bag of numbers (page
frames, references to files); an owner that changes, moves or joins changes the
sum by its own bag only.
-/

namespace MiniCore.Lib

open List

/-- What an optional number contributes. -/
def bag : Option Nat → Multiset Nat
  | none => 0
  | some p => {p}

@[simp] theorem bag_none : bag none = 0 := rfl

@[simp] theorem bag_some (p : Nat) : bag (some p) = {p} := rfl

@[simp] theorem mem_bag {p : Nat} {o : Option Nat} : p ∈ bag o ↔ o = some p := by
  cases o with
  | none => simp
  | some q => simp [eq_comm]

theorem count_bag (p : Nat) (o : Option Nat) : (bag o).count p = if o = some p then 1 else 0 := by
  cases o with
  | none => rfl
  | some q =>
    rw [bag_some, Multiset.count_singleton]
    by_cases hq : p = q
    · simp [hq]
    · simp [hq, Ne.symm hq]

/-- A sum of bags counts as the list does. -/
theorem count_sum_bag (p : Nat) (l : List (Option Nat)) :
    ((l.map bag).sum).count p = l.count (some p) := by
  induction l with
  | nil => rfl
  | cons o l ih =>
    rw [map_cons, sum_cons, Multiset.count_add, ih, count_bag, count_cons, add_comm]
    simp

theorem mem_sum_map_bag {p : Nat} {l : List (Option Nat)} : p ∈ (l.map bag).sum ↔ some p ∈ l := by
  rw [← Multiset.count_pos, count_sum_bag, count_pos_iff]

/-! ## Sums over a list of owners -/

variable {α : Type} (f : α → Multiset Nat)

theorem mem_sum_map {p : Nat} {l : List α} : p ∈ (l.map f).sum ↔ ∃ a ∈ l, p ∈ f a := by
  induction l with
  | nil => simp
  | cons a l ih => simp [Multiset.mem_add, ih]

/-- What is held once is held by one owner. -/
theorem owner_unique {l : List α} (hnd : ((l.map f).sum).Nodup) {a b : α} (ha : a ∈ l) (hb : b ∈ l)
    {p : Nat} (hpa : p ∈ f a) (hpb : p ∈ f b) : a = b ∧ (f a).Nodup := by
  induction l with
  | nil => simp at ha
  | cons c l ih =>
    rw [map_cons, sum_cons, Multiset.nodup_add] at hnd
    obtain ⟨hc, hl, hdisj⟩ := hnd
    have hout : ∀ {x}, x ∈ l → p ∈ f x → p ∉ f c := fun {x} hx hpx hpc =>
      Multiset.disjoint_left.mp hdisj hpc ((mem_sum_map f).mpr ⟨x, hx, hpx⟩)
    rcases List.mem_cons.mp ha with rfl | hal
    · rcases List.mem_cons.mp hb with rfl | hbl
      · exact ⟨rfl, hc⟩
      · exact absurd hpa (hout hbl hpb)
    · rcases List.mem_cons.mp hb with rfl | hbl
      · exact absurd hpb (hout hal hpa)
      · exact ih hl hal hbl

theorem sum_eraseIdx {l : List α} {i : Nat} {x : α} (h : l[i]? = some x) :
    (l.map f).sum = f x + ((l.eraseIdx i).map f).sum := by
  obtain ⟨hi, rfl⟩ := List.getElem?_eq_some_iff.mp h
  rw [((getElem_cons_eraseIdx_perm hi).map f).sum_eq.symm, map_cons, sum_cons]

theorem sum_set {l : List α} {i : Nat} (h : i < l.length) (y : α) :
    ((l.set i y).map f).sum = f y + ((l.eraseIdx i).map f).sum := by
  rw [((set_perm_cons_eraseIdx h y).map f).sum_eq, map_cons, sum_cons]

/-- Moving an element over an empty one leaves the sum alone. -/
theorem sum_move {l : List α} {i j : Nat} {x y z : α} (hi : l[i]? = some x) (hj : l[j]? = some z)
    (hij : i ≠ j) (hz : f z = 0) (hy : f y = 0) :
    (((l.set j x).set i y).map f).sum = (l.map f).sum := by
  obtain ⟨hjl, _⟩ := List.getElem?_eq_some_iff.mp hj
  have hi' : (l.set j x)[i]? = some x := by rw [getElem?_set_ne (Ne.symm hij), hi]
  obtain ⟨hil, _⟩ := List.getElem?_eq_some_iff.mp hi'
  have htwice := (sum_set f hjl x).symm.trans (sum_eraseIdx f hi')
  rw [sum_set f hil, sum_eraseIdx f hj, hy, hz, add_left_cancel htwice]

theorem sum_moveNew {l : List α} {i : Nat} {x y : α} (hi : l[i]? = some x) (hy : f y = 0) :
    ((l.set i y ++ [x]).map f).sum = (l.map f).sum := by
  obtain ⟨hil, _⟩ := List.getElem?_eq_some_iff.mp hi
  rw [map_append, sum_append, sum_set f hil, sum_eraseIdx f hi, hy, zero_add]
  simp [add_comm]

/-! ## Owners at addresses -/

variable {β : Type} {l : List Nat} {owner : Nat → β} {n : Nat} {x : β} (g : β → Multiset Nat)

theorem sum_map_congr {owner' : Nat → β} (h : ∀ k ∈ l, g (owner' k) = g (owner k)) :
    (l.map fun k => g (owner' k)).sum = (l.map fun k => g (owner k)).sum :=
  congrArg sum (map_congr_left h)

theorem sum_map_update_of_not_mem (hn : n ∉ l) :
    (l.map fun k => g (Function.update owner n x k)).sum = (l.map fun k => g (owner k)).sum :=
  sum_map_congr g fun k hk => by rw [Function.update_of_ne (ne_of_mem_of_not_mem hk hn)]

/-- An owner that changes changes the sum by its own bag. -/
theorem sum_map_update (hnd : l.Nodup) (hn : n ∈ l) :
    (l.map fun k => g (Function.update owner n x k)).sum + g (owner n) =
      (l.map fun k => g (owner k)).sum + g x := by
  induction l with
  | nil => simp at hn
  | cons k l ih =>
    rw [nodup_cons] at hnd
    rw [map_cons, sum_cons, map_cons, sum_cons]
    by_cases hk : n = k
    · rw [← hk, Function.update_self, sum_map_update_of_not_mem g (hk ▸ hnd.1), add_comm,
        add_comm (g x), add_assoc]
    rw [Function.update_of_ne (Ne.symm hk), add_assoc, add_assoc]
    have hn' : n ∈ l := (List.mem_cons.mp hn).resolve_left hk
    rw [ih hnd.2 hn']

end MiniCore.Lib
