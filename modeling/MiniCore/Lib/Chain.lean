import Mathlib.Logic.Function.Basic

/-!
# MiniCore.Lib.Chain

Null-terminated singly linked lists: `Chain next null head l` says that the
nodes from `head` on are those of `l`, and that `null` ends them.

Only the links of the nodes of `l` matter, so a store to any other node leaves a
chain alone (`Chain.update`); pushing a node stores to the one node that is not
in it yet (`Chain.push`).
-/

namespace MiniCore.Lib

variable {ν : Type} {next : ν → ν} {null head n : ν} {l l' : List ν}

def Chain (next : ν → ν) (null : ν) : ν → List ν → Prop
  | head, [] => head = null
  | head, n :: l => head = n ∧ n ≠ null ∧ Chain next null (next n) l

variable (h : Chain next null head l)

include h

theorem Chain.eq_null_iff : head = null ↔ l = [] := by
  cases l with
  | nil => exact ⟨fun _ => rfl, fun _ => h⟩
  | cons n l =>
    obtain ⟨rfl, hne, -⟩ := h
    simp [hne]

omit h in
theorem Chain.pop (h : Chain next null head (n :: l)) : Chain next null (next head) l := by
  obtain ⟨rfl, -, h⟩ := h
  exact h

/-- Only the links of the listed nodes matter. -/
theorem Chain.congr {next' : ν → ν}
    (heq : ∀ n ∈ l, next' n = next n) : Chain next' null head l := by
  induction l generalizing head with
  | nil => exact h
  | cons m l ih =>
    obtain ⟨rfl, hne, h⟩ := h
    refine ⟨rfl, hne, ?_⟩
    rw [heq _ List.mem_cons_self]
    exact ih h fun n hn => heq n (List.mem_cons_of_mem _ hn)

theorem Chain.update [DecidableEq ν] {v : ν} (hn : n ∉ l) :
    Chain (Function.update next n v) null head l :=
  h.congr fun m hm => Function.update_of_ne (fun heq : m = n => hn (heq ▸ hm)) v next

theorem Chain.push [DecidableEq ν] (hn : n ∉ l) (hne : n ≠ null) :
    Chain (Function.update next n head) null n (n :: l) := by
  refine ⟨rfl, hne, ?_⟩
  rw [Function.update_self]
  exact h.update hn

end MiniCore.Lib
