import MiniCore.Kernel.RunQueues
import Mathlib.Data.List.Perm.Subperm

/-!
# MiniCore.Kernel.Scheduling

The scheduler of the source refines `RunQueues`: its rings hold the sequences
(`Represents`), every loop that follows their pointers ends, and each operation
does to the rings what its counterpart does to the sequences.
-/

namespace MiniCore

open Lib List

variable {a : RunQueues} {roots : Option Nat → Nat} {timely : Prop} {run : Bool}
  {pending : Option Nat} {t fuel : Nat} {l : List Nat}

/-- The rings of `s` hold the sequences of `a`. -/
structure Represents (s : Scheduler) (a : RunQueues) : Prop where
  core : s.toCore = a.toCore
  all : s.allLinks.Ring none (a.all.map some)
  waiting : ∀ q, s.waitLinks.Ring (.queue q) ((a.waiting q).map .thread)

namespace Represents

variable {s : Scheduler}

theorem nodup (h : Represents s a) : a.all.Nodup :=
  List.Nodup.of_map some (List.nodup_cons.mp h.all.nodup).2

/-! ## Selecting a thread -/

section

variable {start e : Option Nat}

theorem scan_succ (ht : s.eligible t = false) : s.scan start (fuel + 1) (some t) =
      if s.allLinks.next (some t) = start then some none
      else s.scan start fuel (s.allLinks.next (some t)) := by
  simp [Scheduler.scan, ht]

/-- The loop of `pick_next` stops at the first eligible thread of a stretch of
the ring, if the stretch does not lead back to where the loop started. -/
theorem scan_found {u : Nat} (hpath : s.allLinks.Path (some t) (l.map some) e)
    (hstart : start ∉ l.map some) (hfuel : l.length < fuel)
    (hfind : (t :: l).find? s.eligible = some u) : s.scan start fuel (some t) = some (some u) := by
  induction l generalizing t fuel with
  | nil =>
    obtain ⟨fuel, rfl⟩ : ∃ n, fuel = n + 1 := ⟨fuel - 1, by omega⟩
    grind [Scheduler.scan]
  | cons v l ih =>
    obtain ⟨fuel, rfl⟩ : ∃ n, fuel = n + 1 := ⟨fuel - 1, by omega⟩
    have hnext : s.allLinks.next (some t) = some v := hpath.next_eq
    cases ht : s.eligible t with
    | true => grind [Scheduler.scan]
    | false =>
      have hne : some v ≠ start := by grind
      rw [scan_succ ht, hnext, if_neg hne]
      exact ih hpath.2 (by grind) (by simpa using hfuel) (by simpa [ht] using hfind)

/-- Without one it stops where it started, or goes on behind the stretch. -/
theorem scan_passed (hpath : s.allLinks.Path (some t) (l.map some) e)
    (hstart : start ∉ l.map some) (hfuel : l.length < fuel)
    (hfind : (t :: l).find? s.eligible = none) : s.scan start fuel (some t) =
      if e = start then some none else s.scan start (fuel - (l.length + 1)) e := by
  induction l generalizing t fuel with
  | nil =>
    obtain ⟨fuel, rfl⟩ : ∃ n, fuel = n + 1 := ⟨fuel - 1, by omega⟩
    have hnext : s.allLinks.next (some t) = e := hpath.next_eq
    have ht : s.eligible t = false := by simpa using hfind
    rw [scan_succ ht, hnext]
    rfl
  | cons v l ih =>
    obtain ⟨fuel, rfl⟩ : ∃ n, fuel = n + 1 := ⟨fuel - 1, by omega⟩
    have hnext : s.allLinks.next (some t) = some v := hpath.next_eq
    have ht : s.eligible t = false := by grind
    have hne : some v ≠ start := by grind
    rw [scan_succ ht, hnext, if_neg hne, ih hpath.2 (by grind) (by simpa using hfuel) (by grind),
      length_cons, Nat.add_sub_add_right]

end

/-- A round that begins at the list head steps over it. -/
theorem scan_head {start : Option Nat} (hnext : s.allLinks.next none = some t) :
    s.scan start fuel none = s.scan start fuel (some t) := by
  cases fuel <;> simp [Scheduler.scan, hnext]

variable (h : Represents s a)

include h

theorem all_append {pre post : List Nat} {c : Nat} (hall : a.all = pre ++ c :: post) :
    s.allLinks.Path none (pre.map some) (some c) ∧
      s.allLinks.Path (some c) (post.map some) none := by
  have hpath := h.all.path
  rwa [hall, map_append, map_cons, Links.path_append] at hpath

/-- The ring read from its head up to the current thread and one link on. -/
theorem front_path {pre post : List Nat} {c : Nat} (hall : a.all = pre ++ c :: post) :
    ∃ b l, pre ++ [c] = b :: l ∧ s.allLinks.next none = some b ∧
      s.allLinks.Path (some b) (l.map some) (s.allLinks.next (some c)) := by
  obtain ⟨hpre, hpost⟩ := h.all_append hall
  have hlink : s.allLinks.Path (some c) [] (s.allLinks.next (some c)) := by
    refine ⟨rfl, ?_⟩
    cases post with
    | nil => exact hpost.1 ▸ hpost.2
    | cons p post => exact hpost.1.1 ▸ hpost.1.2
  have hfront : s.allLinks.Path none ((pre ++ [c]).map some) (s.allLinks.next (some c)) := by
    rw [map_append, map_singleton, Links.path_append]
    exact ⟨hpre, hlink⟩
  cases hl : pre ++ [c] with
  | nil => simp at hl
  | cons b l =>
    rw [hl] at hfront
    exact ⟨b, l, rfl, hfront.1.1, hfront.2⟩

/-- What `pick_next` makes of the result of its loop. -/
theorem pickNext_of_scan (hl : RunQueues.rotation a.all a.current = l) (hc : a.current ∈ l)
    (hscan : s.scan (s.allLinks.next (some a.current)) fuel (s.allLinks.next (some a.current)) =
      some (l.find? a.eligible)) : s.pickNext fuel = some a.pick := by
  have hcore := h.core
  have hcur : s.current = a.current := congrArg Core.current hcore
  have hidle : s.idleThread = a.idleThread := congrArg Core.idleThread hcore
  have helig : s.eligible a.current = a.eligible a.current := congrArg (Core.eligible · _) hcore
  rw [Scheduler.pickNext, hcur, hscan, RunQueues.pick, hl]
  cases hfound : l.find? a.eligible with
  | some t => simp
  | none =>
    have hnone : a.eligible a.current = false := by
      have := List.find?_eq_none.mp hfound a.current hc
      simpa using this
    simp [helig, hidle, hnone]

/-- **`pick_next` ends, and returns the first eligible thread in turn.** -/
theorem pickNext_eq (hcur : a.current ∈ a.all) (hfuel : a.all.length < fuel) :
    s.pickNext fuel = some a.pick := by
  have helig : s.eligible = a.eligible := congrArg Core.eligible h.core
  obtain ⟨pre, post, hall, hpre⟩ := eq_append_cons_of_mem hcur
  obtain ⟨b, l, hfront, hb, hpath⟩ := h.front_path hall
  obtain ⟨-, hpost⟩ := h.all_append hall
  have hrot : RunQueues.rotation a.all a.current = post ++ (b :: l) := by
    rw [hall, RunQueues.rotation_append hpre, append_assoc, hfront]
  have hmem : a.current ∈ post ++ (b :: l) := by simp [← hfront]
  have hlen : a.all.length = post.length + (l.length + 1) := by
    have := congrArg length hfront
    simp [hall] at this ⊢
    omega
  have hnd : (post ++ (b :: l)).Nodup := by
    have := h.nodup
    rw [hall] at this
    rw [← hfront]
    grind
  cases post with
  | nil =>
    -- the current thread is the last one: the loop starts at the list head
    have hstart : s.allLinks.next (some a.current) = none := hpost.1
    rw [hstart] at hpath
    refine h.pickNext_of_scan hrot hmem ?_
    rw [hstart, scan_head hb, nil_append]
    cases hf : (b :: l).find? a.eligible with
    | some u => exact scan_found hpath (by simp) (by omega) (helig ▸ hf)
    | none => rw [scan_passed hpath (by simp) (by omega) (helig ▸ hf), if_pos rfl]
  | cons p post =>
    have hstart : s.allLinks.next (some a.current) = some p := hpost.1.1
    rw [hstart] at hpath
    have hp : some p ∉ post.map some := by grind
    have hp' : some p ∉ l.map some := by grind
    refine h.pickNext_of_scan hrot hmem ?_
    rw [hstart, find?_append]
    cases hf : (p :: post).find? a.eligible with
    | some u => exact scan_found hpost.2 hp (by simp at hlen; omega) (helig ▸ hf)
    | none =>
      rw [scan_passed hpost.2 hp (by simp at hlen; omega) (helig ▸ hf), if_neg (by simp),
        scan_head hb, Option.none_or]
      cases hf' : (b :: l).find? a.eligible with
      | some u => exact scan_found hpath hp' (by simp at hlen; omega) (helig ▸ hf')
      | none =>
        rw [scan_passed hpath hp' (by simp at hlen; omega) (helig ▸ hf'), if_pos rfl]

omit h in
theorem length_le {n : Nat} (hnd : l.Nodup) (hlt : ∀ t ∈ l, t < n) : l.length ≤ n := by
  have hsub : l ⊆ range n := fun t ht => List.mem_range.mpr (hlt t ht)
  simpa using (subperm_of_subset hnd hsub).length_le

omit h in
theorem switch (roots : Option Nat → Nat) (h : Represents s a) (hshape : a.Shape) :
    ∃ s', s.schedulerSwitch roots = some s' ∧ Represents s' (a.switch roots) := by
  have hcore := h.core
  have hcreated : s.created = a.created := congrArg Core.created hcore
  have hlen := length_le hshape.nodup hshape.lt
  rw [Scheduler.schedulerSwitch, h.pickNext_eq hshape.current_mem (by omega)]
  exact ⟨_, rfl, congrArg (Core.dispatch roots a.pick) hcore, h.all, h.waiting⟩

/-! ## Wait queues -/

section

variable (hinv : a.Inv timely run pending)

include hinv

omit h in
/-- Distinct queues hold distinct nodes. -/
theorem not_mem_queue {q q' : Nat} {x : WaitNode} (hq : q' ≠ q)
    (hx : x ∈ WaitNode.queue q' :: (a.waiting q').map .thread) :
    x ∉ WaitNode.queue q :: (a.waiting q).map .thread := by
  intro hx'
  simp only [mem_cons, mem_map] at hx hx'
  rcases hx with rfl | ⟨t, ht, rfl⟩
  · simp_all
  rcases hx' with hx' | ⟨u, hu, hut⟩
  · simp at hx'
  · obtain rfl : u = t := by simpa using hut
    exact hq ((hinv.threads u (hinv.shape.queue_mem q u hu)).queue_unique q' q ht hu)

omit hinv in
theorem block (hinv : a.Inv timely true pending) (q : Nat) :
    Represents (s.blockCurrent q) (a.block q) := by
  have hcore := h.core
  have hcur : s.current = a.current := congrArg Core.current hcore
  have hout : ∀ q', WaitNode.thread a.current ∉ WaitNode.queue q' :: (a.waiting q').map
      .thread := by
    intro q'
    simpa using hinv.current_not_queued q'
  refine ⟨?_, h.all, ?_⟩
  · simp [Scheduler.blockCurrent, RunQueues.block, hcore]
  intro q'
  simp only [Scheduler.blockCurrent, RunQueues.block, hcur]
  by_cases hq : q' = q
  · subst hq
    simpa using (h.waiting q').pushBack (hout q')
  rw [Function.update_of_ne hq]
  refine (h.waiting q').congr fun x hx => ?_
  exact (h.waiting q).pushBack_frame (not_mem_queue hinv hq hx) fun heq => hout q' (heq ▸ hx)

/-- Waking the first sleeper takes its node off the ring. -/
theorem wakeFirst {q : Nat} {rest : List Nat} (hq : a.waiting q = t :: rest) :
    s.waitQueueWakeOne q = (true, s.wakeNode (.thread t)) ∧
      Represents (s.wakeNode (.thread t))
        { a with toCore := a.toCore.wake t, waiting := Function.update a.waiting q rest } := by
  have hring := h.waiting q
  rw [hq, map_cons] at hring
  have hne : ¬ s.waitLinks.isEmpty (.queue q) = true := by simp [hring.isEmpty_iff]
  refine ⟨?_, ?_, h.all, ?_⟩
  · rw [Scheduler.waitQueueWakeOne, if_neg hne, hring.next_head]
    rfl
  · exact congrArg (Core.wake · t) h.core
  intro q'
  by_cases hqq : q' = q
  · subst hqq
    simpa [Scheduler.wakeNode] using Links.Ring.remove (l := []) hring
  have hframe : ∀ x ∈ WaitNode.queue q' :: (a.waiting q').map .thread,
      x ∉ WaitNode.queue q :: (WaitNode.thread t :: rest.map .thread) := by
    intro x hx
    have := not_mem_queue hinv hqq hx
    rwa [hq] at this
  simp only [Function.update_of_ne hqq]
  exact (h.waiting q').congr fun x hx => Links.Ring.remove_frame (l := []) hring (hframe x hx)

theorem wakeOne (q : Nat) : Represents (s.waitQueueWakeOne q).2 (a.wakeOne q) := by
  cases hq : a.waiting q with
  | nil =>
    have hring := h.waiting q
    rw [hq] at hring
    have hempty : s.waitLinks.isEmpty (.queue q) = true := hring.isEmpty_iff.mpr rfl
    rwa [RunQueues.wakeOne_nil hq, Scheduler.waitQueueWakeOne, if_pos hempty]
  | cons t rest =>
    obtain ⟨heq, hrep⟩ := h.wakeFirst hinv hq
    rw [RunQueues.wakeOne_cons hq, heq]
    exact hrep

theorem wakeAll (q fuel : Nat) (hfuel : (a.waiting q).length < fuel) :
    ∃ s', s.waitQueueWakeAll q fuel = some s' ∧ Represents s' (a.wakeAll q) := by
  generalize hq : a.waiting q = l at hfuel
  induction l generalizing s a fuel with
  | nil =>
    obtain ⟨fuel, rfl⟩ : ∃ n, fuel = n + 1 := ⟨fuel - 1, by omega⟩
    have hring := h.waiting q
    rw [hq] at hring
    have hempty : s.waitLinks.isEmpty (.queue q) = true := hring.isEmpty_iff.mpr rfl
    refine ⟨s, ?_, ?_⟩
    · simp [Scheduler.waitQueueWakeAll, Scheduler.waitQueueWakeOne, hempty]
    · rwa [RunQueues.wakeAll_nil hq]
  | cons t rest ih =>
    obtain ⟨fuel, rfl⟩ : ∃ n, fuel = n + 1 := ⟨fuel - 1, by omega⟩
    obtain ⟨heq, hrep⟩ := h.wakeFirst hinv hq
    rw [Scheduler.waitQueueWakeAll, heq, RunQueues.wakeAll_cons hq]
    exact ih hrep (hinv.wakeFirst hq) _ (by simp) (by simpa using hfuel)

end

/-! ## The clock -/

omit h in
theorem wakeTimedFrom {node : Option Nat} (fuel : Nat)
    (hpath : s.allLinks.Path node (l.map some) none) (hfuel : l.length ≤ fuel) :
    Scheduler.wakeTimedFrom fuel (s.allLinks.next node) s =
      some { s with toCore := l.foldl Core.wakeTimed s.toCore } := by
  induction l generalizing s fuel node with
  | nil =>
    have hnext : s.allLinks.next node = none := hpath.next_eq
    rw [hnext]
    cases fuel <;> simp [Scheduler.wakeTimedFrom]
  | cons t l ih =>
    obtain ⟨fuel, rfl⟩ : ∃ n, fuel = n + 1 := ⟨fuel - 1, by simp at hfuel; omega⟩
    have hnext : s.allLinks.next node = some t := hpath.next_eq
    rw [hnext, Scheduler.wakeTimedFrom]
    exact ih (s := { s with toCore := s.toCore.wakeTimed t }) fuel hpath.2 (by simpa using hfuel)

theorem tick (hinv : a.Inv timely true none) :
    ∃ s', s.schedulerTick roots = some s' ∧ Represents s' (a.perform roots .tick) := by
  have hcore := h.core
  have hcreated : s.created = a.created := congrArg Core.created hcore
  have hlen := length_le hinv.shape.nodup hinv.shape.lt
  have hloop := wakeTimedFrom (s := { s with tickCount := (s.tickCount + 1) % 2 ^ 64 })
    s.created h.all.path (by simpa [hcreated] using hlen)
  have hrep : Represents { s with
      toCore := (a.all.foldl Core.wakeTimed
        { s.toCore with tickCount := (s.tickCount + 1) % 2 ^ 64 }).preempt }
      { a.advance with toCore := a.advance.toCore.preempt } := by
    refine ⟨?_, h.all, h.waiting⟩
    rw [hcore]
    rfl
  obtain ⟨s', hs', hrep'⟩ := hrep.switch roots hinv.advance.preempt.shape
  refine ⟨s', ?_, hrep'⟩
  rw [Scheduler.schedulerTick, hloop]
  exact hs'

/-! ## Creating and freeing threads -/

theorem create (hshape : a.Shape) (process : Option Nat) (grant : Scheduler.Grant) :
    Represents (s.createThread process false grant).2 (a.create process grant) := by
  cases grant with
  | noRecord => exact h
  | noStack => exact h
  | stack page =>
    have hcore := h.core
    have hcreated : s.created = a.created := congrArg Core.created hcore
    have hfresh : a.created ∉ a.all := fun hmem => Nat.lt_irrefl _ (hshape.lt _ hmem)
    have hout : some a.created ∉ none :: a.all.map some := by simpa using hfresh
    refine ⟨congrArg (Core.newThread process false page) hcore, ?_, ?_⟩
    · have hinit : (s.allLinks.init (some a.created)).Ring none (a.all.map some) :=
        h.all.congr fun x hx => Links.init_frame fun heq => hout (heq ▸ hx)
      simpa [Scheduler.createThread, RunQueues.create, hcreated] using hinit.pushBack hout
    intro q
    refine (h.waiting q).congr fun x hx => Links.init_frame ?_
    rintro rfl
    have hin : a.created ∈ a.waiting q := by simpa [hcreated] using hx
    exact hfresh (hshape.queue_mem q _ hin)

theorem foldlM_wakeAll (hinv : a.Inv timely run pending) (qs : List Nat) :
    ∃ s', qs.foldlM (fun s q => s.waitQueueWakeAll q (s.created + 1)) s = some s' ∧
      Represents s' (qs.foldl (fun a q => a.wakeAll q) a) := by
  induction qs generalizing s a with
  | nil => exact ⟨s, rfl, h⟩
  | cons q qs ih =>
    have hcreated : s.created = a.created := congrArg Core.created h.core
    have hnd : (a.waiting q).Nodup := by
      refine List.nodup_iff_count_le_one.mpr fun t => ?_
      by_cases ht : t ∈ a.waiting q
      · exact (hinv.threads t (hinv.shape.queue_mem q t ht)).queue_once q
      · simp [List.count_eq_zero.mpr ht]
    have hlen := length_le hnd fun t ht => hinv.shape.lt t (hinv.shape.queue_mem q t ht)
    obtain ⟨u, hu, hrep⟩ := h.wakeAll hinv q (s.created + 1) (by omega)
    obtain ⟨s', hs', hrep'⟩ := ih hrep (hinv.wakeAll q)
    refine ⟨s', ?_, hrep'⟩
    rw [foldlM_cons, hu]
    exact hs'

/-- The thread's node leaves the ring. -/
theorem release (ht : t ∈ a.all) : Represents { s with
      toCore := s.toCore.record (.stackFreed t (s.threads t).stackPage)
      allLinks := s.allLinks.remove (some t) } (a.release t) := by
  refine ⟨?_, ?_, h.waiting⟩
  · rw [h.core]
    rfl
  obtain ⟨l, m, hall, hl⟩ := eq_append_cons_of_mem ht
  have hring := h.all
  rw [hall, map_append, map_cons] at hring
  have herase : a.all.erase t = l ++ m := by
    rw [hall, erase_append_right _ hl, erase_cons_head]
  show (s.allLinks.remove (some t)).Ring none ((a.all.erase t).map some)
  rw [herase, map_append]
  exact hring.remove

theorem recorded (e : SchedEvent) :
    Represents { s with toCore := s.toCore.record e } { a with toCore := a.toCore.record e } :=
  ⟨congrArg (Core.record · e) h.core, h.all, h.waiting⟩

theorem processReaped (hinv : a.Inv timely run pending) (wakes : Nat → List Nat)
    (process : Option Nat) : ∃ s', s.processThreadReaped wakes process = some s' ∧
      Represents s' (a.processReaped wakes process) := by
  cases process with
  | none => exact ⟨s, rfl, h⟩
  | some p => exact (h.recorded (.processReaped p)).foldlM_wakeAll (hinv.recorded rfl) (wakes p)

theorem reapThread (hinv : a.Inv timely run none) (wakes : Nat → List Nat) (ht : t ∈ a.all) :
    ∃ s', s.reapThread wakes t = some s' ∧ Represents s' (a.reapThread wakes t) := by
  have hreapable : s.reapable t = a.reapable t := congrArg (Core.reapable · t) h.core
  have hprocess : (s.threads t).process = (a.threads t).process :=
    congrArg (fun c => (Core.threads c t).process) h.core
  unfold Scheduler.reapThread RunQueues.reapThread
  rw [hreapable]
  by_cases hreap : a.reapable t = true
  · obtain ⟨s', hs', hrep⟩ :=
      (h.release ht).processReaped (hinv.release ht hreap) wakes (a.threads t).process
    simp only [hreap, if_true]
    refine ⟨_, ?_, hrep.recorded (.recordFreed t)⟩
    show (Scheduler.processThreadReaped wakes _ (s.threads t).process).map _ = _
    rw [hprocess, hs']
    rfl
  · simp only [hreap]
    exact ⟨s, rfl, h⟩

/-- The loop of `scheduler_reap` on the rest `l` of the list: the link it
follows was read before the body could remove the node. -/
theorem reapFrom (hinv : a.Inv timely run none) (wakes : Nat → List Nat)
    (done : List Nat) (hall : a.all = done ++ l) (hfuel : l.length ≤ fuel) :
    ∃ s', Scheduler.reapFrom wakes fuel ((l.map some).headD none) s = some s' ∧
      Represents s' (l.foldl (RunQueues.reapThread wakes) a) := by
  induction l generalizing s a fuel done with
  | nil => exact ⟨s, by cases fuel <;> rfl, h⟩
  | cons t l ih =>
    obtain ⟨fuel, rfl⟩ : ∃ n, fuel = n + 1 := ⟨fuel - 1, by simp at hfuel; omega⟩
    have ht : t ∈ a.all := by simp [hall]
    have hnext : s.allLinks.next (some t) = (l.map some).headD none :=
      (h.all_append hall).2.next_eq
    have hdone : t ∉ done := by
      have := hinv.shape.nodup
      rw [hall] at this
      grind
    obtain ⟨u, hu, hrep⟩ := h.reapThread hinv wakes ht
    obtain ⟨hinv', hall'⟩ := hinv.reapThread wakes ht
    have hrest : ∃ done', (a.reapThread wakes t).all = done' ++ l := by
      rw [hall', hall]
      split
      · exact ⟨done, by rw [erase_append_right _ hdone, erase_cons_head]⟩
      · exact ⟨done ++ [t], by simp⟩
    obtain ⟨done', hdone'⟩ := hrest
    obtain ⟨s', hs', hrep'⟩ := ih hrep hinv' done' hdone' (by simpa using hfuel)
    refine ⟨s', ?_, hrep'⟩
    simp only [map_cons, headD_cons, Scheduler.reapFrom, hu, Option.bind_some, hnext]
    exact hs'

theorem reap (hinv : a.Inv timely run none) (wakes : Nat → List Nat) :
    ∃ s', s.schedulerReap wakes = some s' ∧ Represents s' (a.reap wakes) := by
  have hcreated : s.created = a.created := congrArg Core.created h.core
  have hlen := length_le hinv.shape.nodup hinv.shape.lt
  rw [Scheduler.schedulerReap, h.all.next_head]
  exact h.reapFrom hinv wakes [] rfl (by omega)

/-! ## Steps -/

omit h in
/-- **The source's scheduler simulates `RunQueues`**: an operation that is
allowed returns, and leaves the rings as the sequences say. -/
theorem perform (roots : Option Nat → Nat) (h : Represents s a) (hinv : a.Inv timely true none)
    {act : Scheduler.Action} (htimely : timely → RunQueues.Timely a.tickCount act)
    (hidle : act.blocks = true → a.current ≠ a.idleThread) :
    ∃ s', s.perform roots act = some s' ∧ Represents s' (a.perform roots act) := by
  have hcore := h.core
  have hcur : s.current = a.current := congrArg Core.current hcore
  cases act with
  | create process grant => exact ⟨_, rfl, h.create hinv.shape process grant⟩
  | yield =>
    have hrep : Represents { s with toCore := s.toCore.relinquish }
        { a with toCore := a.toCore.relinquish } :=
      ⟨congrArg Core.relinquish hcore, h.all, h.waiting⟩
    exact hrep.switch roots hinv.relinquish.shape
  | sleep ticks =>
    by_cases hpos : ticks = 0
    · have hrep : Represents { s with toCore := s.toCore.relinquish }
          { a with toCore := a.toCore.relinquish } :=
        ⟨congrArg Core.relinquish hcore, h.all, h.waiting⟩
      rw [Scheduler.perform, Scheduler.schedulerSleep, RunQueues.perform, if_pos hpos, if_pos hpos]
      exact hrep.switch roots hinv.relinquish.shape
    have hrep : Represents { s with toCore := s.toCore.startSleep ticks }
        { a with toCore := a.toCore.startSleep ticks } :=
      ⟨congrArg (Core.startSleep ticks) hcore, h.all, h.waiting⟩
    have hblocks : (Scheduler.Action.sleep ticks).blocks = true := by
      simp [Scheduler.Action.blocks, hpos]
    rw [Scheduler.perform, Scheduler.schedulerSleep, RunQueues.perform, if_neg hpos, if_neg hpos]
    exact hrep.switch roots (hinv.startSleep (hidle hblocks) hpos htimely).shape
  | waitSleep q => exact (h.block hinv q).switch roots (hinv.block (hidle rfl) q).shape
  | wakeOne q => exact ⟨_, rfl, h.wakeOne hinv q⟩
  | wakeAll q =>
    obtain ⟨s', hs', hrep⟩ := h.foldlM_wakeAll hinv [q]
    exact ⟨s', by simpa [Scheduler.perform] using hs', hrep⟩
  | tick => exact h.tick hinv
  | exit =>
    have hrep : Represents { s with toCore := s.toCore.setState s.current .dead }
        { a with toCore := a.toCore.setState a.current .dead } :=
      ⟨by rw [hcur, hcore], h.all, h.waiting⟩
    exact hrep.switch roots (hinv.exit (hidle rfl)).shape
  | reap wakes => exact h.reap hinv wakes

theorem step {s' : Scheduler} {act : Scheduler.Action} (hinv : a.Inv timely true none)
    (htimely : timely → RunQueues.Timely a.tickCount act) (hstep : s.step roots act = some s') :
    ∃ a', a.step roots act = some a' ∧ Represents s' a' ∧ a'.Inv timely true none := by
  have hcur : s.current = a.current := congrArg Core.current h.core
  have hth : s.idleThread = a.idleThread := congrArg Core.idleThread h.core
  rw [Scheduler.step, hcur, hth] at hstep
  by_cases hblocks : act.blocks = true ∧ a.current = a.idleThread
  · simp [hblocks] at hstep
  rw [if_neg hblocks] at hstep
  have hidle : act.blocks = true → a.current ≠ a.idleThread := fun hb hi => hblocks ⟨hb, hi⟩
  obtain ⟨u, hu, hrep⟩ := h.perform roots hinv htimely hidle
  obtain rfl : u = s' := by rw [hu] at hstep; simpa using hstep
  exact ⟨_, RunQueues.step_eq_some.mpr ⟨hidle, rfl⟩, hrep, hinv.perform htimely hidle⟩

end Represents

/-! ## What an operation leaves alone -/

namespace RunQueues

/-- Thread `t` is as before, and was not selected. -/
structure Untouched (a a' : RunQueues) (t : Nat) : Prop where
  created : a.created ≤ a'.created
  thread : a'.threads t = a.threads t
  selected : a'.log.count (.selected t) = a.log.count (.selected t)

theorem Untouched.trans {b c : RunQueues} (h : Untouched a b t) (h' : Untouched b c t) :
    Untouched a c t :=
  ⟨Nat.le_trans h.created h'.created, h'.thread.trans h.thread, h'.selected.trans h.selected⟩

theorem untouched_switch (h : Inv a timely false pending) (ht : (a.threads t).state ≠ .runnable) :
    Untouched a (a.switch roots) t := by
  obtain ⟨-, hrun⟩ := h.pick_runnable
  have hne : t ≠ a.pick := fun heq => ht (heq ▸ hrun)
  obtain ⟨satp, hd⟩ := a.toCore.dispatch_eq roots hrun
  rw [RunQueues.switch, hd]
  constructor <;> simp [hne, Ne.symm hne]

/-- The current thread leaves the processor, another one is dispatched. -/
theorem untouched_leave {b : RunQueues} (h : Inv b timely false pending) (hab : Untouched a b t)
    (ht : (a.threads t).state ≠ .runnable) : Untouched a (b.switch roots) t :=
  hab.trans (untouched_switch h (by rwa [hab.thread]))

/-- What waking and reaping leave alone: the threads on no queue stay there and as
they are. -/
structure Kept (a a' : RunQueues) : Prop extends Core.Kept a.toCore a'.toCore where
  aside : ∀ {t}, (∀ q, t ∉ a.waiting q) → a'.threads t = a.threads t ∧ ∀ q, t ∉ a'.waiting q

theorem Kept.refl (a : RunQueues) : Kept a a := ⟨.refl _, fun ht => ⟨rfl, ht⟩⟩

theorem Kept.trans {b c : RunQueues} (h : Kept a b) (h' : Kept b c) : Kept a c where
  toKept := h.toKept.trans h'.toKept
  aside ht := by
    obtain ⟨hfirst, ht⟩ := h.aside ht
    obtain ⟨hrest, ht⟩ := h'.aside ht
    exact ⟨hrest.trans hfirst, ht⟩

theorem kept_foldl {f : RunQueues → Nat → RunQueues} (hf : ∀ a x, Kept a (f a x)) (l : List Nat)
    (a : RunQueues) : Kept a (l.foldl f a) := by
  induction l generalizing a with
  | nil => exact .refl a
  | cons x l ih => exact (hf a x).trans (ih _)

theorem kept_wakeAll (q : Nat) : Kept a (a.wakeAll q) where
  toKept := Core.kept_foldl_wake _ _
  aside ht := by
    refine ⟨Core.foldl_wake_threads (ht q), fun q' => ?_⟩
    by_cases hq : q' = q <;> simp [wakeAll, hq, ht]

theorem kept_reapThread (wakes : Nat → List Nat) (u : Nat) : Kept a (a.reapThread wakes u) := by
  have hrecord {b : RunQueues} {e : SchedEvent} (he : ∀ t, e ≠ .selected t) :
      Kept b { b with toCore := b.toCore.record e } := ⟨Core.kept_record he, fun ht => ⟨rfl, ht⟩⟩
  have hrelease : Kept a (a.release u) := ⟨Core.kept_record (by simp), fun ht => ⟨rfl, ht⟩⟩
  unfold reapThread
  split
  · refine .trans ?_ (hrecord (by simp))
    cases (a.threads u).process with
    | none => exact hrelease
    | some p =>
      exact (hrelease.trans (hrecord (by simp))).trans (kept_foldl (fun _ q => kept_wakeAll q) _ _)
  · exact .refl a

theorem kept_reap (wakes : Nat → List Nat) : Kept a (a.reap wakes) :=
  kept_foldl (fun _ => kept_reapThread wakes) a.all a

/-- **A thread that neither runs nor waits for anything but the clock is left
alone by every operation**, except by the tick it waits for. -/
theorem untouched_perform {act : Scheduler.Action} (h : Inv a timely true none)
    (htimely : timely → Timely a.tickCount act)
    (hidle : act.blocks = true → a.current ≠ a.idleThread) (hlt : t < a.created)
    (hcur : t ≠ a.current) (hstate : (a.threads t).state ≠ .runnable) (hq : ∀ q, t ∉ a.waiting q)
    (hdue : act = .tick → a.dueNext t = false) : Untouched a (a.perform roots act) t := by
  cases act with
  | create process grant =>
    cases grant with
    | noRecord => exact ⟨Nat.le.refl, rfl, rfl⟩
    | noStack => exact ⟨Nat.le.refl, rfl, rfl⟩
    | stack page =>
      constructor <;> simp [perform, create, Core.newThread, Nat.ne_of_lt hlt]
  | yield =>
    refine untouched_leave h.relinquish ?_ hstate
    rw [Core.relinquish, if_pos h.current_running]
    constructor <;> simp [hcur]
  | sleep ticks =>
    by_cases hpos : ticks = 0
    · rw [perform, if_pos hpos]
      refine untouched_leave h.relinquish ?_ hstate
      rw [Core.relinquish, if_pos h.current_running]
      constructor <;> simp [hcur]
    rw [perform, if_neg hpos]
    have hblocks : (Scheduler.Action.sleep ticks).blocks = true := by
      simp [Scheduler.Action.blocks, hpos]
    refine untouched_leave (h.startSleep (hidle hblocks) hpos htimely) ?_ hstate
    constructor <;> simp [Core.startSleep, hcur]
  | waitSleep q =>
    refine untouched_leave (h.block (hidle rfl) q) ?_ hstate
    constructor <;> simp [block, hcur]
  | wakeOne q =>
    rw [perform]
    cases hw : a.waiting q with
    | nil =>
      rw [wakeOne_nil hw]
      exact ⟨Nat.le.refl, rfl, rfl⟩
    | cons u rest =>
      rw [wakeOne_cons hw]
      have hne : t ∉ [u] := by
        have := hq q
        rw [hw] at this
        grind
      have hkept := Core.kept_wake (c := a.toCore) u
      exact ⟨Nat.le_of_eq hkept.created.symm, Core.foldl_wake_threads hne, hkept.selected t⟩
  | wakeAll q =>
    have hkept := kept_wakeAll (a := a) q
    exact ⟨Nat.le_of_eq hkept.created.symm, (hkept.aside hq).1, hkept.selected t⟩
  | tick =>
    have hadv := advanced h.shape.nodup
    have hinv := h.advance
    refine untouched_leave hinv.preempt ?_ hstate
    rw [Core.preempt, if_pos hinv.current_running]
    have hthread : a.advance.threads t = a.threads t := by
      rw [hadv.threads, if_neg (by simp [hdue rfl])]
    constructor
    · simp [hadv.created]
    · simp [hadv.current, hcur, hthread]
    · simp [hadv.log, count_eq_zero]
  | exit =>
    refine untouched_leave (h.exit (hidle rfl)) ?_ hstate
    constructor <;> simp [hcur]
  | reap wakes =>
    have hkept := kept_reap (a := a) wakes
    exact ⟨Nat.le_of_eq hkept.created.symm, (hkept.aside hq).1, hkept.selected t⟩

/-- The reaper takes every dead thread off the list. -/
theorem reaped_foldl {l : List Nat} (h : Inv a timely run none) (wakes : Nat → List Nat)
    (hl : l.Nodup) (hsub : ∀ u ∈ l, u ∈ a.all)
    (ht : t ∈ l ∧ a.reapable t = true ∧ (∀ q, t ∉ a.waiting q) ∨ t ∉ a.all) :
    t ∉ (l.foldl (reapThread wakes) a).all := by
  induction l generalizing a with
  | nil => simpa using ht
  | cons u l ih =>
    obtain ⟨hinv, hall⟩ := h.reapThread wakes (hsub u mem_cons_self)
    have hmem : ∀ x, x ∈ (a.reapThread wakes u).all ↔
        x ∈ a.all ∧ ¬(a.reapable u = true ∧ x = u) := by
      intro x
      rw [hall]
      split <;> simp [*, h.shape.nodup.mem_erase_iff, and_comm]
    refine ih hinv hl.of_cons ?_ ?_
    · intro x hx
      have hne : x ≠ u := fun heq => (List.nodup_cons.mp hl).1 (heq ▸ hx)
      exact (hmem x).mpr ⟨hsub x (mem_cons_of_mem u hx), fun hu => hne hu.2⟩
    rcases ht with ⟨hin, hreap, hq⟩ | hout
    · have hkept := kept_reapThread (a := a) wakes u
      obtain ⟨hthread, hq'⟩ := hkept.aside hq
      have hreap' : (a.reapThread wakes u).reapable t = true := by
        rwa [Core.reapable, hthread, hkept.current]
      grind
    · grind

theorem Inv.dead_reapable (h : Inv a timely true none) (ht : t ∈ a.all)
    (hdead : (a.threads t).state = .dead) : a.reapable t = true ∧ ∀ q, t ∉ a.waiting q := by
  have hok := h.threads t ht
  have hcur : t ≠ a.current := by
    rintro rfl
    simp [h.current_running] at hdead
  have hidle : (a.threads t).idle = false := by
    rw [Bool.eq_false_iff]
    exact fun hi => (hok.idle_up (hok.idle_iff.mp hi)).2 hdead
  exact ⟨by simp [Core.reapable, hcur, hidle, hdead], hok.not_queued (by simp [hdead])⟩

/-- Only a tick moves the clock. -/
theorem perform_tickCount (hnd : a.all.Nodup) (act : Scheduler.Action) :
    (a.perform roots act).tickCount =
      if act.isTick then (a.tickCount + 1) % 2 ^ 64 else a.tickCount := by
  have hrel : a.toCore.relinquish.tickCount = a.tickCount := by
    unfold Core.relinquish
    split <;> rfl
  cases act with
  | create process grant => cases grant <;> rfl
  | yield => exact (Core.dispatch_tickCount ..).trans hrel
  | sleep ticks =>
    rw [perform]
    split
    · exact (Core.dispatch_tickCount ..).trans hrel
    · exact Core.dispatch_tickCount ..
  | waitSleep q => exact Core.dispatch_tickCount ..
  | wakeOne q =>
    rw [perform]
    cases hw : a.waiting q with
    | nil => rw [wakeOne_nil hw]; rfl
    | cons u rest => rw [wakeOne_cons hw]; exact (Core.kept_wake u).tickCount
  | wakeAll q => exact (kept_wakeAll q).tickCount
  | tick =>
    refine (Core.dispatch_tickCount ..).trans ?_
    have hadv := (advanced hnd).tickCount
    rw [← show _ = _ from hadv]
    show (Core.preempt _).tickCount = _
    unfold Core.preempt
    split <;> rfl
  | exit => exact Core.dispatch_tickCount ..
  | reap wakes => exact (kept_reap wakes).tickCount

/-- A tick that a sleeper is due at makes it wait for the processor, and may
even give it the processor. -/
theorem tick_due (h : Inv a timely true none) (ht : t ∈ a.all) (hdue : a.dueNext t = true) :
    ((a.perform roots .tick).threads t).state = .runnable ∨
      ((a.perform roots .tick).threads t).state = .running := by
  have hadv := advanced h.shape.nodup
  have hinv := h.advance
  have hpre := hinv.preempt
  have hsleep := (dueNext_iff.mp hdue).1
  have hcur : t ≠ a.current := by
    rintro rfl
    simp [h.current_running] at hsleep
  have hthread : (a.advance.threads t).state = .runnable := by
    rw [hadv.threads, if_pos ⟨ht, hdue⟩]
  have hpreempt : (a.advance.toCore.preempt.threads t).state = .runnable := by
    rw [Core.preempt, if_pos hinv.current_running]
    simp [hadv.current, hcur, hthread]
  obtain ⟨-, hrun⟩ := hpre.pick_runnable
  obtain ⟨satp, hd⟩ := Core.dispatch_eq _ roots hrun
  rw [perform, switch, hd]
  simp only [Core.setState_threads, Core.record_threads]
  split
  · exact .inr rfl
  · exact .inl hpreempt

end RunQueues

end MiniCore
