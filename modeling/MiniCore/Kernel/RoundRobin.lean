import MiniCore.Kernel.SchedulerSafety

/-!
# MiniCore.Kernel.RoundRobin

Threads are served in turn.  `pick_next` ends on every ring a run can build and
returns the first eligible thread behind the current one.  Hence nobody is
overtaken twice: from the moment a thread is made `THREAD_RUNNABLE` until it is
selected, every other thread is selected at most once.

The argument follows the threads *ahead* of the waiting one, those that
`pick_next` would consider before it.  Only they can be selected, a thread that
is selected is no longer ahead, and a thread that is ahead later was ahead
before or is new.
-/

namespace MiniCore

open Lib

variable {all : List Nat} {t : Nat} {roots : Option Nat → Nat}

namespace SchedEvent

/-- The threads selected since `t` began to wait for the processor, the latest
first; `none` when it does not wait. -/
def overtakers (t : Nat) : List SchedEvent → Option (List Nat)
  | [] => none
  | .readied u :: log => if u = t then some ((overtakers t log).getD []) else overtakers t log
  | .selected u :: log => if u = t then none else (overtakers t log).map (u :: ·)
  | _ :: log => overtakers t log

/-- Whatever was selected since `t` was readied is among its overtakers. -/
theorem overtakers_window {t : Nat} {later : List SchedEvent} (earlier : List SchedEvent)
    (h : .selected t ∉ later) : ∃ l, overtakers t (later ++ .readied t :: earlier) = some l ∧
      ∀ u, later.count (.selected u) ≤ l.count u := by
  induction later with
  | nil => exact ⟨(overtakers t earlier).getD [], by simp [overtakers], by simp⟩
  | cons e later ih =>
    obtain ⟨l, hl, hcount⟩ := ih (by grind)
    cases e with
    | readied u =>
      refine ⟨l, ?_, by simpa using hcount⟩
      by_cases hu : u = t <;> simp [overtakers, hl, hu]
    | selected u =>
      have hu : u ≠ t := by grind
      refine ⟨u :: l, by simp [overtakers, hl, hu], fun v => ?_⟩
      have hv := hcount v
      simp only [List.count_cons, beq_iff_eq, SchedEvent.selected.injEq]
      omega
    | stackFreed u page => exact ⟨l, by simp [overtakers, hl], by simpa using hcount⟩
    | processReaped p => exact ⟨l, by simp [overtakers, hl], by simpa using hcount⟩
    | recordFreed u => exact ⟨l, by simp [overtakers, hl], by simpa using hcount⟩

/-- A thread with overtakers was readied and has not been selected since. -/
theorem exists_window {t : Nat} {log : List SchedEvent} (h : (overtakers t log).isSome) :
    ∃ later earlier, log = later ++ .readied t :: earlier ∧ .selected t ∉ later := by
  induction log with
  | nil => simp [overtakers] at h
  | cons e log ih =>
    have hcons : (overtakers t log).isSome → e ≠ .selected t →
        ∃ later earlier, e :: log = later ++ .readied t :: earlier ∧ .selected t ∉ later := by
      intro hlog he
      obtain ⟨later, earlier, rfl, hlater⟩ := ih hlog
      exact ⟨e :: later, earlier, rfl, by grind⟩
    cases e with
    | readied u =>
      by_cases hu : u = t
      · exact ⟨[], log, by simp [hu], by simp⟩
      · exact hcons (by simpa [overtakers, hu] using h) (by simp)
    | selected u =>
      by_cases hu : u = t
      · simp [overtakers, hu] at h
      · exact hcons (by simpa [overtakers, hu] using h) (by simpa using hu)
    | stackFreed u page => exact hcons h (by simp)
    | processReaped p => exact hcons h (by simp)
    | recordFreed u => exact hcons h (by simp)

end SchedEvent

open SchedEvent

namespace RunQueues

variable {l : List Nat} {c n : Nat}

/-! ## The threads ahead -/

/-- The threads considered before `t` when `current` leaves the processor. -/
def ahead (all : List Nat) (current t : Nat) : List Nat :=
  (rotation all current).takeWhile (· ≠ t)

theorem nodup_rotation (hnd : all.Nodup) (hc : c ∈ all) : (rotation all c).Nodup := by
  obtain ⟨pre, post, rfl, hpre⟩ := List.eq_append_cons_of_mem hc
  rw [rotation_append hpre]
  grind

/-- Seen from another thread the order is the same, but starts behind it. -/
theorem rotation_rotate {l' : List Nat} (hnd : all.Nodup) (hc : c ∈ all)
    (h : rotation all c = l ++ n :: l') : rotation all n = l' ++ l ++ [n] := by
  obtain ⟨pre, post, rfl, hpre⟩ := List.eq_append_cons_of_mem hc
  rw [rotation_append hpre, List.append_assoc] at h
  rcases List.append_eq_append_iff.mp h with ⟨mid, rfl, hmid⟩ | ⟨mid, rfl, hmid⟩
  · -- `n` is `c` or stands before it
    rcases List.append_eq_append_iff.mp hmid with ⟨tl, rfl, htl⟩ | ⟨tl, rfl, htl⟩
    · obtain ⟨rfl, rfl, rfl⟩ : tl = [] ∧ c = n ∧ l' = [] := by
        cases tl <;> simp_all
      rw [rotation_append hpre]
      simp
    cases tl with
    | nil =>
      obtain ⟨rfl, rfl⟩ : n = c ∧ l' = [] := by simpa using htl
      rw [rotation_append (by simpa using hpre)]
      simp
    | cons x tl =>
      obtain ⟨rfl, rfl⟩ : n = x ∧ l' = tl ++ [c] := by simpa using htl
      rw [List.append_assoc, List.cons_append, rotation_append (by grind)]
      simp
  -- `n` stands behind `c`
  cases mid with
  | nil =>
    simp only [List.nil_append] at hmid
    cases pre with
    | nil =>
      obtain ⟨rfl, rfl⟩ : n = c ∧ l' = [] := by simpa using hmid
      rw [rotation_append hpre]
      simp
    | cons x pre =>
      obtain ⟨rfl, rfl⟩ : n = x ∧ l' = pre ++ [c] := by simpa using hmid
      rw [List.cons_append, ← List.nil_append (n :: _), rotation_append (by simp)]
      simp
  | cons x mid =>
    obtain ⟨rfl, rfl⟩ : n = x ∧ l' = mid ++ (pre ++ [c]) := by simpa using hmid
    have hsplit : pre ++ c :: (l ++ n :: mid) = (pre ++ c :: l) ++ n :: mid := by simp
    rw [hsplit, rotation_append (by grind)]
    simp

/-- The thread selected was ahead of every other eligible one.  It is no
longer, and nobody else has come ahead. -/
theorem ahead_found {p : Nat → Bool} (hnd : all.Nodup) (hc : c ∈ all)
    (hfound : (rotation all c).find? p = some n) (ht : t ∈ all) (hp : p t = true) (hne : n ≠ t) :
    n ∈ ahead all c t ∧ ∀ u ∈ ahead all n t, u ∈ ahead all c t ∧ u ≠ n := by
  obtain ⟨-, l, l', hsplit, hl⟩ := List.find?_eq_some_iff_append.mp hfound
  have htl : t ∉ l := fun hin => by simpa [hp] using hl t hin
  have htl' : t ∈ l' := by
    have hrot := (mem_rotation hc).mpr ht
    rw [hsplit] at hrot
    grind
  have hfirst : ∀ x ∈ l, decide (x ≠ t) = true := by grind
  have hold : ahead all c t = l ++ n :: l'.takeWhile (· ≠ t) := by
    rw [ahead, hsplit, List.takeWhile_append_of_pos hfirst, List.takeWhile_cons_of_pos
      (by simp [hne])]
  obtain ⟨m, m', rfl, hm⟩ := List.eq_append_cons_of_mem htl'
  have hmfirst : ∀ x ∈ m, decide (x ≠ t) = true := by grind
  have hnew : ahead all n t = m := by
    rw [ahead, rotation_rotate hnd hc hsplit, List.append_assoc, List.append_assoc,
      List.takeWhile_append_of_pos hmfirst]
    simp
  have hrotnd := nodup_rotation hnd hc
  rw [hsplit] at hrotnd
  rw [hold, hnew, List.takeWhile_append_of_pos hmfirst]
  grind

theorem ahead_append (hc : c ∈ all) (ht : t ∈ all) :
    ∀ u ∈ ahead (all ++ [n]) c t, u ∈ ahead all c t ∨ u = n := by
  obtain ⟨pre, post, rfl, hpre⟩ := List.eq_append_cons_of_mem hc
  have hnew : rotation (pre ++ c :: post ++ [n]) c = post ++ ([n] ++ (pre ++ [c])) := by
    rw [List.append_assoc, List.cons_append, rotation_append hpre]
    simp
  intro u hu
  rw [ahead, hnew] at hu
  rw [ahead, rotation_append hpre, List.append_assoc]
  by_cases htpost : t ∈ post
  · obtain ⟨m, m', rfl, hm⟩ := List.eq_append_cons_of_mem htpost
    have hmfirst : ∀ x ∈ m, decide (x ≠ t) = true := by grind
    simp only [List.append_assoc, List.takeWhile_append_of_pos hmfirst, List.cons_append] at hu ⊢
    simp_all
  · have hfirst : ∀ x ∈ post, decide (x ≠ t) = true := by grind
    rw [List.takeWhile_append_of_pos hfirst] at hu ⊢
    simp only [List.singleton_append, List.takeWhile_cons] at hu
    grind

theorem takeWhile_filter_ne {d : Nat} (hdt : d ≠ t) :
    (l.filter (· ≠ d)).takeWhile (· ≠ t) = (l.takeWhile (· ≠ t)).filter (· ≠ d) := by
  induction l with
  | nil => rfl
  | cons x l ih =>
    by_cases hxd : x = d
    · simp_all
    · by_cases hxt : x = t <;> simp_all

theorem ahead_erase {d : Nat} (hnd : all.Nodup) (hc : c ∈ all) (hdc : d ≠ c) (hdt : d ≠ t) :
    ∀ u ∈ ahead (all.erase d) c t, u ∈ ahead all c t := by
  obtain ⟨pre, post, rfl, hpre⟩ := List.eq_append_cons_of_mem hc
  have herase : (pre ++ c :: post).erase d = pre.filter (· ≠ d) ++ c :: post.filter (· ≠ d) := by
    rw [hnd.erase_eq_filter]
    simp [Ne.symm hdc, bne, beq_eq_decide]
  have hrot : rotation ((pre ++ c :: post).erase d) c =
      (rotation (pre ++ c :: post) c).filter (· ≠ d) := by
    rw [herase, rotation_append (by grind), rotation_append hpre]
    simp [Ne.symm hdc]
  intro u hu
  rw [ahead, hrot, takeWhile_filter_ne hdt] at hu
  exact List.mem_of_mem_filter hu

/-! ## The invariant -/

/-- The threads that wait for the processor are those with overtakers, and who
has overtaken one is not ahead of it. -/
structure InTurn (c : Core) (all : List Nat) : Prop where
  runnable_iff : ∀ t, t ∈ all ∧ (c.threads t).state = .runnable ↔ (overtakers t c.log).isSome
  turns : ∀ t l, t ≠ c.idleThread → overtakers t c.log = some l →
    l.Nodup ∧ ∀ u ∈ l, u < c.created ∧ u ∉ ahead all c.current t

variable {c c' : Core} {all' : List Nat} {u : Nat}

section

variable (h : InTurn c all)

include h

/-- A step without a selection: threads may begin to wait, and new threads may
come ahead. -/
theorem InTurn.frame (hcurrent : c'.current = c.current)
    (hidle : c'.idleThread = c.idleThread) (hcreated : c.created ≤ c'.created)
    (hlog : ∀ t, overtakers t c'.log = overtakers t c.log ∨ overtakers t c'.log = some [])
    (hrun : ∀ t, t ∈ all' ∧ (c'.threads t).state = .runnable ↔ (overtakers t c'.log).isSome)
    (hahead : ∀ t, (overtakers t c.log).isSome →
      ∀ u ∈ ahead all' c.current t, u ∈ ahead all c.current t ∨ c.created ≤ u) :
    InTurn c' all' := by
  refine ⟨hrun, fun t l ht hl => ?_⟩
  rcases hlog t with hsame | hnew
  · rw [hsame] at hl
    obtain ⟨hnd, hl'⟩ := h.turns t l (hidle ▸ ht) hl
    refine ⟨hnd, fun u hu => ⟨Nat.lt_of_lt_of_le (hl' u hu).1 hcreated, fun hin => ?_⟩⟩
    rw [hcurrent] at hin
    rcases hahead t (by simp [hl]) u hin with hold | hfresh
    · exact (hl' u hu).2 hold
    · exact Nat.not_le_of_lt (hl' u hu).1 hfresh
  · obtain rfl : l = [] := by simpa [hnew] using hl.symm
    simp

/-- Thread `u` begins to wait. -/
theorem InTurn.ready (hu : u ∈ all) (hstate : (c.threads u).state ≠ .runnable) :
    InTurn (c.ready u) all := by
  have hnone : overtakers u c.log = none := by
    rw [← Option.not_isSome_iff_eq_none, ← h.runnable_iff]
    exact fun hr => hstate hr.2
  refine h.frame rfl rfl Nat.le.refl (fun t => ?_) (fun t => ?_) fun _ _ _ => .inl
  · by_cases htu : u = t
    · subst htu
      simp [overtakers, hnone]
    · simp [overtakers, htu]
  have hold := h.runnable_iff t
  by_cases htu : u = t
  · subst htu
    simp [overtakers, hu]
  · simp [overtakers, htu, Ne.symm htu, hold]

/-- A thread that does not wait changes its state. -/
theorem InTurn.modify {f : Thread → Thread}
    (hold : (c.threads u).state ≠ .runnable) (hnew : (f (c.threads u)).state ≠ .runnable) :
    InTurn (c.modify u f) all := by
  refine h.frame rfl rfl Nat.le.refl (fun _ => .inl rfl) (fun t => ?_) fun _ _ _ => .inl
  have hiff := h.runnable_iff t
  by_cases htu : t = u
  · subst htu
    simp_all
  · simpa [Function.update_apply, htu] using hiff

theorem InTurn.wake (hu : u ∈ all) : InTurn (c.wake u) all := by
  unfold Core.wake
  split
  · exact h.ready hu (by simp [*])
  · exact h

theorem InTurn.foldl_wake (hl : ∀ t ∈ l, t ∈ all) : InTurn (l.foldl Core.wake c) all := by
  induction l generalizing c with
  | nil => exact h
  | cons t l ih => exact ih (h.wake (hl t (by simp))) fun u hu => hl u (by simp [hu])

theorem InTurn.wakeTimed (hu : u ∈ all) : InTurn (c.wakeTimed u) all := by
  unfold Core.wakeTimed
  split
  · have hsleep : (c.threads u).state = .sleeping := by simp_all [Core.due]
    refine (h.modify (u := u) (f := fun thread => { thread with wakeTick := 0 }) ?_ ?_).ready hu
      ?_ <;>
      simp [hsleep]
  · exact h

theorem InTurn.foldl_wakeTimed (hl : ∀ t ∈ l, t ∈ all) : InTurn (l.foldl Core.wakeTimed c) all := by
  induction l generalizing c with
  | nil => exact h
  | cons t l ih => exact ih (h.wakeTimed (hl t (by simp))) fun u hu => hl u (by simp [hu])

theorem InTurn.relinquish (hcur : c.current ∈ all) : InTurn c.relinquish all := by
  unfold Core.relinquish
  split
  · exact h.ready hcur (by simp [*])
  · exact h

theorem InTurn.preempt (hcur : c.current ∈ all) : InTurn c.preempt all := by
  unfold Core.preempt
  split
  · have hready := h.ready hcur (by simp [*])
    exact ⟨hready.runnable_iff, hready.turns⟩
  · exact h

theorem InTurn.create (process : Option Nat) (page : Nat) (hcur : c.current ∈ all)
    (hlt : ∀ t ∈ all, t < c.created) :
    InTurn (c.newThread process false page) (all ++ [c.created]) := by
  have hfresh : c.created ∉ all := fun hin => Nat.lt_irrefl _ (hlt _ hin)
  have hnone : overtakers c.created c.log = none := by
    rw [← Option.not_isSome_iff_eq_none, ← h.runnable_iff]
    exact fun hr => hfresh hr.1
  refine h.frame rfl (by simp [Core.newThread]) (by simp [Core.newThread]) (fun t => ?_)
    (fun t => ?_)
    fun t ht v hv => ?_
  · by_cases ht : c.created = t
    · subst ht
      simp [Core.newThread, overtakers, hnone]
    · simp [Core.newThread, overtakers, ht]
  · have hold := h.runnable_iff t
    by_cases ht : c.created = t
    · subst ht
      simp [Core.newThread, overtakers]
    · simp [Core.newThread, overtakers, ht, Ne.symm ht, hold]
  · have hin := ((h.runnable_iff t).mpr ht).1
    rcases ahead_append hcur hin v hv with hold | rfl
    · exact .inl hold
    · exact .inr Nat.le.refl

/-- An event that neither readies nor selects a thread. -/
theorem InTurn.record {e : SchedEvent} (hr : ∀ t, e ≠ .readied t)
    (hs : ∀ t, e ≠ .selected t) : InTurn (c.record e) all := by
  have hlog : ∀ t, overtakers t (c.record e).log = overtakers t c.log := by
    intro t
    cases e <;> simp_all [overtakers]
  refine h.frame rfl rfl Nat.le.refl (fun t => .inl (hlog t)) (fun t => ?_) fun _ _ _ => .inl
  rw [hlog]
  exact h.runnable_iff t

/-- A thread that does not wait leaves the list. -/
theorem InTurn.erase (hnd : all.Nodup) (hcur : c.current ∈ all)
    (hne : u ≠ c.current) (hstate : (c.threads u).state ≠ .runnable) : InTurn c (all.erase u) := by
  refine h.frame rfl rfl Nat.le.refl (fun _ => .inl rfl) (fun t => ?_) fun t ht v hv => ?_
  · rw [← h.runnable_iff, hnd.mem_erase_iff]
    grind
  have hwaits := (h.runnable_iff t).mpr ht
  have hut : u ≠ t := by
    rintro rfl
    exact hstate hwaits.2
  exact .inl (ahead_erase hnd hcur hne hut v hv)

end

variable {a : RunQueues} {pending : Option Nat} {run : Bool}

section

variable (h : InTurn a.toCore a.all)

include h

/-- **A selection keeps the turns**: who is selected while others wait was
ahead of them all, so it had overtaken none of them yet. -/
theorem InTurn.switch (hinv : Inv a False false pending) :
    InTurn (a.switch roots).toCore a.all := by
  obtain ⟨hmem, hrun⟩ := hinv.pick_runnable
  obtain ⟨satp, hd⟩ := a.toCore.dispatch_eq roots hrun
  have hnd := hinv.shape.nodup
  have hcur := hinv.shape.current_mem
  rw [RunQueues.switch, hd]
  constructor
  · intro t
    have hold := h.runnable_iff t
    by_cases ht : a.pick = t
    · simp [overtakers, ht]
    · simp [overtakers, ht, Ne.symm ht, hold]
  intro t l ht hl
  replace ht : t ≠ a.idleThread := ht
  by_cases hpt : a.pick = t
  · simp [overtakers, hpt] at hl
  simp only [Core.setState_log, Core.record_log, overtakers, if_neg hpt,
    Option.map_eq_some_iff] at hl
  obtain ⟨l, hl, rfl⟩ := hl
  obtain ⟨hlnd, hl'⟩ := h.turns t l ht hl
  obtain ⟨hin, hwaits⟩ := (h.runnable_iff t).mpr (by simp [hl])
  have helig : a.eligible t = true := by
    have hidle : (a.threads t).idle = false := by
      rw [Bool.eq_false_iff]
      exact fun hi => ht ((hinv.threads t hin).idle_iff.mp hi)
    simp [Core.eligible, hwaits, hidle]
  have hfound : (rotation a.all a.current).find? a.eligible = some a.pick := by
    cases hf : (rotation a.all a.current).find? a.eligible with
    | none => exact absurd helig (List.find?_eq_none.mp hf t ((mem_rotation hcur).mpr hin))
    | some n => simp [pick, hf]
  obtain ⟨hpick, hnew⟩ := ahead_found hnd hcur hfound hin helig hpt
  have hfirst : a.pick ∉ l := fun hp => (hl' _ hp).2 hpick
  refine ⟨List.nodup_cons.mpr ⟨hfirst, hlnd⟩, fun u hu => ⟨?_, fun hu' => ?_⟩⟩
  · rcases List.mem_cons.mp hu with rfl | hu
    · exact hinv.shape.lt _ hmem
    · exact (hl' u hu).1
  · obtain ⟨hahead, hne⟩ := hnew u hu'
    exact (hl' u ((List.mem_cons.mp hu).resolve_left hne)).2 hahead

variable (hinv : Inv a False true none)

include hinv

theorem InTurn.reapThread (wakes : Nat → List Nat) (ht : t ∈ a.all) :
    InTurn (a.reapThread wakes t).toCore (a.reapThread wakes t).all := by
  refine hinv.reapThread_induct (P := fun b => InTurn b.toCore b.all) ht h (fun hreap => ?_)
    (fun hr hs hp => hp.record hr hs) fun hb hp => hp.foldl_wake (hb.shape.queue_mem _)
  simp only [Core.reapable, Bool.and_eq_true, decide_eq_true_eq] at hreap
  exact (h.record (e := .stackFreed t (a.threads t).stackPage) (by simp) (by simp)).erase
    hinv.shape.nodup hinv.shape.current_mem hreap.1.1 (by simp [hreap.2])

/-- **Every operation keeps the turns.** -/
theorem InTurn.perform {act : Scheduler.Action}
    (hidle : act.blocks = true → a.current ≠ a.idleThread) :
    InTurn (a.perform roots act).toCore (a.perform roots act).all := by
  have hcur := hinv.shape.current_mem
  have hrunning := hinv.current_running
  have hleave : ∀ state ≠ .runnable, InTurn (a.toCore.setState a.current state) a.all :=
    fun state hne => h.modify (u := a.current) (f := fun thread => { thread with state := state })
      (by simp [hrunning]) hne
  cases act with
  | create process grant =>
    cases grant with
    | noRecord => exact h
    | noStack => exact h
    | stack page => exact h.create process page hcur hinv.shape.lt
  | yield => exact InTurn.switch (h.relinquish hcur) hinv.relinquish
  | sleep ticks =>
    by_cases hpos : ticks = 0
    · rw [RunQueues.perform, if_pos hpos]
      exact InTurn.switch (h.relinquish hcur) hinv.relinquish
    rw [RunQueues.perform, if_neg hpos]
    have hsleep : InTurn (a.toCore.startSleep ticks) a.all :=
      h.modify (by simp [hrunning]) (by simp)
    refine InTurn.switch hsleep (hinv.startSleep (hidle ?_) hpos False.elim)
    simp [Scheduler.Action.blocks, hpos]
  | waitSleep q =>
    exact InTurn.switch (a := a.block q) (hleave .sleeping (by simp)) (hinv.block (hidle rfl) q)
  | wakeOne q =>
    rw [RunQueues.perform]
    cases hw : a.waiting q with
    | nil => rwa [wakeOne_nil hw]
    | cons u rest =>
      rw [wakeOne_cons hw]
      exact h.wake (hinv.shape.queue_mem q u (by simp [hw]))
  | wakeAll q => exact h.foldl_wake (hinv.shape.queue_mem q)
  | tick =>
    have hclock : InTurn { a.toCore with tickCount := (a.tickCount + 1) % 2 ^ 64 } a.all :=
      ⟨h.runnable_iff, h.turns⟩
    have hadv : InTurn a.advance.toCore a.all := hclock.foldl_wakeTimed fun _ => id
    exact InTurn.switch (a := { a.advance with toCore := a.advance.toCore.preempt })
      (hadv.preempt hinv.advance.shape.current_mem) hinv.advance.preempt
  | exit => exact InTurn.switch (hleave .dead (by simp)) (hinv.exit (hidle rfl))
  | reap wakes =>
    exact (hinv.reap (P := fun b => InTurn b.toCore b.all) h fun hb ht hp =>
      hp.reapThread hb wakes ht).2

end

theorem inTurn_start (kernelRoot idleStack : Nat) :
    InTurn (start kernelRoot idleStack).toCore (start kernelRoot idleStack).all := by
  have hlog : (start kernelRoot idleStack).log = [.readied 1] := rfl
  constructor
  · intro t
    rw [hlog]
    by_cases ht : 1 = t
    · subst ht
      simp [overtakers, start, Scheduler.schedulerInit, Scheduler.createThread,
        Scheduler.bootstrapped, Core.newThread]
    · simp [overtakers, ht, Ne.symm ht, start, Scheduler.schedulerInit, Scheduler.createThread,
        Scheduler.bootstrapped, Core.newThread]
  · intro t l ht hl
    replace ht : t ≠ 1 := ht
    rw [hlog] at hl
    simp [overtakers, Ne.symm ht] at hl

end RunQueues

namespace Scheduler

variable {kernelRoot idleStack : Nat} {s : Scheduler}

/-! ## Main result -/

/-- The sequences that a reachable state holds, with nobody overtaken twice. -/
def HoldsInTurn (s : Scheduler) : Prop :=
  ∃ a, Represents s a ∧ a.Inv False true none ∧ RunQueues.InTurn a.toCore a.all

theorem holdsInTurn_of_reach
    (h : Reach (step roots) Always (schedulerInit kernelRoot idleStack) s) : s.HoldsInTurn := by
  refine h.invariant (I := HoldsInTurn) ⟨_, represents_start kernelRoot idleStack,
    RunQueues.inv_start kernelRoot idleStack False, RunQueues.inTurn_start kernelRoot idleStack⟩ ?_
  rintro s act s' ⟨a, hrep, hinv, hturn⟩ - hs
  obtain ⟨a', hstep, hrep', hinv'⟩ := hrep.step hinv False.elim hs
  obtain ⟨hidle, rfl⟩ := RunQueues.step_eq_some.mp hstep
  exact ⟨_, hrep', hinv', hturn.perform hinv hidle⟩

/-- `next` is the thread whose turn it is: the first eligible one in cyclic
order behind `current`, with `current` last, or the idle thread when nobody is
eligible. -/
def HasTurn (c : Core) (all : List Nat) (next : Nat) : Prop :=
  (next ≠ c.idleThread → ∃ before after, RunQueues.rotation all c.current = before ++
    next :: after ∧ c.eligible next = true ∧ ∀ t ∈ before, c.eligible t = false) ∧
  (next = c.idleThread ↔ ∀ t ∈ all, c.eligible t = false)

theorem hasTurn_pick {a : RunQueues} (hcur : a.current ∈ a.all)
    (hidle : (a.threads a.idleThread).idle = true) : HasTurn a.toCore a.all a.pick := by
  have hmem : ∀ t, t ∈ RunQueues.rotation a.all a.current ↔ t ∈ a.all :=
    fun t => RunQueues.mem_rotation hcur
  cases hf : (RunQueues.rotation a.all a.current).find? a.eligible with
  | none =>
    have hpick : a.pick = a.idleThread := by simp [RunQueues.pick, hf]
    refine ⟨fun hne => absurd hpick hne, fun _ t ht => ?_, fun _ => hpick⟩
    simpa using List.find?_eq_none.mp hf t ((hmem t).mpr ht)
  | some n =>
    have hpick : a.pick = n := by simp [RunQueues.pick, hf]
    obtain ⟨helig, before, after, hsplit, hbefore⟩ := List.find?_eq_some_iff_append.mp hf
    rw [hpick]
    refine ⟨fun _ => ⟨before, after, hsplit, helig, by simpa using hbefore⟩, ?_, ?_⟩
    · rintro rfl
      simp [Core.eligible, hidle] at helig
    · intro hnone
      simp [hnone n ((hmem n).mp (by simp [hsplit]))] at helig

/-- **Round robin.**  In every state of every run `all_threads` is a ring on
which `pick_next` ends, whatever the threads' states, with the thread whose
turn it is.  A thread is `THREAD_RUNNABLE` exactly when it has been readied and
not selected since; until it is selected, no thread is selected twice. -/
theorem round_robin (h : Reach (step roots) Always (schedulerInit kernelRoot idleStack) s) :
    (∃ all : List Nat, s.allLinks.Ring none (all.map some) ∧ s.current ∈ all ∧
      all.length ≤ s.created ∧
      ∀ c : Core, c.current = s.current → c.idleThread = s.idleThread →
        (∀ t, (c.threads t).idle = (s.threads t).idle) →
        ∀ fuel > all.length, ∃ next,
          pickNext fuel { s with toCore := c } = some next ∧ HasTurn c all next) ∧
    (∀ t < s.created, (s.threads t).state = .runnable ↔
      ∃ later earlier, s.log = later ++ .readied t :: earlier ∧ .selected t ∉ later) ∧
    (∀ t later earlier, t ≠ s.idleThread → s.log = later ++ .readied t :: earlier →
      .selected t ∉ later → ∀ u, later.count (.selected u) ≤ 1) := by
  obtain ⟨a, hrep, hinv, hturn⟩ := holdsInTurn_of_reach h
  have hcore := hrep.core
  refine ⟨⟨a.all, hrep.all, ?_, ?_, ?_⟩, ?_, ?_⟩
  · rw [hcore]
    exact hinv.shape.current_mem
  · rw [hcore]
    exact Represents.length_le hinv.shape.nodup hinv.shape.lt
  · intro c hcur hidle hflags fuel hfuel
    rw [hcore] at hcur hidle hflags
    have hmem : c.current ∈ a.all := hcur ▸ hinv.shape.current_mem
    have hrep' : Represents { s with toCore := c } { a with toCore := c } :=
      ⟨rfl, hrep.all, hrep.waiting⟩
    refine ⟨_, hrep'.pickNext_eq hmem hfuel, hasTurn_pick hmem ?_⟩
    rw [hidle, hflags]
    exact (hinv.threads _ hinv.shape.idle_mem).idle_iff.mpr rfl
  · intro t ht
    rw [hcore] at ht ⊢
    have hiff := hturn.runnable_iff t
    constructor
    · intro hrun
      refine exists_window (hiff.mp ⟨?_, hrun⟩)
      by_contra hout
      simp [hinv.accounts.gone t ht hout] at hrun
    · rintro ⟨later, earlier, hlog, hlater⟩
      obtain ⟨l, hl, -⟩ := overtakers_window earlier hlater
      exact (hiff.mpr (by rw [hlog, hl]; rfl)).2
  · intro t later earlier ht hlog hlater u
    rw [hcore] at ht hlog
    obtain ⟨l, hl, hcount⟩ := overtakers_window earlier hlater
    have hnd := (hturn.turns t l ht (hlog ▸ hl)).1
    exact Nat.le_trans (hcount u) (List.nodup_iff_count_le_one.mp hnd u)

/-- Two threads in turn with `bootstrap`, which yields first: each of them is
selected once before it is. -/
theorem round_robin_yield :
    ∃ s, Reach (step fun _ => 1) Always (schedulerInit 1 9) s ∧
      s.log = [.selected 3, .readied 2, .selected 2] ++ .readied 0 ::
        [.readied 3, .readied 2, .readied 1] ∧
      ∀ u, [SchedEvent.selected 3, .readied 2, .selected 2].count (.selected u) ≤ 1 := by
  obtain ⟨s, hs⟩ : ∃ s, runSteps (step fun _ => 1) (schedulerInit 1 9)
      [.create none (.stack 10), .create none (.stack 11), .yield, .yield] = some s := ⟨_, rfl⟩
  have hreach := Reach.of_runSteps hs fun _ _ _ => trivial
  have hfacts : ((runSteps (step fun _ => 1) (schedulerInit 1 9)
      [.create none (.stack 10), .create none (.stack 11), .yield, .yield]).map
      fun s => (s.log, decide (0 = s.idleThread))) =
      some ([.selected 3, .readied 2, .selected 2] ++ .readied 0 ::
        [.readied 3, .readied 2, .readied 1], false) := by
    decide +kernel
  rw [hs, Option.map_some, Option.some.injEq, Prod.mk.injEq] at hfacts
  exact ⟨s, hreach, hfacts.1,
    (round_robin hreach).2.2 0 _ _ (by simpa using hfacts.2) hfacts.1 (by simp)⟩

end Scheduler

end MiniCore
