import MiniCore.Kernel.SchedulerSafety

/-!
# MiniCore.Kernel.WaitQueues

What the linked lists of the scheduler (`src/kernel/scheduler.c`, `src/kernel/sync.c`)
are for: over any run they behave as the sequences of `RunQueues`, and a wait queue
is first in, first out.
-/

namespace MiniCore

open Lib List

variable {roots : Option Nat → Nat} {kernelRoot idleStack : Nat} {s s' : Scheduler}
  {a a' b : RunQueues}
  {q q' t : Nat} {timely : Prop} {run : Bool} {pending : Option Nat}

namespace Scheduler

/-- What relates the two levels in every state of a run. -/
def Refines (s : Scheduler) (a : RunQueues) : Prop := Represents s a ∧ a.Inv False true none

theorem Refines.step (h : Refines s a) (act : Action) :
    Option.Rel Refines (s.step roots act) (a.step roots act) := by
  obtain ⟨hrep, hinv⟩ := h
  rw [Scheduler.step, RunQueues.step, hrep.core]
  split
  · exact .none
  · next hidle =>
    have hidle : act.blocks = true → a.current ≠ a.idleThread := fun hb hi => hidle ⟨hb, hi⟩
    obtain ⟨s', hs', hrep'⟩ := hrep.perform roots hinv False.elim hidle
    rw [hs']
    exact .some ⟨hrep', hinv.perform False.elim hidle⟩

theorem refines_start :
    Refines (schedulerInit kernelRoot idleStack) (RunQueues.start kernelRoot idleStack) :=
  ⟨represents_start kernelRoot idleStack, RunQueues.inv_start kernelRoot idleStack False⟩

/-- **The scheduler refines its queues**: whatever is called, the code with its linked
lists and the sequences refuse the same call, or both get to the end with the rings
holding the sequences and everything else equal. -/
theorem scheduler_refines_queues (roots : Option Nat → Nat) (kernelRoot idleStack : Nat)
    (acts : List Action) : Option.Rel (fun s a => Represents s a ∧ a.Inv False true none)
      (runSteps (step roots) (schedulerInit kernelRoot idleStack) acts)
      (runSteps (RunQueues.step roots) (RunQueues.start kernelRoot idleStack) acts) :=
  runSteps_rel (fun _ _ act h => Refines.step h act) refines_start acts

/-! ## First in, first out -/

/-- The thread that a call puts on the queue. -/
def Action.sleeper (q current : Nat) : Action → List Nat
  | .waitSleep q' => if q' = q then [current] else []
  | _ => []

/-- The threads that a run puts on the queue, in order. -/
def sleepers (roots : Option Nat → Nat) (q : Nat) : Scheduler → List Action → List Nat
  | _, [] => []
  | s, act :: acts =>
    act.sleeper q s.current ++ (s.step roots act).elim [] (sleepers roots q · acts)

/-- The threads that were made runnable, in order; the log has its newest event first. -/
def readied (log : List SchedEvent) : List Nat :=
  log.reverse.filterMap fun
    | .readied t => some t
    | _ => none

theorem readied_append (es log : List SchedEvent) :
    readied (es ++ log) = readied log ++ readied es := by
  rw [readied, reverse_append, filterMap_append]
  rfl

end Scheduler

namespace RunQueues

open Scheduler (readied readied_append)

/-- From `a` to `a'` the queue is joined by `new` and left by its first threads, each of
which is made runnable, in this order. -/
def Served (q : Nat) (new : List Nat) (a a' : RunQueues) : Prop :=
  ∃ woken ready, a.waiting q ++ new = woken ++ a'.waiting q ∧
    readied a'.log = readied a.log ++ ready ∧ woken.Sublist ready

/-- Nobody leaves the queue. -/
theorem served_of_log {new : List Nat} (es : List SchedEvent)
    (hq : a'.waiting q = a.waiting q ++ new) (hlog : a'.log = es ++ a.log) : Served q new a a' :=
  ⟨[], readied es, by rw [hq, nil_append], by rw [hlog, readied_append], nil_sublist _⟩

theorem Served.refl (q : Nat) (a : RunQueues) : Served q [] a a :=
  served_of_log [] (append_nil _).symm rfl

theorem Served.trans {new new' : List Nat} (h : Served q new a b) (h' : Served q new' b a') :
    Served q (new ++ new') a a' := by
  obtain ⟨woken, ready, heq, hlog, hsub⟩ := h
  obtain ⟨woken', ready', heq', hlog', hsub'⟩ := h'
  refine ⟨woken ++ woken', ready ++ ready', ?_, ?_, hsub.append hsub'⟩
  · rw [← append_assoc, heq, append_assoc, heq', append_assoc]
  · rw [hlog', hlog, append_assoc]

/-- An event that is recorded. -/
theorem served_record (q : Nat) (a : RunQueues) (e : SchedEvent) :
    Served q [] a { a with toCore := a.toCore.record e } :=
  served_of_log [e] (append_nil _).symm rfl

theorem served_switch {new : List Nat} (h : Served q new a b) :
    Served q new a (b.switch roots) := by
  have hlog : (b.switch roots).log = [.selected b.pick] ++ b.log := by
    rw [switch, Core.dispatch]
    dsimp only
    split
    · split <;> rfl
    · rfl
  have hswitch : Served q [] b (b.switch roots) := served_of_log _ (append_nil _).symm hlog
  exact append_nil new ▸ h.trans hswitch

/-- **The first sleeper of a queue** leaves it, and is made runnable. -/
theorem Inv.served_wakeFirst {rest : List Nat} (h : a.Inv timely run pending)
    (hq : a.waiting q' = t :: rest) : Served q [] a
      { a with toCore := a.toCore.wake t, waiting := Function.update a.waiting q' rest } := by
  have hin : t ∈ a.waiting q' := hq ▸ mem_cons_self
  have hsleep := ((h.threads t (h.shape.queue_mem q' t hin)).queued q' hin).1
  have hlog : readied (a.toCore.wake t).log = readied a.log ++ [t] := by
    rw [Core.wake, if_pos hsleep, Core.ready_log]
    exact readied_append [.readied t] a.log
  by_cases hqq : q = q'
  · subst hqq
    exact ⟨[t], [t], by simp [hq], hlog, Sublist.refl _⟩
  · exact ⟨[], [t], by simp [hqq], hlog, nil_sublist _⟩

theorem Inv.served_wakeAll (h : a.Inv timely run pending) (q' : Nat) :
    Served q [] a (a.wakeAll q') := by
  generalize hq : a.waiting q' = l
  induction l generalizing a with
  | nil =>
    rw [wakeAll_nil hq]
    exact .refl q a
  | cons t rest ih =>
    rw [wakeAll_cons hq]
    exact (h.served_wakeFirst hq).trans (ih (h.wakeFirst hq) (by simp))

/-- The reaper wakes whoever waits for the process of a dead thread. -/
theorem Inv.served_reapThread (h : a.Inv timely run none) (wakes : Nat → List Nat)
    (ht : t ∈ a.all) : Served q [] a (a.reapThread wakes t) := by
  refine h.reapThread_induct (P := Served q [] a) ht (.refl q a) (fun _ => ?_)
    (fun _ _ hp => hp.trans (served_record q _ _)) fun hb hp => hp.trans (hb.served_wakeAll _)
  exact served_of_log [.stackFreed t (a.threads t).stackPage] (append_nil _).symm rfl

/-- **Every call serves the queue**, and the caller may join it. -/
theorem Inv.served_perform (h : a.Inv timely true none) (act : Scheduler.Action) :
    Served q (act.sleeper q a.current) a (a.perform roots act) := by
  have hrelinquish : Served q [] a { a with toCore := a.toCore.relinquish } := by
    rw [Core.relinquish, if_pos h.current_running]
    exact served_of_log [.readied a.current] (append_nil _).symm rfl
  cases act with
  | create process grant =>
    cases grant with
    | noRecord | noStack => exact .refl q a
    | stack page => exact served_of_log [.readied a.created] (append_nil _).symm rfl
  | yield => exact served_switch hrelinquish
  | sleep ticks =>
    rw [RunQueues.perform]
    split
    · exact served_switch hrelinquish
    · exact served_switch (served_of_log [] (append_nil _).symm rfl)
  | waitSleep q' =>
    refine served_switch (served_of_log [] ?_ rfl)
    by_cases hq : q = q'
    · simp [RunQueues.block, Scheduler.Action.sleeper, hq]
    · simp [RunQueues.block, Scheduler.Action.sleeper, hq, Ne.symm hq]
  | wakeOne q' =>
    show Served q [] a (a.wakeOne q')
    cases hq : a.waiting q' with
    | nil =>
      rw [wakeOne_nil hq]
      exact .refl q a
    | cons t rest =>
      rw [wakeOne_cons hq]
      exact h.served_wakeFirst hq
  | wakeAll q' => exact h.served_wakeAll q'
  | tick =>
    have hadv := advanced h.shape.nodup
    have hpreempt : (a.advance.toCore.preempt).log = [.readied a.advance.current] ++
        a.advance.log := by
      rw [Core.preempt, if_pos h.advance.current_running]
      rfl
    rw [hadv.log, ← append_assoc] at hpreempt
    exact served_switch (served_of_log _ (hadv.waiting ▸ (append_nil _).symm) hpreempt)
  | exit => exact served_switch (served_of_log [] (append_nil _).symm rfl)
  | reap wakes =>
    exact (h.reap (P := Served q [] a) (.refl q a) fun hb ht hp =>
      hp.trans (hb.served_reapThread wakes ht)).2

end RunQueues

namespace Scheduler

theorem Refines.served (h : Refines s a) {acts : List Action}
    (hrun : runSteps (Scheduler.step roots) s acts = some s') :
    ∃ a', Refines s' a' ∧ a.Served q (sleepers roots q s acts) a' := by
  induction acts generalizing s a with
  | nil =>
    cases hrun
    exact ⟨a, h, .refl q a⟩
  | cons act acts ih =>
    obtain ⟨u, hu, hrun⟩ := Option.bind_eq_some_iff.mp hrun
    obtain ⟨b, hb, h'⟩ := h.1.step h.2 False.elim hu
    obtain ⟨a', ha', hserved⟩ := ih h' hrun
    obtain ⟨-, rfl⟩ := RunQueues.step_eq_some.mp hb
    refine ⟨a', ha', ?_⟩
    rw [sleepers, hu, Option.elim_some, h.1.core]
    exact (h.2.served_perform act).trans hserved

end Scheduler

end MiniCore
