import MiniCore.Kernel.Scheduling

/-!
# MiniCore.Kernel.SchedulerSafety

What holds in every run of the scheduler: one thread runs and it is `current`,
every sleeper has exactly one thing that wakes it, a timed sleep lasts exactly
the ticks asked for, and a dead thread is never selected again and is freed
once.
-/

namespace MiniCore

open Lib

namespace RunQueues

/-- The sequences behind `scheduler_init`: `bootstrap` and the idle thread. -/
def start (kernelRoot idleStack : Nat) : RunQueues where
  toCore := (Scheduler.schedulerInit kernelRoot idleStack).toCore
  all := [0, 1]
  waiting := fun _ => []

theorem inv_start (kernelRoot idleStack : Nat) (timely : Prop) :
    Inv (start kernelRoot idleStack) timely true none := by
  have hcases : ∀ t ∈ (start kernelRoot idleStack).all, t = 0 ∨ t = 1 := by simp [start]
  refine ⟨?_, ?_, ?_, ?_⟩
  · constructor <;> simp [start, Scheduler.schedulerInit, Scheduler.createThread,
      Scheduler.bootstrapped, Core.newThread]
  · intro t ht
    rcases hcases t ht with rfl | rfl <;>
      constructor <;> simp [start, Scheduler.schedulerInit, Scheduler.createThread,
        Scheduler.bootstrapped, Core.newThread]
  · intro t ht
    rcases hcases t ht with rfl | rfl <;>
      simp [start, Scheduler.schedulerInit, Scheduler.createThread, Scheduler.bootstrapped,
        Core.newThread]
  · constructor <;> simp [start, Scheduler.schedulerInit, Scheduler.createThread,
      Scheduler.bootstrapped, Core.newThread, freed, SchedEvent.frees]
    all_goals omega

end RunQueues

/-- `scheduler_init` sets up empty rings. -/
theorem represents_start (kernelRoot idleStack : Nat) :
    Represents (Scheduler.schedulerInit kernelRoot idleStack) (.start kernelRoot idleStack) := by
  have hempty : ∀ {ν : Type} [DecidableEq ν] (head : ν), (Links.mk id id).Ring head [] :=
    fun head => ⟨by simp, rfl, rfl⟩
  refine ⟨rfl, ?_, ?_⟩
  · have hboot : ((Links.mk id id).pushBack none (some 0)).Ring none [some 0] :=
      (hempty none).pushBack (by simp)
    have hinit : (((Links.mk id id).pushBack none (some 0)).init (some 1)).Ring none [some 0] :=
      hboot.congr fun x hx => Links.init_frame (by grind)
    have hfresh : some 1 ∉ [none, some 0] := by simp
    exact hinit.pushBack hfresh
  · intro q
    exact (hempty _).congr fun x hx => Links.init_frame (by grind)

namespace Scheduler

variable {roots : Option Nat → Nat} {kernelRoot idleStack : Nat} {s : Scheduler}

variable {act : Action} {acts : List Action} {t w : Nat} {a : RunQueues} {s' : Scheduler}

/-! ## Statements -/

/-- Sleeps end before the clock wraps. -/
def TimelyStep (s : Scheduler) (act : Action) : Prop := RunQueues.Timely s.tickCount act

instance decTimelyStep (s : Scheduler) : (act : Action) → Decidable (TimelyStep s act)
  | .sleep n => inferInstanceAs (Decidable (s.tickCount + n < 2 ^ 64))
  | .create _ _ => isTrue trivial
  | .yield => isTrue trivial
  | .waitSleep _ => isTrue trivial
  | .wakeOne _ => isTrue trivial
  | .wakeAll _ => isTrue trivial
  | .tick => isTrue trivial
  | .exit => isTrue trivial
  | .reap _ => isTrue trivial

/-- The calls `acts` lead from `s` to `s'`. -/
def Runs (roots : Option Nat → Nat) (s : Scheduler) (acts : List Action) (s' : Scheduler) : Prop :=
  runSteps (guarded (step roots) TimelyStep) s acts = some s'

def ticks (acts : List Action) : Nat := acts.countP Action.isTick

/-- How often the stack of a thread has been freed. -/
def stackFrees (s : Scheduler) (t : Nat) : Nat := s.log.countP (SchedEvent.freesStackOf t)

/-- How often the record of a thread has been freed. -/
def recordFrees (s : Scheduler) (t : Nat) : Nat := s.log.count (.recordFreed t)

/-- The scheduler's state is consistent, its rings holding the threads `all`
and the sleepers `waiting q`. -/
structure Consistent (s : Scheduler) (all : List Nat) (waiting : Nat → List Nat) : Prop where
  all_ring : s.allLinks.Ring none (all.map some)
  queue_ring : ∀ q, s.waitLinks.Ring (.queue q) ((waiting q).map .thread)
  queue_mem : ∀ q, ∀ t ∈ waiting q, t ∈ all
  current_mem : s.current ∈ all
  running_iff : ∀ t ∈ all, (s.threads t).state = .running ↔ t = s.current
  sleeping : ∀ t ∈ all, (s.threads t).state = .sleeping →
    ((∃ q, t ∈ waiting q ∧ ∀ q', t ∈ waiting q' → q' = q) ∧ (s.threads t).wakeTick = 0) ∨
    ((∀ q, t ∉ waiting q) ∧ s.tickCount < (s.threads t).wakeTick)
  awake : ∀ t ∈ all, (s.threads t).state ≠ .sleeping → ∀ q, t ∉ waiting q
  idle : s.idleThread ∈ all ∧ (s.threads s.idleThread).idle = true ∧
    (s.threads s.idleThread).state ≠ .sleeping ∧ (s.threads s.idleThread).state ≠ .dead
  gone : ∀ t < s.created, t ∉ all → (s.threads t).state = .dead
  stack_frees : ∀ t, s.stackFrees t = if t < s.created ∧ t ∉ all then 1 else 0
  record_frees : ∀ t, s.recordFrees t = if t < s.created ∧ t ∉ all then 1 else 0
  own_stack : ∀ t page, .stackFreed t page ∈ s.log → page = (s.threads t).stackPage

/-! ## Every state -/

/-- The sequences that a reachable state holds. -/
def Holds (s : Scheduler) : Prop := ∃ a, Represents s a ∧ a.Inv True true none

theorem Holds.step (h : s.Holds) (ht : TimelyStep s act) (hs : s.step roots act = some s') :
    s'.Holds := by
  obtain ⟨a, hrep, hinv⟩ := h
  have htick : s.tickCount = a.tickCount := congrArg Core.tickCount hrep.core
  obtain ⟨a', -, hrep', hinv'⟩ := hrep.step hinv (fun _ => by rwa [TimelyStep, htick] at ht) hs
  exact ⟨a', hrep', hinv'⟩

theorem holds_of_reach (h : Reach (step roots) TimelyStep (schedulerInit kernelRoot idleStack) s) :
    s.Holds :=
  h.invariant (I := Holds)
    ⟨_, represents_start kernelRoot idleStack, RunQueues.inv_start kernelRoot idleStack True⟩
    fun _ _ _ hI hok hs => hI.step hok hs

/-- A stack is freed once, when its thread is off the list of all. -/
theorem stackFrees_eq (hrep : Represents s a) (hinv : a.Inv True true none) :
    s.stackFrees t = if t < s.created ∧ t ∉ a.all then 1 else 0 := by
  have hcount := hinv.accounts.stack_count t
  rw [RunQueues.freed, List.countP_filter] at hcount
  rw [stackFrees, hrep.core, ← hcount]
  refine List.countP_congr fun e _ => ?_
  cases e <;> simp [SchedEvent.freesStackOf, SchedEvent.frees]

theorem recordFrees_eq (hrep : Represents s a) (hinv : a.Inv True true none) :
    s.recordFrees t = if t < s.created ∧ t ∉ a.all then 1 else 0 := by
  have hcount := hinv.accounts.record_count t
  rw [RunQueues.freed, List.count_filter rfl] at hcount
  rw [recordFrees, hrep.core]
  simpa using hcount

theorem Holds.consistent (h : s.Holds) : ∃ all waiting, s.Consistent all waiting := by
  obtain ⟨a, hrep, hinv⟩ := h
  obtain ⟨c, al, wl⟩ := s
  obtain rfl : c = a.toCore := hrep.core
  have hidle := hinv.threads _ hinv.shape.idle_mem
  refine ⟨a.all, a.waiting, ?_⟩
  exact
    { all_ring := hrep.all
      queue_ring := hrep.waiting
      queue_mem := hinv.shape.queue_mem
      current_mem := hinv.shape.current_mem
      running_iff := fun t ht => (hinv.running t ht).trans (by simp)
      sleeping := by
        intro t ht hs
        have hok := hinv.threads t ht
        by_cases hq : ∃ q, t ∈ a.waiting q
        · obtain ⟨q, hq⟩ := hq
          exact .inl ⟨⟨q, hq, fun q' hq' => hok.queue_unique q' q hq' hq⟩, (hok.queued q hq).2⟩
        · exact .inr ⟨not_exists.mp hq, (hok.sleeping trivial hs).resolve_left hq⟩
      awake := fun t ht hs q => (hinv.threads t ht).not_queued hs q
      idle := ⟨hinv.shape.idle_mem, hidle.idle_iff.mpr rfl, hidle.idle_up rfl⟩
      gone := hinv.accounts.gone
      stack_frees := fun t => stackFrees_eq hrep hinv
      record_frees := fun t => recordFrees_eq hrep hinv
      own_stack := fun t page hmem =>
        hinv.accounts.own_stack t page (List.mem_filter.mpr ⟨hmem, rfl⟩) }

/-! ## Timed sleepers -/

/-- A thread sleeps for the clock alone, until tick `w`. -/
structure SleepsUntil (s : Scheduler) (t w : Nat) : Prop where
  holds : s.Holds
  lt : t < s.created
  sleeping : (s.threads t).state = .sleeping
  wakeTick : (s.threads t).wakeTick = w
  pending : s.tickCount < w
  bound : w < 2 ^ 64

/-- A timed sleeper is on no queue. -/
theorem SleepsUntil.aside (h : SleepsUntil s t w) (hrep : Represents s a)
    (hinv : a.Inv True true none) : t ∈ a.all ∧ t ≠ a.current ∧ (∀ q, t ∉ a.waiting q) ∧
    (a.dueNext t = true ↔ w = s.tickCount + 1) := by
  have hcore := hrep.core
  have hth : a.threads t = s.threads t := by rw [hcore]
  have hsleep : (a.threads t).state = .sleeping := hth ▸ h.sleeping
  have hwake : (a.threads t).wakeTick = w := hth ▸ h.wakeTick
  have htick : a.tickCount = s.tickCount := by rw [hcore]
  have hpending := h.pending
  have hbound := h.bound
  have hmem : t ∈ a.all := by
    by_contra hout
    have := hinv.accounts.gone t (by rw [← hcore]; exact h.lt) hout
    simp [hsleep] at this
  refine ⟨hmem, ?_, ?_, ?_⟩
  · rintro rfl
    simp [hinv.current_running] at hsleep
  · intro q hq
    have := ((hinv.threads t hmem).queued q hq).2
    omega
  · rw [RunQueues.dueNext_iff, hsleep, hwake, htick, Nat.mod_eq_of_lt (by omega)]
    simp only [true_and]
    omega

/-- A sleeper is woken by the tick of its deadline and by none before it. -/
theorem SleepsUntil.step (h : SleepsUntil s t w) (ht : TimelyStep s act)
    (hs : s.step roots act = some s') : if act.isTick then
      if w = s.tickCount + 1 then (s'.threads t).state = .runnable ∨ (s'.threads t).state = .running
      else SleepsUntil s' t w ∧ s'.tickCount = s.tickCount + 1
    else SleepsUntil s' t w ∧ s'.tickCount = s.tickCount := by
  have hholds := h.holds.step ht hs
  obtain ⟨a, hrep, hinv⟩ := h.holds
  obtain ⟨hmem, hcur, hqueue, hdue⟩ := h.aside hrep hinv
  have hcore := hrep.core
  have htimely : RunQueues.Timely a.tickCount act := by rwa [TimelyStep, hcore] at ht
  obtain ⟨a', hstep, hrep', -⟩ := hrep.step hinv (fun _ => htimely) hs
  obtain ⟨hidle, rfl⟩ := RunQueues.step_eq_some.mp hstep
  have hclock : s'.tickCount = if act.isTick then (s.tickCount + 1) % 2 ^ 64 else s.tickCount := by
    rw [hrep'.core, hcore]
    exact RunQueues.perform_tickCount hinv.shape.nodup act
  have hpending := h.pending
  have hbound := h.bound
  -- Unless its tick has come, the sleeper is left alone.
  have hstays : (act.isTick = true → w ≠ s.tickCount + 1) → SleepsUntil s' t w := by
    intro hearly
    have hnotDue : act = .tick → a.dueNext t = false := by
      rintro rfl
      simpa [← hdue] using hearly rfl
    have hun : RunQueues.Untouched a (a.perform roots act) t :=
      RunQueues.untouched_perform hinv (fun _ => htimely) hidle
      (by rw [← hcore]; exact h.lt) hcur (by rw [← hcore]; simp [h.sleeping]) hqueue hnotDue
    have hthread : s'.threads t = s.threads t := by
      rw [hrep'.core, hcore]
      exact hun.thread
    refine ⟨hholds, ?_, hthread ▸ h.sleeping, hthread ▸ h.wakeTick, ?_, hbound⟩
    · have hlt := h.lt
      have hcreated := hun.created
      rw [hcore] at hlt
      rw [hrep'.core]
      omega
    · rw [hclock]
      split
      · have := hearly ‹_›
        omega
      · exact hpending
  cases htick : act.isTick with
  | false => simpa [htick] using And.intro (hstays (by simp [htick])) hclock
  | true =>
    by_cases hnow : w = s.tickCount + 1
    · obtain rfl : act = .tick := by
        cases act <;> simp_all [Action.isTick]
      simp only [if_true, if_pos hnow]
      rw [hrep'.core]
      exact RunQueues.tick_due hinv hmem (hdue.mpr hnow)
    · rw [htick, if_pos rfl, Nat.mod_eq_of_lt (by omega)] at hclock
      simp only [if_true, if_neg hnow]
      exact ⟨hstays fun _ => hnow, hclock⟩

theorem runs_cons : Runs roots s (act :: acts) s' ↔
      ∃ u, TimelyStep s act ∧ s.step roots act = some u ∧ Runs roots u acts s' := by
  simp [Runs, runSteps, guarded, Option.bind_eq_some_iff, and_assoc]

theorem runs_append {acts' : List Action} :
    Runs roots s (acts ++ acts') s' ↔ ∃ u, Runs roots s acts u ∧ Runs roots u acts' s' := by
  simp [Runs, runSteps_append, Option.bind_eq_some_iff]

/-- Until its tick has come the sleeper sleeps. -/
theorem SleepsUntil.runs (h : SleepsUntil s t w) (hruns : Runs roots s acts s')
    (hearly : s.tickCount + ticks acts < w) :
    SleepsUntil s' t w ∧ s'.tickCount = s.tickCount + ticks acts := by
  induction acts generalizing s with
  | nil =>
    obtain rfl : s = s' := by simpa [Runs, runSteps] using hruns
    exact ⟨h, rfl⟩
  | cons act acts ih =>
    obtain ⟨u, htimely, hu, hrest⟩ := runs_cons.mp hruns
    have hstep := h.step htimely hu
    rw [ticks, List.countP_cons] at hearly ⊢
    cases htick : act.isTick with
    | false =>
      simp only [htick, Bool.false_eq_true, if_false] at hstep hearly ⊢
      obtain ⟨hsleeps, hclock⟩ := hstep
      rw [← hclock] at hearly ⊢
      exact ih hsleeps hrest hearly
    | true =>
      simp only [htick, if_true] at hstep hearly ⊢
      rw [if_neg (by omega)] at hstep
      obtain ⟨hsleeps, hclock⟩ := hstep
      have hlater := ih hsleeps hrest (by rw [ticks]; omega)
      rw [ticks] at hlater
      exact ⟨hlater.1, by omega⟩

section

variable (h : s.Holds)

include h

/-- `scheduler_sleep` puts the caller to sleep until the tick it names. -/
theorem Holds.sleep {n : Nat} (hn : 0 < n) (ht : TimelyStep s (.sleep n))
    (hs : s.step roots (.sleep n) = some s') :
    SleepsUntil s' s.current (s.tickCount + n) ∧ s'.tickCount = s.tickCount := by
  have hholds := h.step ht hs
  obtain ⟨a, hrep, hinv⟩ := h
  have hcore := hrep.core
  have htimely : RunQueues.Timely a.tickCount (.sleep n) := by rwa [TimelyStep, hcore] at ht
  have hbound : a.tickCount + n < 2 ^ 64 := htimely
  obtain ⟨a', hstep, hrep', -⟩ := hrep.step hinv (fun _ => htimely) hs
  obtain ⟨hidle, rfl⟩ := RunQueues.step_eq_some.mp hstep
  have hnz : n ≠ 0 := by omega
  have hsleeping := hinv.startSleep (hidle (by simp [Action.blocks, hnz])) hnz fun _ => htimely
  have hun : RunQueues.Untouched { a with toCore := a.toCore.startSleep n }
      (a.perform roots (.sleep n)) a.current := by
    rw [RunQueues.perform, if_neg hnz]
    exact RunQueues.untouched_switch hsleeping (by simp [Core.startSleep])
  have hthread : s'.threads s.current =
      { a.threads a.current with wakeTick := a.tickCount + n, state := .sleeping } := by
    rw [hrep'.core, hcore, hun.thread]
    simp only [Core.startSleep, Core.modify_threads, Function.update_self, Nat.mod_eq_of_lt hbound]
  have hclock : s'.tickCount = s.tickCount := by
    rw [hrep'.core, hcore]
    exact RunQueues.perform_tickCount hinv.shape.nodup _
  refine ⟨⟨hholds, ?_, by rw [hthread], by rw [hthread, hcore], by omega, by rw [hcore]; omega⟩,
    hclock⟩
  rw [hrep'.core, hcore]
  exact Nat.lt_of_lt_of_le (hinv.shape.lt _ hinv.shape.current_mem) hun.created

/-! ## Dead threads -/

/-- A dead thread stays dead and is not selected. -/
theorem Holds.dead_step (ht : TimelyStep s act) (hs : s.step roots act = some s')
    (hlt : t < s.created) (hdead : (s.threads t).state = .dead) :
    t < s'.created ∧ (s'.threads t).state = .dead ∧
      s'.log.count (.selected t) = s.log.count (.selected t) := by
  obtain ⟨a, hrep, hinv⟩ := h
  have hcore := hrep.core
  rw [hcore] at hlt hdead ⊢
  have htimely : RunQueues.Timely a.tickCount act := by rwa [TimelyStep, hcore] at ht
  obtain ⟨a', hstep, hrep', -⟩ := hrep.step hinv (fun _ => htimely) hs
  obtain ⟨hidle, rfl⟩ := RunQueues.step_eq_some.mp hstep
  have hcur : t ≠ a.current := by
    rintro rfl
    simp [hinv.current_running] at hdead
  have hqueue : ∀ q, t ∉ a.waiting q := by
    intro q hq
    have hsleep := ((hinv.threads t (hinv.shape.queue_mem q t hq)).queued q hq).1
    simp [hdead] at hsleep
  have hdue : a.dueNext t = false := by
    rw [Bool.eq_false_iff, ne_eq, RunQueues.dueNext_iff]
    simp [hdead]
  have hun : RunQueues.Untouched a (a.perform roots act) t :=
    RunQueues.untouched_perform hinv (fun _ => htimely) hidle hlt hcur (by simp [hdead]) hqueue
      fun _ => hdue
  rw [hrep'.core]
  exact ⟨Nat.lt_of_lt_of_le hlt hun.created, hun.thread ▸ hdead, hun.selected⟩

/-- A dead thread stays dead and is not chosen again. -/
theorem Holds.dead_runs (hruns : Runs roots s acts s') (hlt : t < s.created)
    (hdead : (s.threads t).state = .dead) : s'.Holds ∧ (s'.threads t).state = .dead ∧
      s'.log.count (.selected t) = s.log.count (.selected t) := by
  induction acts generalizing s with
  | nil =>
    obtain rfl : s = s' := by simpa [Runs, runSteps] using hruns
    exact ⟨h, hdead, rfl⟩
  | cons act acts ih =>
    obtain ⟨u, htimely, hu, hrest⟩ := runs_cons.mp hruns
    obtain ⟨hlt', hdead', hcount⟩ := h.dead_step htimely hu hlt hdead
    obtain ⟨hholds, hlast, hcount'⟩ := ih (h.step htimely hu) hrest hlt' hdead'
    exact ⟨hholds, hlast, hcount'.trans hcount⟩

theorem Holds.current_running : (s.threads s.current).state = .running := by
  obtain ⟨a, hrep, hinv⟩ := h
  rw [hrep.core]
  exact hinv.current_running

/-- One pass of the reaper frees every dead thread. -/
theorem Holds.reap {wakes : Nat → List Nat}
    (hs : s.step roots (.reap wakes) = some s') (hlt : t < s.created)
    (hdead : (s.threads t).state = .dead) : s'.stackFrees t = 1 ∧ s'.recordFrees t = 1 := by
  obtain ⟨a, hrep, hinv⟩ := h
  have hcore := hrep.core
  rw [hcore] at hlt hdead
  have htimely : RunQueues.Timely a.tickCount (.reap wakes) := trivial
  obtain ⟨a', hstep, hrep', hinv'⟩ := hrep.step hinv (fun _ => htimely) hs
  obtain ⟨-, rfl⟩ := RunQueues.step_eq_some.mp hstep
  have hout : t ∉ (a.reap wakes).all := by
    refine RunQueues.reaped_foldl hinv wakes hinv.shape.nodup (fun _ => id) ?_
    by_cases hmem : t ∈ a.all
    · exact .inl ⟨hmem, hinv.dead_reapable hmem hdead⟩
    · exact .inr hmem
  have hlt' : t < s'.created := by
    rw [hrep'.core]
    exact Nat.lt_of_lt_of_eq hlt (RunQueues.kept_reap (a := a) wakes).created.symm
  rw [stackFrees_eq hrep' hinv', recordFrees_eq hrep' hinv', if_pos ⟨hlt', hout⟩]
  exact ⟨rfl, rfl⟩

/-- Every call returns. -/
theorem Holds.progress (ht : TimelyStep s act)
    (hidle : act.blocks = true → s.current ≠ s.idleThread) : ∃ s', s.step roots act = some s' := by
  obtain ⟨a, hrep, hinv⟩ := h
  have hcore := hrep.core
  rw [TimelyStep, hcore] at ht
  rw [hcore] at hidle
  obtain ⟨s', hs', -⟩ := hrep.perform roots hinv (fun _ => ht) hidle
  rw [Scheduler.step, hcore, if_neg fun hb => hidle hb.1 hb.2]
  exact ⟨s', hs'⟩

end

/-! ## Main result -/

/-- **The scheduler keeps its state.**  In every state of every run the lists
and the thread records are consistent, and every call returns.  From there on a
thread that goes to sleep for `n` ticks sleeps until the `n`-th tick and is up
after it; a dead thread stays dead and is never selected; and the next pass of
the reaper has freed the stack and the record of every dead thread once. -/
theorem scheduler_invariant
    (h : Reach (step roots) TimelyStep (schedulerInit kernelRoot idleStack) s) :
    (∃ all waiting, s.Consistent all waiting) ∧
    (∀ act, TimelyStep s act → (act.blocks = true → s.current ≠ s.idleThread) →
      ∃ s', s.step roots act = some s') ∧
    (∀ n s₁ acts s₂, 0 < n → TimelyStep s (.sleep n) → s.step roots (.sleep n) = some s₁ →
      Runs roots s₁ acts s₂ →
      (ticks acts < n → (s₂.threads s.current).state = .sleeping) ∧
      (∀ earlier, acts = earlier ++ [.tick] → ticks acts = n →
        (s₂.threads s.current).state = .runnable ∨ (s₂.threads s.current).state = .running)) ∧
    (∀ t acts s', t < s.created → (s.threads t).state = .dead → Runs roots s acts s' →
      (s'.threads t).state = .dead ∧ s'.current ≠ t ∧
      s'.log.count (.selected t) = s.log.count (.selected t)) ∧
    (∀ wakes s' t, s.step roots (.reap wakes) = some s' → t < s.created →
      (s.threads t).state = .dead → s'.stackFrees t = 1 ∧ s'.recordFrees t = 1) := by
  have hholds := holds_of_reach h
  refine ⟨hholds.consistent, fun act => hholds.progress, ?_, ?_, fun _ _ _ => hholds.reap⟩
  · intro n s₁ acts s₂ hn ht hs hruns
    obtain ⟨hsleeps, hclock⟩ := hholds.sleep hn ht hs
    constructor
    · intro hearly
      exact (hsleeps.runs hruns (by omega)).1.sleeping
    rintro earlier rfl hcount
    obtain ⟨u, hfirst, hlast⟩ := runs_append.mp hruns
    obtain ⟨v, htimely, hv, hend⟩ := runs_cons.mp hlast
    obtain rfl : v = s₂ := by simpa [Runs, runSteps] using hend
    have hticks : ticks earlier + 1 = n := by simpa [ticks, Action.isTick] using hcount
    obtain ⟨hstill, hnow⟩ := hsleeps.runs hfirst (by omega)
    have hwoken := hstill.step htimely hv
    have hdue : s.tickCount + n = u.tickCount + 1 := by omega
    simpa only [Action.isTick, hdue, if_true] using hwoken
  · intro t acts s' hlt hdead hruns
    obtain ⟨hholds', hdead', hcount⟩ := hholds.dead_runs hruns hlt hdead
    refine ⟨hdead', ?_, hcount⟩
    rintro rfl
    simp [hholds'.current_running] at hdead'

/-- A run with a timed sleeper, a queued sleeper and a thread that exits. -/
def sampleRun : List Action :=
  [.create none (.stack 10), .create (some 7) (.stack 11), .sleep 2, .waitSleep 0, .exit, .tick]

theorem scheduler_invariant_sample :
    ∃ s, Reach (step fun _ => 1) TimelyStep (schedulerInit 1 9) s ∧
      (∃ all waiting, s.Consistent all waiting) ∧
      ((s.threads 0).state, (s.threads 2).state, (s.threads 3).state) =
        (.sleeping, .sleeping, .dead) ∧ s.current = s.idleThread := by
  obtain ⟨s, hs⟩ : ∃ s, runSteps (guarded (step fun _ => 1) TimelyStep) (schedulerInit 1 9)
    sampleRun = some s :=
    ⟨_, rfl⟩
  have hreach := Reach.of_guarded hs
  have hfacts : ((runSteps (guarded (step fun _ => 1) TimelyStep) (schedulerInit 1 9) sampleRun).map
      fun s => (((s.threads 0).state, (s.threads 2).state, (s.threads 3).state),
        decide (s.current = s.idleThread))) = some ((.sleeping, .sleeping, .dead), true) := by
    decide +kernel
  rw [hs, Option.map_some, Option.some.injEq, Prod.mk.injEq] at hfacts
  exact ⟨s, hreach, (scheduler_invariant hreach).1, hfacts.1, by simpa using hfacts.2⟩

end Scheduler

end MiniCore
