import MiniCore.Kernel.Scheduler

/-!
# MiniCore.Kernel.RunQueues

What the scheduler is for: a list of threads served in turn, and queues of
sleepers.  `RunQueues` is the scheduler with its two families of intrusive
lists replaced by the sequences they stand for; the part of the state that is
not lists is shared with the model of the source.

`RunQueues.Inv` is the state invariant.  It is read between operations and at
two places inside them: before a switch, when the current thread has left the
processor and nobody is running, and in the reaper, when a thread has lost its
stack but not yet its record.  Two parameters say which of the places it is.
-/

namespace MiniCore

open Lib List Function

variable {a a' : RunQueues} {timely : Prop} {run run' : Bool} {pending : Option Nat} {t : Nat}

/-! ## The shared part of the state -/

namespace Core

variable (c : Core) (t u : Nat) (state : RunState) (roots : Option Nat → Nat)

@[simp] theorem setState_threads : (c.setState t state).threads u =
      if u = t then { c.threads t with state := state } else c.threads u := by
  simp [setState, update_apply]

@[simp] theorem ready_threads : (c.ready t).threads u =
      if u = t then { c.threads t with state := .runnable } else c.threads u := by
  simp [ready]

/-- Dispatching a thread that waits for the processor makes it the current
one, whether or not it was before. -/
theorem dispatch_eq {next : Nat} (h : (c.threads next).state = .runnable) :
    ∃ satp, c.dispatch roots next =
      { (c.record (.selected next)).setState next .running with
        current := next, satp := satp } := by
  unfold dispatch
  by_cases hn : next = c.current
  · subst hn
    exact ⟨c.satp, by simp [h, setState, record]⟩
  · exact ⟨roots (c.threads next).process, by simp [hn]⟩

theorem dispatch_tickCount (next : Nat) : (c.dispatch roots next).tickCount = c.tickCount := by
  unfold dispatch
  dsimp only
  split
  · split <;> rfl
  · rfl

/-- What waking sleepers and reaping threads leaves as it is. -/
structure Kept (c c' : Core) : Prop where
  created : c'.created = c.created
  current : c'.current = c.current
  idleThread : c'.idleThread = c.idleThread
  tickCount : c'.tickCount = c.tickCount
  satp : c'.satp = c.satp
  process : ∀ t, (c'.threads t).process = (c.threads t).process
  stackPage : ∀ t, (c'.threads t).stackPage = (c.threads t).stackPage
  dead : ∀ t, (c'.threads t).state = .dead → (c.threads t).state = .dead
  selected : ∀ t, c'.log.count (.selected t) = c.log.count (.selected t)

variable {c}

theorem Kept.refl (c : Core) : Kept c c := by
  constructor <;> simp

theorem Kept.trans {c' c'' : Core} (h : Kept c c') (h' : Kept c' c'') : Kept c c'' where
  created := h'.created.trans h.created
  current := h'.current.trans h.current
  idleThread := h'.idleThread.trans h.idleThread
  tickCount := h'.tickCount.trans h.tickCount
  satp := h'.satp.trans h.satp
  process t := (h'.process t).trans (h.process t)
  stackPage t := (h'.stackPage t).trans (h.stackPage t)
  dead t ht := h.dead t (h'.dead t ht)
  selected t := (h'.selected t).trans (h.selected t)

theorem kept_record {e : SchedEvent} (he : ∀ t, e ≠ .selected t) : Kept c (c.record e) := by
  constructor <;> simp [he]

theorem kept_wake (t : Nat) : Kept c (c.wake t) := by
  unfold wake
  split
  · refine ⟨rfl, rfl, rfl, rfl, rfl, fun u => ?_, fun u => ?_, fun u => ?_, by simp⟩ <;>
      rw [ready_threads] <;> split <;> simp [*]
  · exact .refl c

theorem kept_foldl_wake (l : List Nat) (c : Core) : Kept c (l.foldl wake c) := by
  induction l generalizing c with
  | nil => exact .refl c
  | cons t l ih => exact (kept_wake t).trans (ih _)

/-- Only the threads woken change. -/
theorem foldl_wake_threads {l : List Nat} {u : Nat} (hu : u ∉ l) :
    (l.foldl wake c).threads u = c.threads u := by
  induction l generalizing c with
  | nil => rfl
  | cons t l ih =>
    rw [foldl_cons, ih (by grind), wake]
    split <;> grind [ready_threads]

end Core

/-- The scheduler's state with its lists as sequences. -/
structure RunQueues extends Core where
  all : List Nat
  waiting : Nat → List Nat

namespace RunQueues

variable (roots : Option Nat → Nat)

variable {rest : List Nat} {q : Nat}

/-! ## Operations -/

/-- The threads in the order in which they are considered: those behind
`current`, those before it, `current` itself. -/
def rotation (all : List Nat) (current : Nat) : List Nat :=
  (all.dropWhile (· ≠ current)).tail ++ all.takeWhile (· ≠ current) ++ [current]

/-- The events that free something. -/
def freed (a : RunQueues) : List SchedEvent := a.log.filter SchedEvent.frees

/-- The first eligible thread in turn, or the idle thread. -/
def pick (a : RunQueues) : Nat :=
  ((rotation a.all a.current).find? a.eligible).getD a.idleThread

def switch (a : RunQueues) : RunQueues := { a with toCore := a.toCore.dispatch roots a.pick }

def create (process : Option Nat) (a : RunQueues) : Scheduler.Grant → RunQueues
  | .noRecord => a
  | .noStack => a
  | .stack page =>
    { a with toCore := a.toCore.newThread process false page, all := a.all ++ [a.created] }

def block (q : Nat) (a : RunQueues) : RunQueues :=
  { a with
    toCore := a.toCore.setState a.current .sleeping
    waiting := update a.waiting q (a.waiting q ++ [a.current]) }

def wakeOne (q : Nat) (a : RunQueues) : RunQueues :=
  match a.waiting q with
  | [] => a
  | t :: rest =>
    { a with toCore := a.toCore.wake t, waiting := update a.waiting q rest }

def wakeAll (q : Nat) (a : RunQueues) : RunQueues :=
  { a with
    toCore := (a.waiting q).foldl Core.wake a.toCore
    waiting := update a.waiting q [] }

/-- The clock moves on and wakes the sleepers that are due. -/
def advance (a : RunQueues) : RunQueues :=
  { a with
    toCore := a.all.foldl Core.wakeTimed
      { a.toCore with tickCount := (a.tickCount + 1) % 2 ^ 64 } }

def release (t : Nat) (a : RunQueues) : RunQueues :=
  { a with
    toCore := a.toCore.record (.stackFreed t (a.threads t).stackPage)
    all := a.all.erase t }

def processReaped (wakes : Nat → List Nat) (a : RunQueues) : Option Nat → RunQueues
  | none => a
  | some p =>
    (wakes p).foldl (fun a q => a.wakeAll q) { a with toCore := a.toCore.record (.processReaped p) }

def reapThread (wakes : Nat → List Nat) (a : RunQueues) (t : Nat) : RunQueues :=
  if a.reapable t then
    let a := (a.release t).processReaped wakes (a.threads t).process
    { a with toCore := a.toCore.record (.recordFreed t) }
  else a

def reap (wakes : Nat → List Nat) (a : RunQueues) : RunQueues := a.all.foldl (reapThread wakes) a

def perform (a : RunQueues) : Scheduler.Action → RunQueues
  | .create process grant => a.create process grant
  | .yield => switch roots { a with toCore := a.toCore.relinquish }
  | .sleep ticks =>
    if ticks = 0 then switch roots { a with toCore := a.toCore.relinquish }
    else switch roots { a with toCore := a.toCore.startSleep ticks }
  | .waitSleep q => switch roots (a.block q)
  | .wakeOne q => a.wakeOne q
  | .wakeAll q => a.wakeAll q
  | .tick => switch roots { a.advance with toCore := a.advance.toCore.preempt }
  | .exit => switch roots { a with toCore := a.toCore.setState a.current .dead }
  | .reap wakes => a.reap wakes

def step (a : RunQueues) (act : Scheduler.Action) : Option RunQueues :=
  if act.blocks ∧ a.current = a.idleThread then none else some (a.perform roots act)

/-- Sleeps whose end the 64-bit clock can express. -/
def Timely (tickCount : Nat) : Scheduler.Action → Prop
  | .sleep ticks => tickCount + ticks < 2 ^ 64
  | _ => True

/-! ## The invariant -/

/-- The lists are proper, and name existing threads. -/
structure Shape (a : RunQueues) : Prop where
  nodup : a.all.Nodup
  lt : ∀ t ∈ a.all, t < a.created
  current_mem : a.current ∈ a.all
  idle_mem : a.idleThread ∈ a.all
  queue_mem : ∀ q, ∀ t ∈ a.waiting q, t ∈ a.all

/-- What holds of one thread: it sleeps on one queue, or for a time, or it is
on no queue and has no time set.  `timely` says that sleeps end before the
clock wraps; without it a sleeper may have missed its time. -/
structure ThreadOk (a : RunQueues) (timely : Prop) (t : Nat) : Prop where
  idle_iff : (a.threads t).idle = true ↔ t = a.idleThread
  queue_once : ∀ q, (a.waiting q).count t ≤ 1
  queue_unique : ∀ q q', t ∈ a.waiting q → t ∈ a.waiting q' → q = q'
  queued : ∀ q, t ∈ a.waiting q → (a.threads t).state = .sleeping ∧ (a.threads t).wakeTick = 0
  sleeping : timely → (a.threads t).state = .sleeping →
    (∃ q, t ∈ a.waiting q) ∨ a.tickCount < (a.threads t).wakeTick
  awake : (a.threads t).state ≠ .sleeping → (a.threads t).wakeTick = 0
  bounded : (a.threads t).wakeTick < 2 ^ 64
  idle_up : t = a.idleThread → (a.threads t).state ≠ .sleeping ∧ (a.threads t).state ≠ .dead

/-- Stack and record of a thread are freed when it leaves the list, and only
dead threads do; the record of `pending` is still to be freed. -/
structure Accounts (a : RunQueues) (pending : Option Nat) : Prop where
  gone : ∀ t < a.created, t ∉ a.all → (a.threads t).state = .dead
  stack_count : ∀ t, a.freed.countP (SchedEvent.freesStackOf t) =
    if t < a.created ∧ t ∉ a.all then 1 else 0
  own_stack : ∀ t page, .stackFreed t page ∈ a.freed → page = (a.threads t).stackPage
  record_count : ∀ t, a.freed.count (.recordFreed t) =
    if t < a.created ∧ t ∉ a.all ∧ pending ≠ some t then 1 else 0

/-- The scheduler's state invariant.  With `run` the current thread is the one
that is running; without it, nobody is. -/
structure Inv (a : RunQueues) (timely : Prop) (run : Bool) (pending : Option Nat) : Prop where
  shape : a.Shape
  threads : ∀ t ∈ a.all, a.ThreadOk timely t
  running : ∀ t ∈ a.all, (a.threads t).state = .running ↔ run = true ∧ t = a.current
  accounts : a.Accounts pending

theorem Accounts.congr (h : a.Accounts pending) (hall : a'.all = a.all)
    (hcreated : a'.created = a.created) (hfreed : a'.freed = a.freed)
    (hstack : ∀ t, (a'.threads t).stackPage = (a.threads t).stackPage)
    (hgone : ∀ t ∉ a.all, a'.threads t = a.threads t) : a'.Accounts pending := by
  constructor
  · intro t ht hout
    rw [hall] at hout
    rw [hgone t hout]
    exact h.gone t (hcreated ▸ ht) hout
  · rw [hfreed, hall, hcreated]
    exact h.stack_count
  · intro t page
    rw [hfreed, hstack]
    exact h.own_stack t page
  · rw [hfreed, hall, hcreated]
    exact h.record_count

theorem ThreadOk.congr (h : a.ThreadOk timely t) (hidle : a'.idleThread = a.idleThread)
    (hthread : a'.threads t = a.threads t)
    (htick : a.tickCount < (a.threads t).wakeTick → a'.tickCount < (a.threads t).wakeTick)
    (hqueue : ∀ q, (a'.waiting q).count t = (a.waiting q).count t) : a'.ThreadOk timely t := by
  have hmem : ∀ q, t ∈ a'.waiting q ↔ t ∈ a.waiting q := by
    intro q
    rw [← count_pos_iff, hqueue, count_pos_iff]
  constructor <;> simp only [hidle, hthread, hqueue, hmem]
  exacts [h.idle_iff, h.queue_once, h.queue_unique, h.queued,
    fun ht hs => (h.sleeping ht hs).imp_right htick, h.awake, h.bounded, h.idle_up]

/-- **One thread changes.**  All but `u` keep their record and their queue. -/
theorem Inv.change {u : Nat} (h : Inv a timely run pending) (hu : u ∈ a.all) (hall : a'.all = a.all)
    (hcreated : a'.created = a.created) (hidle : a'.idleThread = a.idleThread)
    (htick : a'.tickCount = a.tickCount) (hfreed : a'.freed = a.freed)
    (hcurrent : a'.current ∈ a.all) (hthreads : ∀ t ≠ u, a'.threads t = a.threads t)
    (hstack : (a'.threads u).stackPage = (a.threads u).stackPage)
    (hqueue : ∀ t ≠ u, ∀ q, (a'.waiting q).count t = (a.waiting q).count t)
    (hok : a'.ThreadOk timely u) (hrun : ∀ t ∈ a.all, (a'.threads t).state = .running ↔
      run' = true ∧ t = a'.current) : Inv a' timely run' pending := by
  refine ⟨?_, ?_, ?_, ?_⟩
  · refine ⟨hall ▸ h.shape.nodup, ?_, hall ▸ hcurrent, ?_, ?_⟩
    · rw [hall, hcreated]
      exact h.shape.lt
    · rw [hall, hidle]
      exact h.shape.idle_mem
    · intro q t ht
      rw [hall]
      by_cases htu : t = u
      · exact htu ▸ hu
      · rw [← count_pos_iff, hqueue t htu, count_pos_iff] at ht
        exact h.shape.queue_mem q t ht
  · rw [hall]
    intro t ht
    by_cases htu : t = u
    · exact htu ▸ hok
    · exact (h.threads t ht).congr hidle (hthreads t htu) (htick ▸ id) (hqueue t htu)
  · rw [hall]
    exact hrun
  · apply h.accounts.congr hall hcreated hfreed
    · intro t
      by_cases htu : t = u
      · exact htu ▸ hstack
      · rw [hthreads t htu]
    · exact fun t ht => hthreads t fun htu => ht (htu ▸ hu)

theorem rotation_append {pre post : List Nat} {c : Nat} (hc : c ∉ pre) :
    rotation (pre ++ c :: post) c = post ++ pre ++ [c] := by
  have hpre : ∀ x ∈ pre, (decide (x ≠ c)) = true := by grind
  rw [rotation, takeWhile_append_of_pos hpre, dropWhile_append_of_pos hpre]
  simp

theorem mem_rotation {all : List Nat} {c t : Nat} (hc : c ∈ all) :
    t ∈ rotation all c ↔ t ∈ all := by
  obtain ⟨pre, post, rfl, hpre⟩ := eq_append_cons_of_mem hc
  rw [rotation_append hpre]
  grind

/-- Nobody runs, so the thread picked is waiting for the processor, be it idle. -/
theorem Inv.pick_runnable (h : Inv a timely false pending) :
    a.pick ∈ a.all ∧ (a.threads a.pick).state = .runnable := by
  have hmem := h.shape.idle_mem
  unfold pick
  cases hf : (rotation a.all a.current).find? a.eligible with
  | none =>
    have hrun := h.running a.idleThread hmem
    have hup := (h.threads a.idleThread hmem).idle_up rfl
    refine ⟨hmem, ?_⟩
    cases hs : (a.threads a.idleThread).state <;> simp_all
  | some t =>
    have hrot := mem_of_find?_eq_some hf
    have helig := find?_some hf
    simp only [Core.eligible, Bool.and_eq_true, decide_eq_true_eq] at helig
    exact ⟨(mem_rotation h.shape.current_mem).mp hrot, helig.1⟩

section

variable (hidle : (a.threads t).idle = true ↔ t = a.idleThread)

include hidle

/-- A thread that is awake, on no queue and without a time is in order. -/
theorem ThreadOk.of_awake (hqueue : ∀ q, t ∉ a.waiting q) (hstate : (a.threads t).state ≠ .sleeping)
    (hwake : (a.threads t).wakeTick = 0) (hup : t = a.idleThread → (a.threads t).state ≠ .dead) :
    a.ThreadOk timely t := by
  constructor <;> grind

/-- So is one that sleeps for a time, on no queue. -/
theorem ThreadOk.of_timed (hne : t ≠ a.idleThread) (hqueue : ∀ q, t ∉ a.waiting q)
    (hstate : (a.threads t).state = .sleeping)
    (hwake : timely → a.tickCount < (a.threads t).wakeTick)
    (hbound : (a.threads t).wakeTick < 2 ^ 64) : a.ThreadOk timely t := by
  constructor <;> grind

/-- So is one that sleeps on one queue, without a time. -/
theorem ThreadOk.of_queued
    (hne : t ≠ a.idleThread) (hcount : ∀ q', (a.waiting q').count t = if q' = q then 1 else 0)
    (hstate : (a.threads t).state = .sleeping) (hwake : (a.threads t).wakeTick = 0) :
    a.ThreadOk timely t := by
  have hmem : ∀ q', t ∈ a.waiting q' ↔ q' = q := by
    intro q'
    rw [← count_pos_iff, hcount]
    split <;> simp [*]
  have hself : t ∈ a.waiting q := (hmem q).mpr rfl
  constructor <;> grind

end

theorem ThreadOk.not_queued (h : a.ThreadOk timely t) (hstate : (a.threads t).state ≠ .sleeping)
    (q : Nat) : t ∉ a.waiting q :=
  fun hq => hstate (h.queued q hq).1

/-- A switch sets a runnable thread running. -/
theorem Inv.switch (h : Inv a timely false pending) : Inv (a.switch roots) timely true pending := by
  obtain ⟨hmem, hrun⟩ := h.pick_runnable
  have hok := h.threads _ hmem
  have hawake : (a.threads a.pick).state ≠ .sleeping := by simp [hrun]
  obtain ⟨satp, hd⟩ := a.toCore.dispatch_eq roots hrun
  rw [RunQueues.switch, hd]
  refine h.change hmem rfl rfl rfl rfl rfl hmem ?_ ?_ ?_ ?_ ?_
  · intro t ht
    simp [ht]
  · simp
  · exact fun _ _ _ => rfl
  · apply ThreadOk.of_awake <;> simp [hok.idle_iff, hok.not_queued hawake, hok.awake hawake]
  · intro t ht
    have hother := h.running t ht
    by_cases htp : t = a.pick <;> simp_all

/-! ### Leaving the processor -/

section

variable (h : Inv a timely true pending)

include h

theorem Inv.current_running : (a.threads a.current).state = .running :=
  (h.running _ h.shape.current_mem).mpr ⟨rfl, rfl⟩

theorem Inv.current_awake : (a.threads a.current).state ≠ .sleeping := by
  simp [h.current_running]

theorem Inv.current_not_queued (q : Nat) : a.current ∉ a.waiting q :=
  (h.threads _ h.shape.current_mem).not_queued h.current_awake q

/-- The current thread's record changes so that it runs no more. -/
theorem Inv.leave (hall : a'.all = a.all) (hcreated : a'.created = a.created)
    (hidle : a'.idleThread = a.idleThread) (htick : a'.tickCount = a.tickCount)
    (hfreed : a'.freed = a.freed) (hcurrent : a'.current = a.current)
    (hqueue : ∀ t ≠ a.current, ∀ q, (a'.waiting q).count t = (a.waiting q).count t)
    (hthreads : ∀ t ≠ a.current, a'.threads t = a.threads t)
    (hstack : (a'.threads a.current).stackPage = (a.threads a.current).stackPage)
    (hstate : (a'.threads a.current).state ≠ .running) (hok : a'.ThreadOk timely a.current) :
    Inv a' timely false pending := by
  have hmem := h.shape.current_mem
  refine h.change hmem hall hcreated hidle htick hfreed (hcurrent ▸ hmem) hthreads hstack hqueue
    hok ?_
  intro t ht
  by_cases htp : t = a.current
  · simp [htp, hstate]
  · simp [hthreads t htp, h.running t ht, htp]

/-- The current thread goes back to those that wait for the processor. -/
theorem Inv.requeue (n : Nat) :
    Inv { a with toCore := { a.toCore.ready a.current with preemptionCount := n } } timely false
      pending := by
  have hok := h.threads _ h.shape.current_mem
  refine h.leave rfl rfl rfl rfl rfl rfl (fun _ _ _ => rfl) ?_ ?_ ?_ ?_
  iterate 3 simp +contextual
  apply ThreadOk.of_awake <;> simp [hok.idle_iff, h.current_not_queued, hok.awake h.current_awake]

theorem Inv.relinquish : Inv { a with toCore := a.toCore.relinquish } timely false pending := by
  rw [Core.relinquish, if_pos h.current_running]
  exact h.requeue a.preemptionCount

theorem Inv.preempt : Inv { a with toCore := a.toCore.preempt } timely false pending := by
  rw [Core.preempt, if_pos h.current_running]
  exact h.requeue (a.preemptionCount + 1)

variable (hidle : a.current ≠ a.idleThread)

include hidle

theorem Inv.exit :
    Inv { a with toCore := a.toCore.setState a.current .dead } timely false pending := by
  have hok := h.threads _ h.shape.current_mem
  refine h.leave rfl rfl rfl rfl rfl rfl (fun _ _ _ => rfl) ?_ ?_ ?_ ?_
  iterate 3 simp +contextual
  apply ThreadOk.of_awake <;>
    simp [hok.idle_iff, h.current_not_queued, hok.awake h.current_awake, hidle]

theorem Inv.startSleep {ticks : Nat}
    (hpos : ticks ≠ 0) (htimely : timely → a.tickCount + ticks < 2 ^ 64) :
    Inv { a with toCore := a.toCore.startSleep ticks } timely false pending := by
  have hok := h.threads _ h.shape.current_mem
  have hlater : timely → a.tickCount < (a.tickCount + ticks) % 2 ^ 64 := by
    intro ht
    rw [Nat.mod_eq_of_lt (htimely ht)]
    omega
  refine h.leave rfl rfl rfl rfl rfl rfl (fun _ _ _ => rfl) ?_ ?_ ?_ ?_
  iterate 3 simp +contextual [Core.startSleep]
  refine ThreadOk.of_timed ?_ hidle h.current_not_queued ?_ ?_ ?_
  · simp [Core.startSleep, hok.idle_iff]
  · simp [Core.startSleep]
  · simpa only [Core.startSleep, Core.modify_threads, Core.modify_tickCount,
      update_self] using hlater
  · simp only [Core.startSleep, Core.modify_threads, update_self]
    exact Nat.mod_lt _ (by decide)

/-- The current thread goes to sleep at the end of the queue. -/
theorem Inv.block (q : Nat) : Inv (a.block q) timely false pending := by
  have hok := h.threads _ h.shape.current_mem
  have hcount : ∀ t q', ((a.block q).waiting q').count t =
      (a.waiting q').count t + if q' = q ∧ t = a.current then 1 else 0 := by
    intro t q'
    by_cases hqq : q' = q
    · subst hqq
      by_cases ht : t = a.current <;> simp [RunQueues.block, ht, eq_comm]
    · simp [RunQueues.block, hqq]
  refine h.leave rfl rfl rfl rfl rfl rfl ?_ ?_ ?_ ?_ (ThreadOk.of_queued (q := q) ?_ hidle ?_ ?_ ?_)
  · simp +contextual [hcount]
  · simp +contextual [RunQueues.block]
  iterate 2 simp [RunQueues.block]
  · simp [RunQueues.block, hok.idle_iff]
  · simp [hcount, List.count_eq_zero.mpr (h.current_not_queued _)]
  · simp [RunQueues.block]
  · simp [RunQueues.block, hok.awake h.current_awake]

end

/-! ### Waking -/

/-- The first sleeper of a queue leaves it and waits for the processor. -/
theorem Inv.wakeFirst (h : Inv a timely run pending) (hq : a.waiting q = t :: rest) :
    Inv { a with toCore := a.toCore.wake t, waiting := update a.waiting q rest } timely run
      pending := by
  have hin : t ∈ a.waiting q := by simp [hq]
  have hmem := h.shape.queue_mem q t hin
  have hok := h.threads t hmem
  obtain ⟨hsleep, hwake⟩ := hok.queued q hin
  have hrest : t ∉ rest := by
    have := hok.queue_once q
    rw [hq, count_cons_self] at this
    exact List.count_eq_zero.mp (by omega)
  have hgone : ∀ q', t ∉ update a.waiting q rest q' := by
    intro q'
    by_cases hqq : q' = q
    · subst hqq
      simpa using hrest
    · rw [update_of_ne hqq]
      exact fun hin' => hqq (hok.queue_unique q' q hin' hin)
  rw [Core.wake, if_pos hsleep]
  refine h.change hmem rfl rfl rfl rfl rfl h.shape.current_mem ?_ ?_ ?_ ?_ ?_
  · simp +contextual
  · simp
  · intro u hu q'
    by_cases hqq : q' = q
    · subst hqq
      simp [hq, Ne.symm hu]
    · simp [hqq]
  · apply ThreadOk.of_awake _ hgone <;> simp [hok.idle_iff, hwake]
  · intro u hu
    have hother := h.running u hu
    by_cases hut : u = t <;> simp_all

theorem wakeOne_nil (hq : a.waiting q = []) : a.wakeOne q = a := by
  rw [wakeOne, hq]

theorem wakeOne_cons (hq : a.waiting q = t :: rest) : a.wakeOne q =
      { a with toCore := a.toCore.wake t, waiting := update a.waiting q rest } := by
  rw [wakeOne, hq]

theorem Inv.wakeOne (h : Inv a timely run pending) (q : Nat) :
    Inv (a.wakeOne q) timely run pending := by
  cases hq : a.waiting q with
  | nil => rwa [wakeOne_nil hq]
  | cons t rest =>
    rw [wakeOne_cons hq]
    exact h.wakeFirst hq

theorem wakeAll_nil (hq : a.waiting q = []) : a.wakeAll q = a := by
  have hself : update a.waiting q [] = a.waiting := hq ▸ update_eq_self q a.waiting
  rw [wakeAll, hself, hq, foldl_nil]

theorem wakeAll_cons (hq : a.waiting q = t :: rest) : a.wakeAll q = RunQueues.wakeAll q
      { a with toCore := a.toCore.wake t, waiting := update a.waiting q rest } := by
  simp [wakeAll, hq]

theorem Inv.wakeAll (h : Inv a timely run pending) (q : Nat) :
    Inv (a.wakeAll q) timely run pending := by
  -- one sleeper leaves the queue at a time
  generalize hq : a.waiting q = l
  induction l generalizing a with
  | nil => rwa [wakeAll_nil hq]
  | cons t rest ih =>
    rw [wakeAll_cons hq]
    exact ih (h.wakeFirst hq) (by simp)

end RunQueues

/-! ### The clock -/

namespace Core

variable {c : Core} {l : List Nat}

/-- A thread as the loop of `scheduler_tick` leaves it. -/
def afterTick (c : Core) (t : Nat) : Thread :=
  if c.due t then { c.threads t with wakeTick := 0, state := .runnable } else c.threads t

theorem wakeTimed_threads (u : Nat) :
    (c.wakeTimed t).threads u = if u = t then c.afterTick t else c.threads u := by
  unfold wakeTimed afterTick
  by_cases hd : c.due t = true <;> by_cases hu : u = t <;> simp [hd, hu]

theorem wakeTimed_due {u : Nat} (hu : u ≠ t) : (c.wakeTimed t).due u = c.due u := by
  have ht : (c.wakeTimed t).tickCount = c.tickCount := by
    unfold wakeTimed
    split <;> rfl
  simp [due, wakeTimed_threads, hu, ht]

theorem wakeTimed_log : (c.wakeTimed t).log = if c.due t then .readied t :: c.log else c.log := by
  unfold wakeTimed
  split <;> simp

/-- The loop of `scheduler_tick` wakes the sleepers that are due, and records
them in the order of the list. -/
theorem foldl_wakeTimed (hl : l.Nodup) :
    ∃ threads, (∀ u, threads u = if u ∈ l then c.afterTick u else c.threads u) ∧
      l.foldl wakeTimed c = { c with
        threads := threads
        log := (l.filter c.due).reverse.map .readied ++ c.log } := by
  induction l generalizing c with
  | nil => exact ⟨c.threads, by simp, by simp⟩
  | cons t l ih =>
    obtain ⟨ht, hl⟩ := List.nodup_cons.mp hl
    obtain ⟨threads, hthreads, hfold⟩ := ih (c := c.wakeTimed t) hl
    have hdue : l.filter (c.wakeTimed t).due = l.filter c.due :=
      filter_congr fun u hu => wakeTimed_due fun h => ht (h ▸ hu)
    refine ⟨threads, ?_, ?_⟩
    · intro u
      rw [hthreads, wakeTimed_threads]
      by_cases hut : u = t
      · simp [hut, ht]
      · simp [hut, afterTick, wakeTimed_due hut, wakeTimed_threads]
    · rw [foldl_cons, hfold, hdue, wakeTimed_log]
      unfold wakeTimed
      by_cases hd : c.due t = true <;> simp [hd, modify, ready, setState]

end Core

namespace RunQueues

theorem filter_frees_readied (l : List Nat) (log : List SchedEvent) :
    (l.map SchedEvent.readied ++ log).filter SchedEvent.frees = log.filter SchedEvent.frees := by
  have hnone : (l.map SchedEvent.readied).filter SchedEvent.frees = [] := by
    simp [filter_eq_nil_iff, SchedEvent.frees]
  rw [filter_append, hnone, nil_append]

/-- The sleepers that the next tick wakes. -/
def dueNext (a : RunQueues) (t : Nat) : Bool :=
  ({ a.toCore with tickCount := (a.tickCount + 1) % 2 ^ 64 } : Core).due t

/-- What a tick does before the switch. -/
structure Advanced (a a' : RunQueues) : Prop where
  threads : ∀ t, a'.threads t =
    if t ∈ a.all ∧ a.dueNext t then { a.threads t with wakeTick := 0, state := .runnable }
    else a.threads t
  log : a'.log = (a.all.filter a.dueNext).reverse.map .readied ++ a.log
  tickCount : a'.tickCount = (a.tickCount + 1) % 2 ^ 64
  created : a'.created = a.created
  current : a'.current = a.current
  idleThread : a'.idleThread = a.idleThread
  all : a'.all = a.all
  waiting : a'.waiting = a.waiting

theorem advanced (hnd : a.all.Nodup) : Advanced a a.advance := by
  obtain ⟨threads, hthreads, hfold⟩ := Core.foldl_wakeTimed hnd
    (c := { a.toCore with tickCount := (a.tickCount + 1) % 2 ^ 64 })
  constructor <;> simp only [advance, hfold, hthreads]
  · intro t
    by_cases hmem : t ∈ a.all <;> simp [hmem, dueNext, Core.afterTick]
  · rfl

theorem dueNext_iff : a.dueNext t = true ↔ (a.threads t).state = .sleeping ∧
    (a.threads t).wakeTick ≠ 0 ∧ (a.threads t).wakeTick ≤ (a.tickCount + 1) % 2 ^ 64 := by
  simp [dueNext, Core.due, and_assoc]

/-- The clock does not wrap while somebody waits for it. -/
theorem ThreadOk.not_due (h : a.ThreadOk timely t) (hd : a.dueNext t = false)
    (hlt : a.tickCount < (a.threads t).wakeTick) :
    (a.tickCount + 1) % 2 ^ 64 < (a.threads t).wakeTick := by
  have hbound := h.bounded
  have hmod : (a.tickCount + 1) % 2 ^ 64 = a.tickCount + 1 := Nat.mod_eq_of_lt (by omega)
  have hsleep : (a.threads t).state = .sleeping := by
    by_contra hawake
    have := h.awake hawake
    omega
  have hnd : ¬ a.dueNext t = true := by simp [hd]
  rw [dueNext_iff, hmod] at hnd
  rw [hmod]
  have hne : (a.threads t).wakeTick ≠ 0 := by omega
  exact Nat.lt_of_not_le fun hle => hnd ⟨hsleep, hne, hle⟩

/-- A sleeper whose time is up is woken; all others sleep on, and still have
time to wait. -/
theorem Inv.advance (h : Inv a timely run pending) : Inv a.advance timely run pending := by
  have hadv := advanced h.shape.nodup
  generalize a.advance = b at hadv
  refine ⟨?_, ?_, ?_, ?_⟩
  · constructor <;> simp only [hadv.all, hadv.created, hadv.current, hadv.idleThread, hadv.waiting]
    exacts [h.shape.nodup, h.shape.lt, h.shape.current_mem, h.shape.idle_mem, h.shape.queue_mem]
  · rw [hadv.all]
    intro t ht
    have hok := h.threads t ht
    have hthread := hadv.threads t
    cases hd : a.dueNext t with
    | true =>
      rw [if_pos ⟨ht, hd⟩] at hthread
      obtain ⟨-, hwake, -⟩ := dueNext_iff.mp hd
      apply ThreadOk.of_awake <;> simp [hthread, hadv.idleThread, hok.idle_iff, hadv.waiting]
      exact fun q hq => hwake (hok.queued q hq).2
    | false =>
      rw [if_neg (by simp [hd])] at hthread
      refine hok.congr hadv.idleThread hthread ?_ (by simp [hadv.waiting])
      rw [hadv.tickCount]
      exact hok.not_due hd
  · rw [hadv.all, hadv.current]
    intro t ht
    have hrun := h.running t ht
    rw [hadv.threads]
    split
    case isTrue hd =>
      have hsleep := (dueNext_iff.mp hd.2).1
      simp_all
    case isFalse => exact hrun
  · refine h.accounts.congr hadv.all hadv.created ?_ ?_ ?_
    · rw [freed, hadv.log, filter_frees_readied, freed]
    · intro t
      rw [hadv.threads]
      split <;> rfl
    · intro t ht
      rw [hadv.threads, if_neg (by simp [ht])]

/-! ### Creating and freeing threads -/

/-- Nothing of a thread that was never created has been freed. -/
theorem Accounts.not_created {page : Nat} (h : a.Accounts pending) (ht : a.created ≤ t) :
    .stackFreed t page ∉ a.freed := by
  intro hmem
  have hcount := h.stack_count t
  rw [if_neg (by omega), countP_eq_zero] at hcount
  exact hcount _ hmem (by simp [SchedEvent.freesStackOf])

/-- The new thread is the last of the list. -/
theorem Inv.create (h : Inv a timely run pending) (process : Option Nat) (grant : Scheduler.Grant) :
    Inv (a.create process grant) timely run pending := by
  cases grant with
  | noRecord => exact h
  | noStack => exact h
  | stack page =>
    have hfresh : a.created ∉ a.all := fun hmem => Nat.lt_irrefl _ (h.shape.lt _ hmem)
    have hqueue : ∀ q, a.created ∉ a.waiting q := fun q hq => hfresh (h.shape.queue_mem q _ hq)
    generalize hb : a.create process (.stack page) = b
    have hall : b.all = a.all ++ [a.created] := by rw [← hb]; rfl
    have hcreated : b.created = a.created + 1 := by rw [← hb]; rfl
    have hcurrent : b.current = a.current := by rw [← hb]; rfl
    have hidle : b.idleThread = a.idleThread := by rw [← hb]; rfl
    have htick : b.tickCount = a.tickCount := by rw [← hb]; rfl
    have hwaiting : ∀ q, b.waiting q = a.waiting q := by rw [← hb]; exact fun _ => rfl
    have hfreed : b.freed = a.freed := by rw [← hb]; rfl
    have hthreads : ∀ t, b.threads t = if t = a.created then
        { process := process, state := .runnable, stackPage := page, wakeTick := 0, idle := false }
        else a.threads t := by
      intro t
      rw [← hb]
      simp [RunQueues.create, Core.newThread, update_apply]
    have hold : ∀ t ∈ a.all, b.threads t = a.threads t := by grind
    -- who has left the list is the same as before
    have hleft : ∀ t, (t < b.created ∧ t ∉ b.all) ↔ t < a.created ∧ t ∉ a.all := by grind
    refine ⟨?_, ?_, ?_, ?_⟩
    · constructor <;> grind [h.shape.nodup, h.shape.lt, h.shape.current_mem, h.shape.idle_mem,
        h.shape.queue_mem]
    · intro t ht
      rw [hall, mem_append, mem_singleton] at ht
      rcases ht with ht | rfl
      · exact (h.threads t ht).congr hidle (hold t ht) (htick ▸ id) (by simp [hwaiting])
      · have hne : a.created ≠ a.idleThread := fun heq => hfresh (heq ▸ h.shape.idle_mem)
        apply ThreadOk.of_awake <;> simp [hthreads, hidle, hwaiting, hqueue, hne]
    · intro t ht
      rw [hall, mem_append, mem_singleton] at ht
      rw [hcurrent]
      rcases ht with ht | rfl
      · rw [hold t ht]
        exact h.running t ht
      · have hne : a.created ≠ a.current := fun heq => hfresh (heq ▸ h.shape.current_mem)
        simp [hthreads, hne]
    · constructor
      · intro t ht hout
        obtain ⟨ht, hout⟩ := (hleft t).mp ⟨ht, hout⟩
        rw [hthreads, if_neg (by omega)]
        exact h.accounts.gone t ht hout
      · intro t
        rw [hfreed, h.accounts.stack_count]
        exact if_congr (hleft t).symm rfl rfl
      · intro t page' hmem
        rw [hfreed] at hmem
        rw [hthreads, if_neg fun heq => h.accounts.not_created (Nat.le_of_eq heq.symm) hmem]
        exact h.accounts.own_stack t page' hmem
      · intro t
        rw [hfreed, h.accounts.record_count]
        refine if_congr ?_ rfl rfl
        rw [← and_assoc, ← and_assoc, hleft]

/-- A dead thread leaves the list and loses its stack. -/
theorem Inv.release (h : Inv a timely run none) (ht : t ∈ a.all) (hreap : a.reapable t = true) :
    Inv (a.release t) timely run (some t) := by
  simp only [Core.reapable, Bool.and_eq_true, decide_eq_true_eq, Bool.not_eq_true',
    decide_not, decide_eq_false_iff_not] at hreap
  obtain ⟨⟨hcur, hidle⟩, hdead⟩ := hreap
  have hok := h.threads t ht
  have hne : t ≠ a.idleThread := fun heq => by simp [hok.idle_iff.mpr heq] at hidle
  have hnd := h.shape.nodup
  have hlt := h.shape.lt t ht
  have hmem : ∀ u, u ∈ a.all.erase t ↔ u ≠ t ∧ u ∈ a.all := fun u => hnd.mem_erase_iff
  have hfreed : (a.release t).freed = .stackFreed t (a.threads t).stackPage :: a.freed := rfl
  refine ⟨⟨hnd.erase t, ?_, ?_, ?_, ?_⟩, ?_, ?_, ?_⟩
  · exact fun u hu => h.shape.lt u ((hmem u).mp hu).2
  · exact (hmem _).mpr ⟨Ne.symm hcur, h.shape.current_mem⟩
  · exact (hmem _).mpr ⟨Ne.symm hne, h.shape.idle_mem⟩
  · intro q u hu
    refine (hmem u).mpr ⟨?_, h.shape.queue_mem q u hu⟩
    rintro rfl
    exact hok.not_queued (by simp [hdead]) q hu
  · exact fun u hu => (h.threads u ((hmem u).mp hu).2).congr rfl rfl id fun _ => rfl
  · exact fun u hu => h.running u ((hmem u).mp hu).2
  constructor
  · intro u hu hout
    by_cases hut : u = t
    · rw [hut]
      exact hdead
    · exact h.accounts.gone u hu fun hin => hout ((hmem u).mpr ⟨hut, hin⟩)
  · intro u
    have hold := h.accounts.stack_count u
    by_cases hut : u = t
    · subst hut
      rw [if_neg (by simp [ht])] at hold
      rw [hfreed, countP_cons_of_pos (by simp [SchedEvent.freesStackOf]), hold,
        if_pos ⟨hlt, fun hin => ((hmem u).mp hin).1 rfl⟩]
    rw [hfreed, countP_cons_of_neg (by simp [SchedEvent.freesStackOf, Ne.symm hut]), hold]
    refine if_congr ?_ rfl rfl
    show _ ↔ u < a.created ∧ u ∉ a.all.erase t
    rw [hmem]
    simp [hut]
  · intro u page hin
    rw [hfreed, mem_cons] at hin
    rcases hin with heq | hin
    · injection heq with hu hpage
      rw [hu, hpage]
      rfl
    · exact h.accounts.own_stack u page hin
  · intro u
    have hold := h.accounts.record_count u
    rw [hfreed, count_cons_of_ne (by simp), hold]
    refine if_congr ?_ rfl rfl
    show _ ↔ u < a.created ∧ u ∉ a.all.erase t ∧ _
    rw [hmem]
    grind

/-- The record goes last. -/
theorem Inv.freeRecord (h : Inv a timely run (some t)) (ht : t ∉ a.all) (hlt : t < a.created) :
    Inv { a with toCore := a.toCore.record (.recordFreed t) } timely run none := by
  refine ⟨⟨h.shape.nodup, h.shape.lt, h.shape.current_mem, h.shape.idle_mem, h.shape.queue_mem⟩,
    ?_, h.running, ?_⟩
  · exact fun u hu => (h.threads u hu).congr rfl rfl id fun _ => rfl
  refine ⟨h.accounts.gone, ?_, ?_, ?_⟩
  · exact fun u => h.accounts.stack_count u
  · intro u page hin
    refine h.accounts.own_stack u page ?_
    simpa [freed, SchedEvent.frees] using hin
  intro u
  have hold := h.accounts.record_count u
  have hcons : (RunQueues.freed { a with toCore := a.toCore.record (.recordFreed t) }) =
      .recordFreed t :: a.freed := rfl
  by_cases hut : u = t
  · subst hut
    rw [if_neg (by simp)] at hold
    rw [hcons, count_cons_self, hold, if_pos ⟨hlt, ht, by simp⟩]
  · rw [hcons, count_cons_of_ne (by simpa using Ne.symm hut), hold]
    exact if_congr (by simp [Ne.symm hut]) rfl rfl

section

variable (h : Inv a timely run pending)

include h

/-- Waking queues keeps the invariant and the list of threads. -/
theorem Inv.foldl_wakeAll (qs : List Nat) :
    Inv (qs.foldl (fun a q => a.wakeAll q) a) timely run pending ∧
      (qs.foldl (fun a q => a.wakeAll q) a).all = a.all ∧
      (qs.foldl (fun a q => a.wakeAll q) a).created = a.created := by
  induction qs generalizing a with
  | nil => exact ⟨h, rfl, rfl⟩
  | cons q qs ih =>
    obtain ⟨hinv, hall, hcreated⟩ := ih (h.wakeAll q)
    exact ⟨hinv, hall, hcreated.trans (Core.kept_foldl_wake _ _).created⟩

theorem Inv.recorded {e : SchedEvent} (he : e.frees = false) :
    Inv { a with toCore := a.toCore.record e } timely run pending := by
  refine ⟨⟨h.shape.nodup, h.shape.lt, h.shape.current_mem, h.shape.idle_mem, h.shape.queue_mem⟩,
    ?_, h.running, h.accounts.congr rfl rfl ?_ (fun _ => rfl) (fun _ _ => rfl)⟩
  · exact fun u hu => (h.threads u hu).congr rfl rfl id fun _ => rfl
  · simp [freed, he]

theorem Inv.processReaped (wakes : Nat → List Nat) (process : Option Nat) :
    Inv (a.processReaped wakes process) timely run pending ∧
    (a.processReaped wakes process).all = a.all ∧
      (a.processReaped wakes process).created = a.created := by
  cases process with
  | none => exact ⟨h, rfl, rfl⟩
  | some p => exact (h.recorded (e := .processReaped p) rfl).foldl_wakeAll (wakes p)

end

/-- A dead thread loses its stack, its place and its record. -/
theorem Inv.reapThread (h : Inv a timely run none) (wakes : Nat → List Nat) (ht : t ∈ a.all) :
    Inv (a.reapThread wakes t) timely run none ∧
      (a.reapThread wakes t).all = if a.reapable t then a.all.erase t else a.all := by
  unfold RunQueues.reapThread
  by_cases hreap : a.reapable t = true
  · simp only [hreap, if_true]
    obtain ⟨hinv, hall, hcreated⟩ :=
      (h.release ht hreap).processReaped wakes (a.threads t).process
    refine ⟨hinv.freeRecord ?_ ?_, hall⟩
    · rw [hall]
      exact fun hin => (h.shape.nodup.mem_erase_iff.mp hin).1 rfl
    · rw [hcreated]
      exact h.shape.lt t ht
  · simp only [hreap]
    exact ⟨h, rfl⟩

/-- What the parts of reaping a thread keep, reaping it keeps. -/
theorem Inv.reapThread_induct {P : RunQueues → Prop} (h : Inv a timely run none)
    {wakes : Nat → List Nat} (ht : t ∈ a.all) (hp : P a)
    (hrelease : a.reapable t = true → P (a.release t))
    (hrecord : ∀ {b e}, (∀ u, e ≠ .readied u) → (∀ u, e ≠ .selected u) → P b →
      P { b with toCore := b.toCore.record e })
    (hwake : ∀ {b q}, Inv b timely run (some t) → P b → P (b.wakeAll q)) :
    P (a.reapThread wakes t) := by
  have hwakes : ∀ (qs : List Nat) {b}, Inv b timely run (some t) → P b →
      P (qs.foldl (fun a q => a.wakeAll q) b) := by
    intro qs
    induction qs with
    | nil => exact fun _ hp => hp
    | cons q qs ih => exact fun h hp => ih (h.wakeAll q) (hwake h hp)
  unfold RunQueues.reapThread
  split
  · next hreap =>
    refine hrecord (by simp) (by simp) ?_
    cases (a.threads t).process with
    | none => exact hrelease hreap
    | some p =>
      exact hwakes (wakes p) ((h.release ht hreap).recorded rfl)
        (hrecord (by simp) (by simp) (hrelease hreap))
  · exact hp

/-- **Reaping rule**: what the reaping of one thread keeps, under the invariant,
holds when all are reaped. -/
theorem Inv.reap {P : RunQueues → Prop} (h : Inv a timely run none) {wakes : Nat → List Nat}
    (hp : P a) (hstep : ∀ {b t}, Inv b timely run none → t ∈ b.all → P b →
      P (b.reapThread wakes t)) : Inv (a.reap wakes) timely run none ∧ P (a.reap wakes) := by
  suffices hfold : ∀ (l : List Nat) {b}, l.Nodup → (∀ t ∈ l, t ∈ b.all) →
      Inv b timely run none → P b → Inv (l.foldl (RunQueues.reapThread wakes) b) timely run none ∧
        P (l.foldl (RunQueues.reapThread wakes) b) from
    hfold a.all h.shape.nodup (fun _ => id) h hp
  intro l
  induction l with
  | nil => exact fun _ _ h hp => ⟨h, hp⟩
  | cons t l ih =>
    intro b hl hsub h hp
    have ht := hsub t mem_cons_self
    obtain ⟨hinv, hall⟩ := h.reapThread wakes ht
    refine ih hl.of_cons (fun u hu => ?_) hinv (hstep h ht hp)
    have hne : u ≠ t := fun heq => (List.nodup_cons.mp hl).1 (heq ▸ hu)
    have hin := hsub u (mem_cons_of_mem t hu)
    rw [hall]
    split
    · exact h.shape.nodup.mem_erase_iff.mpr ⟨hne, hin⟩
    · exact hin

/-! ### Runs -/

/-- **Every operation keeps the invariant.** -/
theorem Inv.perform {act : Scheduler.Action} (h : Inv a timely true none)
    (htimely : timely → Timely a.tickCount act)
    (hidle : act.blocks = true → a.current ≠ a.idleThread) :
    Inv (a.perform roots act) timely true none := by
  cases act with
  | create process grant => exact h.create process grant
  | yield => exact h.relinquish.switch roots
  | sleep ticks =>
    by_cases hpos : ticks = 0
    · rw [RunQueues.perform, if_pos hpos]
      exact h.relinquish.switch roots
    rw [RunQueues.perform, if_neg hpos]
    have hblocks : (Scheduler.Action.sleep ticks).blocks = true := by
      simp [Scheduler.Action.blocks, hpos]
    exact (h.startSleep (hidle hblocks) hpos htimely).switch roots
  | waitSleep q => exact (h.block (hidle rfl) q).switch roots
  | wakeOne q => exact h.wakeOne q
  | wakeAll q => exact h.wakeAll q
  | tick => exact h.advance.preempt.switch roots
  | exit => exact (h.exit (hidle rfl)).switch roots
  | reap wakes => exact (h.reap (P := fun _ => True) trivial fun _ _ => id).1

theorem step_eq_some {act : Scheduler.Action} : a.step roots act = some a' ↔
    (act.blocks = true → a.current ≠ a.idleThread) ∧ a.perform roots act = a' := by
  rw [step]
  split <;> simp_all

end RunQueues

end MiniCore
