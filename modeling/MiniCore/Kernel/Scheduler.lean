import MiniCore.Lib.Links
import MiniCore.Lib.Transition
import Mathlib.Algebra.Order.Ring.Nat

/-!
# MiniCore.Kernel.Scheduler

The thread scheduler (`src/kernel/scheduler.c`) and the wait queues above it
(`src/kernel/sync.c`), as they are written: two families of intrusive lists,
one through `all_link` and one through `wait_link`, and loops that follow their
pointers.

A thread is named by the number of threads created before it, so a record that
is freed and allocated again is a new thread.  What a thread record holds for
`context_switch` (registers, entry point, name) is left out.  Every operation
runs with interrupts disabled, so it is one step; it is performed by the
current thread, and the idle thread performs only what `idle_main` and the
timer interrupt do.  Loops carry a bound on their rounds; running into it means
that the source does not return.  The ticks wrap as in the source;
`preemption_count` is a number, 2⁶⁴ preemptions being out of reach.
-/

namespace MiniCore

open Lib

/-! ## State -/

/-- `enum thread_state` -/
inductive RunState where
  | running
  | runnable
  | sleeping
  | dead
deriving DecidableEq, Repr

/-- `struct thread` -/
structure Thread where
  process : Option Nat
  state : RunState
  stackPage : Nat
  wakeTick : Nat
  idle : Bool
deriving DecidableEq, Repr

/-- What is recorded of a run.  No function reads it, the proofs do. -/
inductive SchedEvent where
  /-- `state` was set to `THREAD_RUNNABLE`. -/
  | readied (t : Nat)
  /-- `pick_next` returned this thread to `scheduler_switch`. -/
  | selected (t : Nat)
  | stackFreed (t page : Nat)
  | processReaped (p : Nat)
  | recordFreed (t : Nat)
deriving DecidableEq, Repr

def SchedEvent.frees : SchedEvent → Bool
  | .stackFreed _ _ => true
  | .recordFreed _ => true
  | _ => false

/-- Whether the event frees the stack of `t`. -/
def SchedEvent.freesStackOf (t : Nat) : SchedEvent → Bool
  | .stackFreed u _ => u = t
  | _ => false

/-- A `struct list_node` of the wait queues: a queue's `sleepers` or a thread's
`wait_link`. -/
inductive WaitNode where
  | queue (q : Nat)
  | thread (t : Nat)
deriving DecidableEq, Repr

/-- The state of the scheduler apart from its lists.  `satp` is the root that
`vm_activate` was last called with. -/
structure Core where
  threads : Nat → Thread
  created : Nat
  current : Nat
  idleThread : Nat
  tickCount : Nat
  preemptionCount : Nat
  satp : Nat
  log : List SchedEvent

/-- The state of the scheduler.  In the ring of all threads `none` is the list
head `all_threads`, `some t` the `all_link` of thread `t`. -/
structure Scheduler extends Core where
  allLinks : Links (Option Nat)
  waitLinks : Links WaitNode

namespace Core

@[simps] def modify (c : Core) (t : Nat) (f : Thread → Thread) : Core :=
  { c with threads := Function.update c.threads t (f (c.threads t)) }

@[simps] def record (c : Core) (e : SchedEvent) : Core := { c with log := e :: c.log }

@[simps created current idleThread tickCount log]
def setState (c : Core) (t : Nat) (state : RunState) : Core :=
  { c with threads := Function.update c.threads t { c.threads t with state := state } }

/-- `thread->state = THREAD_RUNNABLE` -/
@[simps created current idleThread tickCount log]
def ready (c : Core) (t : Nat) : Core :=
  { c.setState t .runnable with log := .readied t :: c.log }

/-- The test in `pick_next`. -/
def eligible (c : Core) (t : Nat) : Bool :=
  (c.threads t).state = .runnable && !(c.threads t).idle

/-- `scheduler_switch` once `pick_next` has returned; `roots` gives the table
root of a process, or of the kernel. -/
def dispatch (roots : Option Nat → Nat) (next : Nat) (c : Core) : Core :=
  let c := c.record (.selected next)
  if next = c.current then
    if (c.threads c.current).state = .runnable then c.setState c.current .running else c
  else
    { c.setState next .running with
      current := next
      satp := roots (c.threads next).process }

/-- What `scheduler_yield` does before it switches. -/
def relinquish (c : Core) : Core :=
  if (c.threads c.current).state = .running then c.ready c.current else c

/-- What `scheduler_sleep` does before it switches. -/
def startSleep (ticks : Nat) (c : Core) : Core :=
  c.modify c.current fun thread =>
    { thread with wakeTick := (c.tickCount + ticks) % 2 ^ 64, state := .sleeping }

/-- `scheduler_wake_node` once the node is off its queue. -/
def wake (c : Core) (t : Nat) : Core :=
  if (c.threads t).state = .sleeping then c.ready t else c

/-- The sleepers that a tick wakes. -/
def due (c : Core) (t : Nat) : Bool :=
  (c.threads t).state = .sleeping && (c.threads t).wakeTick != 0 &&
    (c.threads t).wakeTick ≤ c.tickCount

/-- The body of the loop in `scheduler_tick`. -/
def wakeTimed (c : Core) (t : Nat) : Core :=
  if c.due t then (c.modify t fun thread => { thread with wakeTick := 0 }).ready t else c

/-- The end of `scheduler_tick`, before it switches. -/
def preempt (c : Core) : Core :=
  if (c.threads c.current).state = .running then
    { c.ready c.current with preemptionCount := c.preemptionCount + 1 }
  else c

/-- The records `create_thread` fills in. -/
def newThread (process : Option Nat) (idle : Bool) (stack : Nat) (c : Core) : Core :=
  { (c.modify c.created fun _ =>
      { process := process, state := .runnable, stackPage := stack, wakeTick := 0, idle := idle }
    ).record (.readied c.created) with
    created := c.created + 1
    idleThread := if idle then c.created else c.idleThread }

/-- The condition in `scheduler_reap`. -/
def reapable (c : Core) (t : Nat) : Bool :=
  t ≠ c.current && !(c.threads t).idle && (c.threads t).state = .dead

end Core

namespace Scheduler

variable (roots : Option Nat → Nat)

/-! ## Selecting a thread -/

/-- The loop of `pick_next`: the thread it returns, or `none` when it ends
without one.  A round first steps over the list head. -/
def scan (s : Scheduler) (start : Option Nat) : Nat → Option Nat → Option (Option Nat)
  | 0, _ => none
  | fuel + 1, node =>
    match if node = none then s.allLinks.next none else node with
    | none => if start = none then some none else s.scan start fuel none
    | some t =>
      if s.eligible t then some (some t)
      else
        let node := s.allLinks.next (some t)
        if node = start then some none else s.scan start fuel node

/-- `pick_next`, given a bound on the rounds of its loop. -/
def pickNext (fuel : Nat) (s : Scheduler) : Option Nat :=
  let start := s.allLinks.next (some s.current)
  (s.scan start fuel start).map fun found =>
    match found with
    | some t => t
    | none => if s.eligible s.current then s.current else s.idleThread

/-- `scheduler_switch` -/
def schedulerSwitch (s : Scheduler) : Option Scheduler :=
  (s.pickNext (s.created + 1)).map fun next => { s with toCore := s.toCore.dispatch roots next }

/-! ## Operations -/

/-- What `kmalloc` and `page_alloc` answer in `create_thread`. -/
inductive Grant where
  | noRecord
  | noStack
  | stack (page : Nat)
deriving DecidableEq, Repr

/-- `create_thread` -/
def createThread (process : Option Nat) (idle : Bool) (s : Scheduler) : Grant → Bool × Scheduler
  | .noRecord => (false, s)
  | .noStack => (false, s)
  | .stack page =>
    (true, { s with
      toCore := s.toCore.newThread process idle page
      allLinks := (s.allLinks.init (some s.created)).pushBack none (some s.created)
      waitLinks := s.waitLinks.init (.thread s.created) })

/-- `scheduler_init` up to the creation of the idle thread: thread 0 is
`bootstrap`, and the kernel table is active. -/
def bootstrapped (kernelRoot : Nat) : Scheduler where
  threads :=
    fun _ => { process := none, state := .running, stackPage := 0, wakeTick := 0, idle := false }
  created := 1
  current := 0
  idleThread := 0
  tickCount := 0
  preemptionCount := 0
  satp := kernelRoot
  log := []
  allLinks := (Links.mk id id).pushBack none (some 0)
  waitLinks := Links.mk id id

/-- The state in which `scheduler_init` returns true. -/
def schedulerInit (kernelRoot idleStack : Nat) : Scheduler :=
  ((bootstrapped kernelRoot).createThread none true (.stack idleStack)).2

def schedulerYield (s : Scheduler) : Option Scheduler :=
  schedulerSwitch roots { s with toCore := s.toCore.relinquish }

def schedulerSleep (ticks : Nat) (s : Scheduler) : Option Scheduler :=
  if ticks = 0 then s.schedulerYield roots
  else schedulerSwitch roots { s with toCore := s.toCore.startSleep ticks }

/-- `scheduler_block_current` -/
def blockCurrent (q : Nat) (s : Scheduler) : Scheduler :=
  { s with
    toCore := s.toCore.setState s.current .sleeping
    waitLinks := s.waitLinks.pushBack (.queue q) (.thread s.current) }

def waitQueueSleep (q : Nat) (s : Scheduler) : Option Scheduler :=
  schedulerSwitch roots (s.blockCurrent q)

/-- `scheduler_wake_node`; a queue's own node is never passed to it. -/
def wakeNode (s : Scheduler) : WaitNode → Scheduler
  | .queue _ => s
  | .thread t =>
    { s with toCore := s.toCore.wake t, waitLinks := s.waitLinks.remove (.thread t) }

def waitQueueWakeOne (q : Nat) (s : Scheduler) : Bool × Scheduler :=
  if s.waitLinks.isEmpty (.queue q) then (false, s)
  else (true, s.wakeNode (s.waitLinks.next (.queue q)))

/-- `wait_queue_wake_all`, given a bound on the rounds of its loop. -/
def waitQueueWakeAll (q : Nat) : Nat → Scheduler → Option Scheduler
  | 0, _ => none
  | fuel + 1, s =>
    match s.waitQueueWakeOne q with
    | (false, s) => some s
    | (true, s) => waitQueueWakeAll q fuel s

/-- The loop of `scheduler_tick`. -/
def wakeTimedFrom : Nat → Option Nat → Scheduler → Option Scheduler
  | _, none, s => some s
  | 0, some _, _ => none
  | fuel + 1, some t, s =>
    wakeTimedFrom fuel (s.allLinks.next (some t)) { s with toCore := s.toCore.wakeTimed t }

def schedulerTick (s : Scheduler) : Option Scheduler :=
  let s : Scheduler := { s with tickCount := (s.tickCount + 1) % 2 ^ 64 }
  (wakeTimedFrom s.created (s.allLinks.next none) s).bind fun s =>
    schedulerSwitch roots { s with toCore := s.toCore.preempt }

def threadExit (s : Scheduler) : Option Scheduler :=
  schedulerSwitch roots { s with toCore := s.toCore.setState s.current .dead }

/-- What `process_thread_reaped` does to the scheduler: it wakes the queues of
the parent and of the pipes whose last descriptor it drops.  It is not called
for a kernel thread. -/
def processThreadReaped (wakes : Nat → List Nat) (s : Scheduler) : Option Nat → Option Scheduler
  | none => some s
  | some p =>
    (wakes p).foldlM (fun s q => s.waitQueueWakeAll q (s.created + 1))
      { s with toCore := s.toCore.record (.processReaped p) }

/-- The body of the loop in `scheduler_reap`. -/
def reapThread (wakes : Nat → List Nat) (t : Nat) (s : Scheduler) : Option Scheduler :=
  if s.reapable t then
    let s := { s with
      toCore := s.toCore.record (.stackFreed t (s.threads t).stackPage)
      allLinks := s.allLinks.remove (some t) }
    (s.processThreadReaped wakes (s.threads t).process).map fun s =>
      { s with toCore := s.toCore.record (.recordFreed t) }
  else some s

/-- The loop of `scheduler_reap`; the next node is read before the body. -/
def reapFrom (wakes : Nat → List Nat) : Nat → Option Nat → Scheduler → Option Scheduler
  | _, none, s => some s
  | 0, some _, _ => none
  | fuel + 1, some t, s =>
    (s.reapThread wakes t).bind (reapFrom wakes fuel (s.allLinks.next (some t)))

def schedulerReap (wakes : Nat → List Nat) (s : Scheduler) : Option Scheduler :=
  reapFrom wakes s.created (s.allLinks.next none) s

/-! ## Runs -/

/-- A call into the scheduler. -/
inductive Action where
  /-- `thread_create` and `thread_create_user` -/
  | create (process : Option Nat) (grant : Grant)
  | yield
  | sleep (ticks : Nat)
  | waitSleep (q : Nat)
  | wakeOne (q : Nat)
  | wakeAll (q : Nat)
  | tick
  | exit
  /-- `wakes p` lists the queues that `process_thread_reaped` wakes for `p`. -/
  | reap (wakes : Nat → List Nat)

/-- The calls `idle_main` never makes. -/
def Action.blocks : Action → Bool
  | .sleep ticks => ticks ≠ 0
  | .waitSleep _ => true
  | .exit => true
  | _ => false

def Action.isTick : Action → Bool
  | .tick => true
  | _ => false

/-- The actions that neither create, end nor free a thread. -/
def Action.plain : Action → Bool
  | .create _ _ => false
  | .exit => false
  | .reap _ => false
  | _ => true

def perform (s : Scheduler) : Action → Option Scheduler
  | .create process grant => some (s.createThread process false grant).2
  | .yield => s.schedulerYield roots
  | .sleep ticks => s.schedulerSleep roots ticks
  | .waitSleep q => s.waitQueueSleep roots q
  | .wakeOne q => some (s.waitQueueWakeOne q).2
  | .wakeAll q => s.waitQueueWakeAll q (s.created + 1)
  | .tick => s.schedulerTick roots
  | .exit => s.threadExit roots
  | .reap wakes => s.schedulerReap wakes

def step (s : Scheduler) (a : Action) : Option Scheduler :=
  if a.blocks ∧ s.current = s.idleThread then none else s.perform roots a

end Scheduler

end MiniCore
