import MiniCore.Kernel.Conservation
import MiniCore.Kernel.Scheduler

/-!
# MiniCore.Kernel.System

The scheduler, the processes and physical memory together: `process_create`,
`process_fork`, `process_exec`, `process_exit` and `process_thread_reaped`
(`src/kernel/process.c`), `create_thread` (`src/kernel/scheduler.c`) and
`start_init` (`src/kernel/user.c`), with every allocation made on the machine.

System calls run with interrupts disabled, so each is one step.  The scheduler
records the calls it makes into the rest of the kernel while it reaps; `handle`
carries them out.  Descriptors, the family of a process and its exit status are
left out: when the record of a reaped process is freed (by `waitpid`, by the
exit of its parent, or at once) is part of the run.
-/

namespace MiniCore

open Lib

/-- `sizeof(struct process)` -/
def processSize : Nat := 424

/-- `sizeof(struct thread)` -/
def threadSize : Nat := 216

/-- `struct process`, as far as memory is concerned. -/
structure ProcessRecord where
  /-- The address of the record, until it is freed. -/
  record : Option Nat
  space : AddressSpace
  /-- `state == PROCESS_REAPABLE` -/
  reapable : Bool
deriving DecidableEq, Repr

/-- Processes are numbered in the order of their creation, as threads are.
`destroyed` lists the roots passed to `address_space_destroy`, each with the
root that was active at the time; no function reads it. -/
structure Kernel where
  scheduler : Scheduler
  machine : Machine
  processes : List ProcessRecord
  /-- The address of a thread's record. -/
  threadRecord : Nat → Nat
  destroyed : List (Nat × Nat)

namespace Kernel

variable (kernelRoot : Nat)

/-- The table of a process, or of the kernel. -/
def roots (k : Kernel) : Option Nat → Nat
  | none => kernelRoot
  | some p => ((k.processes[p]?).map fun r => r.space.root).getD 0

/-- `current_process` -/
def currentProcess (k : Kernel) : Option Nat := (k.scheduler.threads k.scheduler.current).process

/-- `address_space_destroy` -/
def destroySpace (as : AddressSpace) (k : Kernel) : AddressSpace × Kernel :=
  let (dead, m) := addressSpaceDestroy as k.machine
  (dead, { k with machine := m, destroyed := (k.scheduler.satp, as.root) :: k.destroyed })

/-! ## Making processes -/

/-- `create_thread` for a thread that is not the idle one. -/
def createThread (process : Option Nat) (k : Kernel) : Bool × Kernel :=
  match kmalloc threadSize k.machine with
  | (0, m) => (false, { k with machine := m })
  | (thread, m) =>
    match pageAlloc m with
    | (0, m) => (false, { k with machine := kfree thread m })
    | (stack, m) =>
      (true, { k with
        machine := m
        scheduler := (k.scheduler.createThread process false (.stack stack)).2
        threadRecord := Function.update k.threadRecord k.scheduler.created thread })

/-- `process_create`: the record and its empty address space. -/
def processCreate (k : Kernel) : Option (Nat × AddressSpace) × Kernel :=
  match kmalloc processSize k.machine with
  | (0, m) => (none, { k with machine := m })
  | (process, m) =>
    match addressSpaceInit kernelRoot m with
    | (false, _, m) => (none, { k with machine := kfree process m })
    | (true, as, m) => (some (process, as), { k with machine := m })

/-- `process_destroy` -/
def processDestroy (process : Nat) (as : AddressSpace) (k : Kernel) : Kernel :=
  let (_, k) := k.destroySpace as
  { k with machine := kfree process k.machine }

/-- The end of `process_fork` and `start_init`: the process gets its thread, or
is destroyed again. -/
def publish (process : Nat) (as : AddressSpace) (k : Kernel) : Kernel :=
  match k.createThread (some k.processes.length) with
  | (false, k) => k.processDestroy process as
  | (true, k) => { k with processes := k.processes ++ [⟨some process, as, false⟩] }

/-- `process_fork` by a process with the address space `parent`. -/
def processFork (parent : AddressSpace) (k : Kernel) : Kernel :=
  match k.processCreate kernelRoot with
  | (none, k) => k
  | (some (process, as), k) =>
    let (as, k) := k.destroySpace as
    match addressSpaceClone parent kernelRoot k.machine with
    | (false, _, m) =>
      processDestroy process { as with root := 0, pages := [] } { k with machine := m }
    | (true, copy, m) => publish process (addressSpaceMove copy).1 { k with machine := m }

/-- `start_init`; `stdio` tells whether `fd_install_stdio` succeeds. -/
def startInit (file : Option File) (arguments : ExecArguments) (stdio : Bool) (k : Kernel) :
    Kernel :=
  match k.processCreate kernelRoot with
  | (none, k) => k
  | (some (process, as), k) =>
    let (as, k) := k.destroySpace as
    match elfLoad kernelRoot file arguments k.machine with
    | (false, _, m) =>
      processDestroy process { as with root := 0, pages := [] } { k with machine := m }
    | (true, image, m) =>
      let as := (addressSpaceMove image.as).1
      if stdio then publish process as { k with machine := m }
      else processDestroy process as { k with machine := m }

/-! ## Replacing and ending them -/

/-- `process_exec` by process `p` with record `r`. -/
def processExec (p : Nat) (r : ProcessRecord) (file : Option File) (arguments : ExecArguments)
    (k : Kernel) : Kernel :=
  match elfLoad kernelRoot file arguments k.machine with
  | (false, _, m) => { k with machine := m }
  | (true, image, m) =>
    let old := (addressSpaceMove r.space).1
    let as := (addressSpaceMove image.as).1
    let k := { k with
      machine := m
      processes := k.processes.set p { r with space := as }
      -- `vm_activate(&process->as.table)`
      scheduler := { k.scheduler with satp := as.root } }
    (k.destroySpace old).2

/-- `process_thread_reaped`; `orphan p` tells whether it frees the record. -/
def processThreadReaped (orphan : Nat → Bool) (p : Nat) (k : Kernel) : Kernel :=
  match k.processes[p]? with
  | none => k
  | some r =>
    let (as, k) := k.destroySpace r.space
    let r := { r with space := as, reapable := true }
    match orphan p, r.record with
    | true, some process =>
      { k with
        processes := k.processes.set p { r with record := none }
        machine := kfree process k.machine }
    | _, _ => { k with processes := k.processes.set p r }

/-- The calls that `scheduler_reap` makes. -/
def handle (orphan : Nat → Bool) (k : Kernel) : SchedEvent → Kernel
  | .stackFreed _ page => { k with machine := pageFree page k.machine }
  | .processReaped p => k.processThreadReaped orphan p
  | .recordFreed t => { k with machine := kfree (k.threadRecord t) k.machine }
  | .readied _ => k
  | .selected _ => k

/-- What `after` records beyond `before`, in the order of time. -/
def newEvents (before after : List SchedEvent) : List SchedEvent :=
  (after.take (after.length - before.length)).reverse

/-! ## Runs -/

inductive Call where
  /-- A call into the scheduler, with a `plain` action. -/
  | schedule (act : Scheduler.Action)
  | threadCreate
  | startInit (file : Option File) (arguments : ExecArguments) (stdio : Bool)
  | fork
  | exec (file : Option File) (arguments : ExecArguments)
  | memory (call : MemCall)
  | exit
  | reap (wakes : Nat → List Nat) (orphan : Nat → Bool)
  /-- The record of a reaped process is freed. -/
  | collect (p : Nat)

/-- The process that makes a system call. -/
def caller (k : Kernel) : Option (Nat × ProcessRecord) :=
  k.currentProcess.bind fun p => (k.processes[p]?).map fun r => (p, r)

/-- One call.  Thread 0 is `bootstrap`, which never exits. -/
def step (k : Kernel) : Call → Option Kernel
  | .schedule act =>
    if act.plain then
      (k.scheduler.step (k.roots kernelRoot) act).map fun s => { k with scheduler := s }
    else none
  | .threadCreate => some (k.createThread none).2
  | .startInit file arguments stdio => some (k.startInit kernelRoot file arguments stdio)
  | .fork => k.caller.map fun (_, r) => k.processFork kernelRoot r.space
  | .exec file arguments => k.caller.map fun (p, r) => k.processExec kernelRoot p r file arguments
  | .memory call =>
    k.caller.map fun (p, r) =>
      let (_, as, m) := call.run r.space k.machine
      { k with machine := m, processes := k.processes.set p { r with space := as } }
  | .exit =>
    if k.scheduler.current = 0 then none
    else (k.scheduler.step (k.roots kernelRoot) .exit).map fun s => { k with scheduler := s }
  | .reap wakes orphan =>
    (k.scheduler.step (k.roots kernelRoot) (.reap wakes)).map fun s =>
      (newEvents k.scheduler.log s.log).foldl (handle orphan) { k with scheduler := s }
  | .collect p =>
    match k.processes[p]? with
    | some ⟨some process, as, true⟩ =>
      some { k with
        machine := kfree process k.machine
        processes := k.processes.set p ⟨none, as, true⟩ }
    | _ => none

/-- The state in which `scheduler_init` returns. -/
def boot (idleStack : Nat) (m : Machine) : Kernel where
  scheduler := .schedulerInit kernelRoot idleStack
  machine := m
  processes := []
  threadRecord := fun _ => 0
  destroyed := []

end Kernel

end MiniCore
