import MiniCore.Abi
import MiniCore.Lib.Transition
import Mathlib.Logic.Function.Basic
import Mathlib.Data.List.Nodup

/-!
# MiniCore.Kernel.Process

Process records, family links and the calls that move them: `fork`, `exit`,
`waitpid` and the reaping of dead threads (`src/kernel/process.c`, with
`scheduler_reap` of `src/kernel/scheduler.c`).

A record is known by the number of its allocation, which is not used again: the
address of a freed record is a stale pointer, and a read or write through it
finds nothing.  Each process has one thread.  A call runs with interrupts off
under `process_lock` until it returns or sleeps, and that stretch is one step;
`scheduler_reap` is one step for each dead thread it comes to.  Address spaces
and files appear as the events of their release.  `events` and `returns` are
records of what happened that no function reads.  `next_pid` is a number: that no
two processes have one PID rests on it, and 2⁶⁴ forks are out of reach.

A process is modelled four times, by what of it a result is about: its family and
its end here, its descriptors in `MiniCore.Kernel.Fd`, its memory and its thread in
`MiniCore.Kernel.System`, and one process with all it owns in `MiniCore.Kernel.Task`.
`MiniCore.Kernel.FdFamily` shows that the first two are of the same processes.
-/

namespace MiniCore

open Lib List Function

variable {cs : List Nat} {c : Nat} {adopter : Option Nat}

/-! ## Records and threads -/

/-- `enum process_state` -/
inductive ProcessState where
  | running | zombie | reapable
deriving DecidableEq, Repr

/-- `struct process`: `observed` says whether `result` is set, `fds` lists the
open files. -/
structure Process where
  pid : Nat
  parent : Option Nat
  children : List Nat
  state : ProcessState
  exitStatus : Int
  faultCode : Nat
  observed : Bool
  fds : List Nat
deriving DecidableEq, Repr

/-- The thread of a process: `waiting` is asleep on the process's `child_wait`
in `waitpid`, `woken` is in `waitpid` and runnable, `gone` has been reaped. -/
inductive ThreadState where
  | running
  | waiting (pid : Int) (address : Nat)
  | woken (pid : Int) (address : Nat)
  | dead
  | gone
deriving DecidableEq, Repr

/-- `PROCESS_RUNNING` goes with a live thread, `PROCESS_ZOMBIE` with a dead one,
`PROCESS_REAPABLE` with a reaped one. -/
def ThreadState.state : ThreadState → ProcessState
  | .dead => .zombie
  | .gone => .reapable
  | _ => .running

/-- `scheduler_wake_node` -/
def ThreadState.wake : ThreadState → ThreadState
  | .waiting pid address => .woken pid address
  | t => t

inductive Event where
  /-- `process_exit` with this status and these open files. -/
  | exited (p : Nat) (status : Int) (fds : List Nat)
  /-- `address_space_destroy` of the process's space. -/
  | asReleased (p : Nat)
  /-- `file_put` of one slot of the process's table. -/
  | filePut (p file : Nat)
  | reapable (p : Nat)
  /-- A successful `waitpid` by `parent` for `child`. -/
  | collected (parent child : Nat) (status : Int)
  /-- `kfree` of the record. -/
  | released (p : Nat)
deriving DecidableEq, Repr

structure Procs where
  procs : Nat → Option Process
  threads : Nat → ThreadState
  init : Option Nat
  nextId : Nat
  nextPid : Nat
  result : Option (Int × Nat)
  events : List Event
  returns : List (Nat × Except Errno Nat)

namespace Procs

variable (s : Procs)

/-- Write to a record through a pointer; a stale one leads nowhere. -/
def modify (p : Nat) (f : Process → Process) : Procs :=
  { s with procs := update s.procs p ((s.procs p).map f) }

def setThread (p : Nat) (t : ThreadState) : Procs :=
  { s with threads := update s.threads p t }

def log (es : List Event) : Procs := { s with events := s.events ++ es }

/-- `kfree(process)` -/
def kfree (p : Nat) : Procs :=
  { s with procs := update s.procs p none, events := s.events ++ [.released p] }

/-- A call returns to user mode. -/
def ret (p : Nat) (r : Except Errno Nat) : Procs :=
  { s with threads := update s.threads p .running, returns := s.returns ++ [(p, r)] }

end Procs

/-! ## Creation -/

/-- `process_create`, when nothing fails: the new record and its number. -/
def processCreate (s : Procs) : Nat × Procs :=
  (s.nextId, { s with
    procs := update s.procs s.nextId (some ⟨s.nextPid, none, [], .running, 0, 0, false, []⟩)
    nextId := s.nextId + 1
    nextPid := s.nextPid + 1 })

def linkChild (s : Procs) (parent child : Nat) : Procs :=
  (s.modify child fun r => { r with parent := some parent }).modify parent
    fun r => { r with children := r.children ++ [child] }

/-- `list_remove(&child->child_link); child->parent = 0` -/
def unlinkChild (s : Procs) (parent child : Nat) : Procs :=
  (s.modify parent fun r => { r with children := r.children.erase child }).modify child
    fun r => { r with parent := none }

/-- `address_space_destroy` and the loop of `file_put` over the table. -/
def teardown (p : Nat) (fds : List Nat) : List Event :=
  .asReleased p :: fds.map (Event.filePut p)

def processDestroy (s : Procs) (p : Nat) : Procs :=
  match s.procs p with
  | none => s
  | some r => (s.log (teardown p r.fds)).kfree p

/-- Where `fork` runs out of memory: no record, no copy of the address space, no
thread, or nowhere. -/
inductive ForkOutcome where
  | noRecord | noCopy | noThread | done
deriving DecidableEq, Repr

def processFork (s : Procs) (p : Nat) (outcome : ForkOutcome) : Procs :=
  let fds := ((s.procs p).map Process.fds).getD []
  let pid := s.nextPid
  let (c, t) := processCreate s
  match outcome with
  | .noRecord => s.ret p (.error .nomem)
  | .noCopy => (processDestroy t c).ret p (.error .nomem)
  | .noThread =>
    let t := linkChild (t.modify c fun r => { r with fds := fds }) p c
    (processDestroy (unlinkChild t p c) c).ret p (.error .nomem)
  | .done =>
    let t := linkChild (t.modify c fun r => { r with fds := fds }) p c
    (t.setThread c .running).ret p (.ok pid)

/-! ## Exit and reaping -/

/-- One round of the loop in `process_exit`: the child goes to the adopter, or
loses its parent and is freed if it is reapable. -/
def orphanChild (adopter : Option Nat) (s : Procs) (c : Nat) : Procs :=
  let s := s.modify c fun r => { r with parent := none }
  match adopter with
  | some i => linkChild s i c
  | none =>
    match s.procs c with
    | none => s
    | some child => if child.state = .reapable then s.kfree c else s

/-- The record of a process that has just exited. -/
def Process.exited (r : Process) (status : Int) (fault : Nat) : Process :=
  { r with exitStatus := status, faultCode := fault, state := .zombie, children := [] }

def processExit (s : Procs) (p : Nat) (status : Int) (fault : Nat) : Procs :=
  match s.procs p with
  | none => s
  | some r =>
    let adopter := if s.init = some p then none else s.init
    let s := s.log [.exited p status r.fds]
    let s := s.modify p fun r => r.exited status fault
    (r.children.foldl (orphanChild adopter) s).setThread p .dead

/-- `wait_queue_wake_all(&process->child_wait)`; only the process's own thread
sleeps there. -/
def wakeAll (s : Procs) (p : Nat) : Procs := s.setThread p (s.threads p).wake

/-- What `scheduler_reap` does about the dead thread of `p`, with
`process_thread_reaped`. -/
def processThreadReaped (s : Procs) (p : Nat) : Procs :=
  let s := s.setThread p .gone
  match s.procs p with
  | none => s
  | some r =>
    let s := s.log (teardown p r.fds)
    let s := (s.modify p fun r => { r with fds := [], state := .reapable }).log [.reapable p]
    let s := match r.parent with
      | none => s
      | some q => wakeAll s q
    if r.observed = false then
      if r.parent = none then s.kfree p else s
    else
      let s := { s with
        result := some (r.exitStatus, r.faultCode)
        init := if s.init = some p then none else s.init }
      s.kfree p

/-! ## Waiting -/

/-- `find_child`: the loop over the children, `first` being the first one seen. -/
def findChild (procs : Nat → Option Process) (pid : Int) : List Nat → Option Nat → Option Nat
  | [], first => first
  | c :: rest, first =>
    match procs c with
    | none => findChild procs pid rest first
    | some child =>
      if pid ≠ -1 ∧ pid = child.pid then some c
      else if pid = -1 then
        if child.state = .reapable then some c
        else findChild procs pid rest (first.or (some c))
      else findChild procs pid rest first

/-- One round of the loop in `process_waitpid`, under the lock: return, or go to
sleep.  `copies` is what `copy_to_user` answers if it is asked. -/
def waitLoop (s : Procs) (p : Nat) (pid : Int) (address : Nat) (copies : Bool) : Procs :=
  match findChild s.procs pid (((s.procs p).map Process.children).getD []) none with
  | none => s.ret p (.error .child)
  | some c =>
    match s.procs c with
    | none => s.ret p (.error .child)
    | some child =>
      if child.state = .reapable then
        if address ≠ 0 ∧ copies = false then s.ret p (.error .fault)
        else
          let s := (unlinkChild s p c).log [.collected p c child.exitStatus]
          (s.kfree c).ret p (.ok child.pid)
      else s.setThread p (.waiting pid address)

/-! ## The transition system -/

inductive ProcAction where
  | fork (p : Nat) (outcome : ForkOutcome)
  | exit (p : Nat) (status : Int) (fault : Nat)
  | reap (p : Nat)
  | waitpid (p : Nat) (pid : Int) (address options : Nat) (copies : Bool)
  /-- A woken thread goes on with its `waitpid`. -/
  | resume (p : Nat) (copies : Bool)
  /-- Any call that changes the file table. -/
  | files (p : Nat) (fds : List Nat)

def procStep (s : Procs) : ProcAction → Option Procs
  | .fork p outcome => if s.threads p = .running then some (processFork s p outcome) else none
  | .exit p status fault =>
    if s.threads p = .running then some (processExit s p status fault) else none
  | .reap p => if s.threads p = .dead then some (processThreadReaped s p) else none
  | .waitpid p pid address options copies =>
    if s.threads p = .running then
      if (pid ≤ 0 ∧ pid ≠ -1) ∨ options ≠ 0 then some (s.ret p (.error .inval))
      else some (waitLoop s p pid address copies)
    else none
  | .resume p copies =>
    match s.threads p with
    | .woken pid address => some (waitLoop s p pid address copies)
    | _ => none
  | .files p fds =>
    if s.threads p = .running then some (s.modify p fun r => { r with fds := fds }) else none

/-- The state after `process_system_init` and a successful `start_init`: PID 1
with the files `fds`. -/
def Procs.start (fds : List Nat) : Procs where
  procs := update (fun _ => none) 0 (some ⟨1, none, [], .running, 0, 0, true, fds⟩)
  threads := update (fun _ => .gone) 0 .running
  init := some 0
  nextId := 1
  nextPid := 2
  result := none
  events := []
  returns := []

/-! ## What holds in every run -/

/-- Family links, record states and numbers, in every reachable state. -/
structure ProcInv (s : Procs) : Prop where
  lt : ∀ {p r}, s.procs p = some r → p < s.nextId
  parent_lt : ∀ {c k q}, s.procs c = some k → k.parent = some q → q < s.nextId
  child : ∀ {q r c}, s.procs q = some r → c ∈ r.children →
    ∃ k, s.procs c = some k ∧ k.parent = some q
  listed : ∀ {c k q r}, s.procs c = some k → k.parent = some q → s.procs q = some r →
    c ∈ r.children
  nodup : ∀ {q r}, s.procs q = some r → r.children.Nodup
  self : ∀ {c k}, s.procs c = some k → k.parent ≠ some c
  init_some : ∀ {i}, s.init = some i → ∃ r, s.procs i = some r ∧ r.parent = none
  observed : ∀ {p r}, s.procs p = some r → (r.observed = true ↔ s.init = some p)
  thread : ∀ {p r}, s.procs p = some r → r.state = (s.threads p).state
  gone : ∀ {p}, s.procs p = none → s.threads p = .gone
  pid_lt : ∀ {p r}, s.procs p = some r → r.pid < s.nextPid
  pid_inj : ∀ {p r q r'}, s.procs p = some r → s.procs q = some r' → r.pid = r'.pid → p = q

theorem ProcInv.start (fds : List Nat) : ProcInv (Procs.start fds) := by
  constructor <;> simp [Procs.start, update_apply, ThreadState.state] <;> grind

/-! ## The exit loop, all rounds at once -/

/-- What becomes of the record of a child whose parent exits. -/
def orphaned (adopter : Option Nat) (r : Process) : Option Process :=
  match adopter with
  | some i => some { r with parent := some i }
  | none => if r.state = .reapable then none else some { r with parent := none }

/-- The records after the children `cs` have been given away. -/
def adopted (adopter : Option Nat) (cs : List Nat) (procs : Nat → Option Process) (x : Nat) :
    Option Process :=
  if x ∈ cs then (procs x).bind (orphaned adopter)
  else if adopter = some x then (procs x).map fun r => { r with children := r.children ++ cs }
  else procs x

/-- The children that the loop frees. -/
def freedOrphans (adopter : Option Nat) (cs : List Nat) (procs : Nat → Option Process) : List Nat :=
  cs.filter fun c => adopter.isNone && (procs c).any (·.state = .reapable)

/-- One round of the exit loop in closed form. -/
theorem orphanChild_eq (hc : adopter ≠ some c) (s : Procs) : orphanChild adopter s c = { s with
      procs := adopted adopter [c] s.procs
      events := s.events ++ (freedOrphans adopter [c] s.procs).map .released } := by
  cases adopter with
  | some i =>
    have hne : i ≠ c := fun h => hc (by rw [h])
    simp only [orphanChild, linkChild, Procs.modify, freedOrphans, Procs.mk.injEq,
      true_and, and_true]
    refine ⟨funext fun x => ?_, by simp⟩
    by_cases hx : x = c
    · subst hx
      cases h : s.procs x <;> simp [adopted, orphaned, update_apply, h, hne.symm]
    by_cases hxi : x = i
    · subst hxi
      simp [adopted, hx]
    · simp [adopted, update_apply, hx, hxi, Ne.symm hxi]
  | none =>
    cases h : s.procs c with
    | none =>
      simp only [orphanChild, Procs.modify, h, Option.map_none, update_self,
        Procs.mk.injEq, true_and, and_true]
      refine ⟨funext fun x => ?_, by simp [freedOrphans, h]⟩
      by_cases hx : x = c <;> simp [adopted, hx, h]
    | some r =>
      by_cases hr : r.state = .reapable
      all_goals
        simp only [orphanChild, Procs.modify, h, Option.map_some, update_self, hr,
          ↓reduceIte, Procs.kfree, Procs.mk.injEq, true_and, and_true]
        refine ⟨funext fun x => ?_, by simp [freedOrphans, h, hr]⟩
        by_cases hx : x = c <;>
          simp [adopted, orphaned, hx, h, hr]

theorem adopted_cons (hc : c ∉ cs) (hi : ∀ i, adopter = some i → i ∉ c :: cs)
    (procs : Nat → Option Process) :
    adopted adopter cs (adopted adopter [c] procs) = adopted adopter (c :: cs) procs := by
  funext x
  by_cases hx : x = c
  · subst hx
    have hne : adopter ≠ some x := fun h => hi x h mem_cons_self
    simp [adopted, hc, hne]
  by_cases hxs : x ∈ cs
  · have hne : adopter ≠ some x := fun h => hi x h (mem_cons_of_mem _ hxs)
    simp [adopted, hx, hxs, hne]
  by_cases ha : adopter = some x
  · simp [adopted, hx, hxs, ha, comp_def]
  · simp [adopted, hx, hxs, ha]

/-- The whole loop: who the children belong to afterwards and which are freed. -/
theorem foldl_orphanChild (hnd : cs.Nodup) (hi : ∀ i, adopter = some i → i ∉ cs) (s : Procs) :
    cs.foldl (orphanChild adopter) s = { s with
      procs := adopted adopter cs s.procs
      events := s.events ++ (freedOrphans adopter cs s.procs).map .released } := by
  induction cs generalizing s with
  | nil =>
    have hnil : adopted adopter [] s.procs = s.procs := by
      funext x
      by_cases ha : adopter = some x <;> simp [adopted, ha]
    simp [hnil, freedOrphans]
  | cons c cs ih =>
    obtain ⟨hc, hnd⟩ := List.nodup_cons.mp hnd
    have hne : adopter ≠ some c := fun h => hi c h mem_cons_self
    rw [foldl_cons, orphanChild_eq hne,
      ih hnd fun i h hm => hi i h (mem_cons_of_mem _ hm)]
    have hfreed : freedOrphans adopter cs (adopted adopter [c] s.procs) =
        freedOrphans adopter cs s.procs := by
      refine filter_congr fun x hx => ?_
      have hxc : x ≠ c := fun h => hc (h ▸ hx)
      have hxa : adopter ≠ some x := fun h => hi x h (mem_cons_of_mem _ hx)
      simp [adopted, hxc, hxa]
    simp only [hfreed, adopted_cons hc hi, append_assoc, ← map_append]
    simp only [freedOrphans, ← filter_append, singleton_append]

/-! ## Finding a child -/

/-- `waitpid(pid)` is about this child. -/
def Process.Matches (r : Process) (pid : Int) : Prop := pid = -1 ∨ pid = r.pid

instance (r : Process) (pid : Int) : Decidable (r.Matches pid) :=
  inferInstanceAs (Decidable (_ ∨ _))

/-- What the loop of `find_child` answers, from any `first`. -/
theorem findChild_eq_some {procs : Nat → Option Process} {pid : Int} {first : Option Nat}
    (h : findChild procs pid cs first = some c) :
    (first = some c ∧ ∀ x ∈ cs, ∀ k, procs x = some k → k.Matches pid → k.state ≠ .reapable) ∨
    c ∈ cs ∧ ∃ k, procs c = some k ∧ k.Matches pid ∧ (k.state = .reapable ∨ pid ≠ -1 ∨
      ∀ x ∈ cs, ∀ k, procs x = some k → k.state ≠ .reapable) := by
  -- One goal per way through the loop body, each with the answer of the rest.
  fun_induction findChild procs pid cs first with
  | case1 first => exact .inl ⟨h, by simp⟩
  | case2 x cs first hx ih => grind
  | case3 x cs first k hx hm => grind [Process.Matches]
  | case4 x cs first k hx hm hpid hk => grind [Process.Matches]
  | case5 x cs first k hx hm hpid hk ih =>
    subst hpid
    rcases ih h with ⟨hf, hcs⟩ | ⟨hc, k', hk', hm', hs⟩
    · cases first <;> grind [Process.Matches]
    · grind
  | case6 x cs first k hx hm hpid ih => grind [Process.Matches]

/-- The child that `find_child` answers with: when it is not reapable, no
matching child is. -/
theorem ProcInv.findChild_some {s : Procs} (h : ProcInv s) {r : Process} {pid : Int}
    (hc : findChild s.procs pid r.children none = some c) :
    c ∈ r.children ∧ ∃ k, s.procs c = some k ∧ k.Matches pid ∧ (k.state ≠ .reapable →
      ∀ x ∈ r.children, ∀ k, s.procs x = some k → k.Matches pid → k.state ≠ .reapable) := by
  rcases findChild_eq_some hc with ⟨hnone, _⟩ | ⟨hmem, k, hk, hm, hs⟩
  · cases hnone
  refine ⟨hmem, k, hk, hm, fun hne x hx k' hk' hm' => ?_⟩
  rcases hs with hs | hs | hs
  · exact absurd hs hne
  · have hpid : k'.pid = k.pid := by grind [Process.Matches]
    cases h.pid_inj hk' hk hpid
    cases hk.symm.trans hk'
    exact hne
  · exact hs x hx k' hk'

/-! ## Everything a step can do -/

/-- The process that is in `waitpid` in this step. -/
def ProcAction.waiter : ProcAction → Option Nat
  | .waitpid p .. | .resume p _ => some p
  | _ => none

/-- The thread states after the children of `parent` have one reapable more. -/
def wakeParent (parent : Option Nat) (threads : Nat → ThreadState) (x : Nat) : ThreadState :=
  if parent = some x then (threads x).wake else threads x

@[simp] theorem wakeParent_none (threads : Nat → ThreadState) : wakeParent none threads = threads :=
  rfl

theorem wakeParent_some (q : Nat) (threads : Nat → ThreadState) :
    wakeParent (some q) threads = update threads q (threads q).wake := by
  funext x
  by_cases hx : x = q <;> simp [wakeParent, hx, Ne.symm]

/-- `process_thread_reaped` frees the record itself. -/
def Process.freedAtReap (r : Process) : Bool := r.observed || r.parent.isNone

inductive Effect (s : Procs) : ProcAction → Procs → Prop
  /-- A call fails and changes nothing. -/
  | failed {a p e} (caller : a.waiter = some p ∨ a = .fork p .noRecord)
      (active : (s.threads p).state = .running) :
      Effect s a (s.ret p (.error e))
  | sleep {a p r pid address} (caller : a.waiter = some p)
      (active : (s.threads p).state = .running) (record : s.procs p = some r)
      (some_match : ∃ c ∈ r.children, ∃ k, s.procs c = some k ∧ k.Matches pid)
      (none_ready : ∀ c ∈ r.children, ∀ k, s.procs c = some k → k.Matches pid →
        k.state ≠ .reapable) :
      Effect s a (s.setThread p (.waiting pid address))
  | collect {a p r c k} (caller : a.waiter = some p) (active : (s.threads p).state = .running)
      (record : s.procs p = some r) (mem : c ∈ r.children) (child : s.procs c = some k)
      (ready : k.state = .reapable) :
      Effect s a { s with
        procs := update
          (update s.procs p (some { r with children := r.children.erase c })) c none
        threads := update s.threads p .running
        events := s.events ++ [.collected p c k.exitStatus, .released c]
        returns := s.returns ++ [(p, .ok k.pid)] }
  | forkFailed {p outcome} (fds : List Nat) (active : s.threads p = .running)
      (fails : outcome ≠ .done) :
      Effect s (.fork p outcome) { s with
        threads := update s.threads p .running
        nextId := s.nextId + 1
        nextPid := s.nextPid + 1
        events := s.events ++ (teardown s.nextId fds ++ [.released s.nextId])
        returns := s.returns ++ [(p, .error .nomem)] }
  | fork {p r} (active : s.threads p = .running) (record : s.procs p = some r) :
      Effect s (.fork p .done) { s with
        procs := update
          (update s.procs p (some { r with children := r.children ++ [s.nextId] }))
          s.nextId (some ⟨s.nextPid, some p, [], .running, 0, 0, false, r.fds⟩)
        threads := update (update s.threads s.nextId .running) p .running
        nextId := s.nextId + 1
        nextPid := s.nextPid + 1
        returns := s.returns ++ [(p, .ok s.nextPid)] }
  | exit {p r status fault} (active : s.threads p = .running) (record : s.procs p = some r)
      (adopter : Option Nat) (adopts : adopter = if s.init = some p then none else s.init) :
      Effect s (.exit p status fault) { s with
        procs := adopted adopter r.children
          (update s.procs p (some (r.exited status fault)))
        threads := update s.threads p .dead
        events := s.events ++ .exited p status r.fds ::
          (freedOrphans adopter r.children s.procs).map .released }
  | reap {p r} (result) (dead : s.threads p = .dead) (record : s.procs p = some r) :
      Effect s (.reap p) { s with
        procs := update s.procs p
          (if r.freedAtReap then none else some { r with fds := [], state := .reapable })
        threads := wakeParent r.parent (update s.threads p .gone)
        init := if s.init = some p then none else s.init
        result := result
        events := s.events ++ (teardown p r.fds ++ .reapable p ::
          if r.freedAtReap then [.released p] else []) }
  | files {p r} (fds : List Nat) (active : s.threads p = .running) (record : s.procs p = some r) :
      Effect s (.files p fds) { s with
        procs := update s.procs p (some { r with fds := fds }) }

namespace ProcInv

variable {s s' : Procs} {p : Nat}

variable (h : ProcInv s)

include h

/-- A process that is not reaped has its record. -/
theorem record_of_state (hp : (s.threads p).state ≠ .reapable) : ∃ r, s.procs p = some r := by
  cases hr : s.procs p with
  | some r => exact ⟨r, rfl⟩
  | none => exact absurd (by rw [h.gone hr]; rfl) hp

theorem not_mem_children {r : Process} (hp : s.procs p = some r) : p ∉ r.children := by
  intro hm
  obtain ⟨k, hk, hpar⟩ := h.child hp hm
  exact h.self hk hpar

theorem fresh : s.procs s.nextId = none := by
  cases hr : s.procs s.nextId with
  | none => rfl
  | some r => exact absurd (h.lt hr) (Nat.lt_irrefl _)

/-- A round of `waitpid` fails, sleeps or collects. -/
theorem waitLoop_effect {a : ProcAction} (ha : a.waiter = some p)
    (hact : (s.threads p).state = .running) (pid : Int) (address : Nat) (copies : Bool) :
    Effect s a (waitLoop s p pid address copies) := by
  obtain ⟨r, hr⟩ := h.record_of_state (p := p) (by simp [hact])
  unfold waitLoop
  simp only [hr, Option.map_some, Option.getD_some]
  cases hf : findChild s.procs pid r.children none with
  | none => exact .failed (.inl ha) hact
  | some c =>
    obtain ⟨hmem, k, hk, hm, hready⟩ := h.findChild_some hf
    simp only [hk]
    by_cases hst : k.state = .reapable
    · by_cases hfault : address ≠ 0 ∧ copies = false
      · simp only [hst, hfault, ne_eq, not_false_eq_true, and_self, ↓reduceIte]
        exact .failed (.inl ha) hact
      · have hne : c ≠ p := fun e => h.not_mem_children hr (e ▸ hmem)
        have heq := Effect.collect ha hact hr hmem hk hst
        simp only [hst, hfault, ↓reduceIte]
        convert heq using 1
        simp only [unlinkChild, Procs.log, Procs.modify, Procs.kfree, Procs.ret, hr,
          Procs.mk.injEq, true_and, and_true]
        refine ⟨funext fun x => ?_, by simp⟩
        by_cases hx : x = c <;> simp [update_apply, hx]
    · simp only [hst, ↓reduceIte]
      exact .sleep ha hact hr ⟨c, hmem, k, hk, hm⟩ (hready hst)

theorem fork_effect (hp : s.threads p = .running) (outcome : ForkOutcome) :
    Effect s (.fork p outcome) (processFork s p outcome) := by
  obtain ⟨r, hr⟩ := h.record_of_state (p := p) (by simp [hp, ThreadState.state])
  have hne : p ≠ s.nextId := Nat.ne_of_lt (h.lt hr)
  have hnew : s.nextId ∉ r.children := by
    intro hm
    obtain ⟨k, hk, -⟩ := h.child hr hm
    exact absurd hk (by simp [h.fresh])
  cases outcome with
  | noRecord => exact .failed (.inr rfl) (by simp [hp, ThreadState.state])
  | noCopy =>
    have heff : Effect s (.fork p .noCopy) _ := .forkFailed [] hp (by decide)
    convert heff using 1
    simp only [processFork, processCreate, processDestroy, update_self, Procs.log,
      Procs.kfree, Procs.ret, Procs.mk.injEq, and_true, append_assoc]
    funext x
    by_cases hx : x = s.nextId <;> simp [hx, h.fresh]
  | noThread =>
    have heff : Effect s (.fork p .noThread) _ := .forkFailed r.fds hp (by decide)
    convert heff using 1
    simp only [processFork, processCreate, processDestroy, linkChild, unlinkChild, Procs.modify,
      update_self, update_of_ne hne, update_of_ne hne.symm,
      Option.map_some, Procs.log, Procs.kfree, Procs.ret, hr, Option.getD_some, Procs.mk.injEq,
      and_true, append_assoc]
    funext x
    by_cases hx : x = s.nextId
    · simp [hx, h.fresh]
    by_cases hxp : x = p
    · subst hxp
      simp [hx, hr, erase_append_right _ hnew]
    · simp [hx, hxp]
  | done =>
    convert Effect.fork hp hr using 1
    simp only [processFork, processCreate, linkChild, Procs.modify, update_self,
      update_of_ne hne, Option.map_some, Procs.setThread, Procs.ret, hr,
      Option.getD_some, Procs.mk.injEq, and_true]
    funext x
    by_cases hx : x = s.nextId
    · simp [hx, hne.symm]
    · by_cases hxp : x = p <;> simp [hx, hxp, hne]

/-- The exit loop ends with the children given away. -/
theorem exit_effect (hp : s.threads p = .running) (status : Int) (fault : Nat) :
    Effect s (.exit p status fault) (processExit s p status fault) := by
  obtain ⟨r, hr⟩ := h.record_of_state (p := p) (by simp [hp, ThreadState.state])
  have hself := h.not_mem_children hr
  have hinit : ∀ i, (if s.init = some p then none else s.init) = some i → i ∉ r.children := by
    intro i hi hm
    obtain ⟨k, hk, hpar⟩ := h.child hr hm
    obtain ⟨k', hk', hroot⟩ := h.init_some (i := i) (by grind)
    cases hk.symm.trans hk'
    simp [hroot] at hpar
  have heff : Effect s (.exit p status fault) _ := .exit hp hr _ rfl
  convert heff using 1
  simp only [processExit, hr]
  rw [foldl_orphanChild (h.nodup hr) hinit]
  simp only [Procs.modify, Procs.log, Procs.setThread, hr, Option.map_some, Procs.mk.injEq,
    true_and, and_true, append_assoc, singleton_append, append_cancel_left_eq,
    List.cons.injEq]
  refine congrArg _ (filter_congr fun x hx => ?_)
  have hxp : x ≠ p := fun e => hself (e ▸ hx)
  simp [hxp]

theorem reap_effect (hp : s.threads p = .dead) : Effect s (.reap p) (processThreadReaped s p) := by
  obtain ⟨r, hr⟩ := h.record_of_state (p := p) (by simp [hp, ThreadState.state])
  have hobs := h.observed hr
  have heff : ∀ result, Effect s (.reap p) _ := fun result => .reap result hp hr
  cases hroot : r.observed with
  | true =>
    convert heff (some (r.exitStatus, r.faultCode)) using 1
    cases hpar : r.parent <;>
      simp [processThreadReaped, Procs.setThread, hr, hpar, hroot, Procs.log, Procs.modify,
        Procs.kfree, wakeAll, Process.freedAtReap, wakeParent_some]
  | false =>
    have hinit : s.init ≠ some p := fun e => by simp [hobs.mpr e] at hroot
    convert heff s.result using 1
    cases hpar : r.parent <;>
      simp [processThreadReaped, Procs.setThread, hr, hpar, hroot, hinit, Procs.log,
        Procs.modify, Procs.kfree, wakeAll, Process.freedAtReap, wakeParent_some]

/-- **Every step has one of the effects**; all invariants are derived from them. -/
theorem step_effect {a : ProcAction} (hs : procStep s a = some s') : Effect s a s' := by
  cases a with
  | fork p outcome =>
    simp only [procStep, Option.ite_none_right_eq_some, Option.some.injEq] at hs
    obtain ⟨hp, rfl⟩ := hs
    exact h.fork_effect hp outcome
  | exit p status fault =>
    simp only [procStep, Option.ite_none_right_eq_some, Option.some.injEq] at hs
    obtain ⟨hp, rfl⟩ := hs
    exact h.exit_effect hp status fault
  | reap p =>
    simp only [procStep, Option.ite_none_right_eq_some, Option.some.injEq] at hs
    obtain ⟨hp, rfl⟩ := hs
    exact h.reap_effect hp
  | waitpid p pid address options copies =>
    simp only [procStep, Option.ite_none_right_eq_some] at hs
    obtain ⟨hp, hs⟩ := hs
    have hact : (s.threads p).state = .running := by simp [hp, ThreadState.state]
    split at hs
    · cases hs
      exact .failed (.inl rfl) hact
    · cases hs
      exact h.waitLoop_effect (p := p) rfl hact pid address copies
  | resume p copies =>
    simp only [procStep] at hs
    split at hs
    · next pid address hp =>
      cases hs
      exact h.waitLoop_effect (p := p) rfl (by simp [hp, ThreadState.state]) pid address copies
    · cases hs
  | files p fds =>
    simp only [procStep, Option.ite_none_right_eq_some, Option.some.injEq] at hs
    obtain ⟨hp, rfl⟩ := hs
    obtain ⟨r, hr⟩ := h.record_of_state (p := p) (by simp [hp, ThreadState.state])
    simpa [Procs.modify, hr] using Effect.files fds hp hr

end ProcInv

end MiniCore
