import MiniCore.Abi
import MiniCore.Lib.Ring
import MiniCore.Lib.Transition

/-!
# MiniCore.Fs.Pipe

Pipes (`src/fs/pipe.c`) with the threads that use one.

A call runs under the pipe's lock from its entry, or from its wakeup, to its
return or to `wait_queue_sleep`; that stretch is one step.  A thread is asleep
while its id is on `readable` or `writable`; a thread that has been woken is in
its call and on neither queue, and may be resumed in any order with the others.
`log` lists the completed calls in completion order; no function reads it.
-/

namespace MiniCore

open Lib

def pipeCapacity : Nat := 512

/-- `struct pipe` without its lock and wait queues. -/
structure Pipe where
  head : Nat
  used : Nat
  reader : Bool
  writer : Bool
  data : Nat → UInt8

/-- The pipe that `pipe_create` returns, in zeroed memory. -/
def Pipe.fresh : Pipe := ⟨0, 0, true, true, fun _ => 0⟩

/-- The buffered bytes, oldest first. -/
def Pipe.contents (p : Pipe) : List UInt8 := ringList pipeCapacity p.data p.head p.used

/-! ## Reading and writing -/

inductive PipeCall where
  | read (size : Nat)
  | write (buffer : List UInt8)
deriving DecidableEq, Repr

def PipeCall.size : PipeCall → Nat
  | .read size => size
  | .write buffer => buffer.length

/-- A completed call: what it returned, and for a read what it stored in the
caller's buffer. -/
inductive PipeDone where
  | read (thread size : Nat) (result : Nat) (bytes : List UInt8)
  | write (thread : Nat) (buffer : List UInt8) (result : Except Errno Nat)
deriving DecidableEq

/-- The part of `pipe_read` behind the loop. -/
def Pipe.take (p : Pipe) (size : Nat) : Nat × List UInt8 × Pipe :=
  let size := if p.used < size then p.used else size
  let (bytes, head) := ringTake pipeCapacity p.data size p.head
  (size, bytes, { p with head := head, used := p.used - size })

/-- The part of `pipe_write` behind the loop, with a reader. -/
def Pipe.put (p : Pipe) (buffer : List UInt8) : Nat × Pipe :=
  let size := if pipeCapacity - p.used < buffer.length then pipeCapacity - p.used else buffer.length
  let data := ringPut pipeCapacity p.data (p.head + p.used) size fun i => buffer.getD i 0
  (size, { p with data := data, used := p.used + size })

/-! ## The pipe and its threads -/

inductive Endpoint where
  | reader | writer
deriving DecidableEq, Repr

/-- A pipe with the sleepers on its two queues and the calls in progress. -/
structure PipeState where
  pipe : Pipe
  readable : List Nat
  writable : List Nat
  calls : Nat → Option PipeCall
  freed : Bool
  log : List PipeDone

def PipeState.fresh : PipeState := ⟨Pipe.fresh, [], [], fun _ => none, false, []⟩

/-- `wait_queue_sleep` in the loop of a call. -/
def PipeState.sleep (s : PipeState) (t : Nat) (c : PipeCall) : PipeState :=
  match c with
  | .read _ => { s with readable := s.readable ++ [t], calls := Function.update s.calls t (some c) }
  | .write _ =>
    { s with writable := s.writable ++ [t], calls := Function.update s.calls t (some c) }

/-- A call returns. -/
def PipeState.finish (s : PipeState) (t : Nat) (d : PipeDone) : PipeState :=
  { s with calls := Function.update s.calls t none, log := s.log ++ [d] }

/-- The body of `pipe_read` and `pipe_write` from the loop test on. -/
def PipeState.proceed (s : PipeState) (t : Nat) : PipeCall → PipeState
  | .read size =>
    if s.pipe.used = 0 ∧ s.pipe.writer = true then s.sleep t (.read size)
    else
      let (result, bytes, pipe) := s.pipe.take size
      { s with pipe := pipe, writable := [] }.finish t (.read t size result bytes)
  | .write buffer =>
    if s.pipe.used = pipeCapacity ∧ s.pipe.reader = true then s.sleep t (.write buffer)
    else if s.pipe.reader = false then s.finish t (.write t buffer (.error .pipe))
    else
      let (result, pipe) := s.pipe.put buffer
      { s with pipe := pipe, readable := [] }.finish t (.write t buffer (.ok result))

/-- The return of a call of size 0, which does not look at the pipe. -/
def PipeCall.empty (t : Nat) : PipeCall → PipeDone
  | .read size => .read t size 0 []
  | .write buffer => .write t buffer (.ok 0)

def Pipe.close (p : Pipe) : Endpoint → Pipe
  | .reader => { p with reader := false }
  | .writer => { p with writer := false }

inductive PipeAction where
  | call (t : Nat) (c : PipeCall)
  | resume (t : Nat)
  | release (e : Endpoint)

/-- One step: a thread enters a call, a woken thread goes on with its call, or
an endpoint is released.  Nothing happens to a pipe that has been freed. -/
def pipeStep (s : PipeState) (a : PipeAction) : Option PipeState :=
  if s.freed then none
  else
    match a with
    | .call t c =>
      if (s.calls t).isSome then none
      else if c.size = 0 then some (s.finish t (c.empty t))
      else some (s.proceed t c)
    | .resume t =>
      match s.calls t with
      | none => none
      | some c => if t ∈ s.readable ∨ t ∈ s.writable then none else some (s.proceed t c)
    | .release e =>
      let pipe := s.pipe.close e
      some { s with
        pipe := pipe
        readable := []
        writable := []
        freed := !pipe.reader && !pipe.writer }

/-! ## Transfers are queue operations -/

structure Pipe.Ok (p : Pipe) : Prop where
  head_lt : p.head < pipeCapacity
  used_le : p.used ≤ pipeCapacity

/-- A read takes a prefix of the queue, as much as it may. -/
theorem Pipe.take_spec {p : Pipe} (h : p.Ok) (size : Nat) :
    (p.take size).1 = min size p.used ∧ (p.take size).2.1 = p.contents.take (min size p.used) ∧
      (p.take size).2.2.contents = p.contents.drop (min size p.used) ∧ (p.take size).2.2.Ok ∧
      (p.take size).2.2.reader = p.reader ∧ (p.take size).2.2.writer = p.writer ∧
      (p.take size).2.2.used = p.used - min size p.used := by
  have hmin : (if p.used < size then p.used else size) = min size p.used := by
    split <;> omega
  have hle : min size p.used ≤ p.used := Nat.min_le_right _ _
  simp only [take, hmin, ringTake_eq h.head_lt]
  refine ⟨trivial, ringList_take hle, ringList_drop, ⟨Nat.mod_lt _ (by decide), ?_⟩,
    trivial, trivial, trivial⟩
  exact Nat.le_trans (Nat.sub_le _ _) h.used_le

/-- A write appends a prefix of its buffer, as much as fits. -/
theorem Pipe.put_spec {p : Pipe} (h : p.Ok) (buffer : List UInt8) :
    (p.put buffer).1 = min buffer.length (pipeCapacity - p.used) ∧
      (p.put buffer).2.contents =
        p.contents ++ buffer.take (min buffer.length (pipeCapacity - p.used)) ∧
      (p.put buffer).2.Ok ∧ (p.put buffer).2.reader = p.reader ∧
      (p.put buffer).2.writer = p.writer ∧
      (p.put buffer).2.used = p.used + min buffer.length (pipeCapacity - p.used) := by
  have hused := h.used_le
  have hmin : (if pipeCapacity - p.used < buffer.length then pipeCapacity - p.used
      else buffer.length) = min buffer.length (pipeCapacity - p.used) := by
    split <;> omega
  simp only [put, hmin]
  generalize hn : min buffer.length (pipeCapacity - p.used) = n
  have hbuf : (List.range n).map (fun i => buffer.getD i 0) = buffer.take n := by
    refine List.ext_getElem (by simp; omega) fun i h1 h2 => ?_
    have hi : i < buffer.length := by simp at h1; omega
    simp [List.getD_eq_getElem?_getD, List.getElem?_eq_getElem hi]
  refine ⟨trivial, ?_, ⟨h.head_lt, ?_⟩, trivial, trivial, trivial⟩
  · rw [contents, ringList_put _ (by omega), hbuf]
    rfl
  · simp only
    omega

/-! ## The invariant -/

/-- The bytes that all completed reads returned, in completion order. -/
def readBytes (log : List PipeDone) : List UInt8 :=
  log.flatMap fun
    | .read _ _ _ bytes => bytes
    | .write .. => []

/-- The prefixes that all completed writes accepted, in completion order. -/
def writtenBytes (log : List PipeDone) : List UInt8 :=
  log.flatMap fun
    | .write _ buffer (.ok n) => buffer.take n
    | _ => []

/-- What a call that did not fail returned. -/
def PipeDone.returned : PipeDone → Option Nat
  | .read _ _ result _ => some result
  | .write _ _ (.ok n) => some n
  | .write _ _ (.error _) => none

/-- The bytes a call moved. -/
def PipeDone.moved : PipeDone → List UInt8
  | .read _ _ _ bytes => bytes
  | .write _ buffer (.ok n) => buffer.take n
  | .write _ _ (.error _) => []

/-- What holds between any two steps. -/
structure PipeInv (s : PipeState) : Prop where
  ok : s.pipe.Ok
  flow : readBytes s.log ++ s.pipe.contents = writtenBytes s.log
  moved : ∀ d ∈ s.log, ∀ n, d.returned = some n → d.moved.length = n
  positive : ∀ t c, s.calls t = some c → 0 < c.size
  readable : s.readable ≠ [] → s.pipe.used = 0 ∧ s.pipe.writer = true
  writable : s.writable ≠ [] → s.pipe.used = pipeCapacity ∧ s.pipe.reader = true

/-- What `proceed` can do: sleep on one of the queues, or return. -/
theorem PipeState.proceed_cases (s : PipeState) (t : Nat) (c : PipeCall) :
    (∃ size, c = .read size ∧ s.pipe.used = 0 ∧ s.pipe.writer = true ∧
      s.proceed t c = s.sleep t c) ∨
      (∃ buffer, c = .write buffer ∧ s.pipe.used = pipeCapacity ∧ s.pipe.reader = true ∧
      s.proceed t c = s.sleep t c) ∨
    (∃ size, c = .read size ∧ ¬ (s.pipe.used = 0 ∧ s.pipe.writer = true) ∧
      s.proceed t c = { s with pipe := (s.pipe.take size).2.2, writable := [] }.finish t
        (.read t size (s.pipe.take size).1 (s.pipe.take size).2.1)) ∨
    (∃ buffer, c = .write buffer ∧ s.pipe.reader = false ∧
      s.proceed t c = s.finish t (.write t buffer (.error .pipe))) ∨
    (∃ buffer, c = .write buffer ∧ s.pipe.used ≠ pipeCapacity ∧ s.pipe.reader = true ∧
      s.proceed t c = { s with pipe := (s.pipe.put buffer).2, readable := [] }.finish t
        (.write t buffer (.ok (s.pipe.put buffer).1))) := by
  cases c with
  | read size =>
    by_cases hw : s.pipe.used = 0 ∧ s.pipe.writer = true
    · exact .inl ⟨size, rfl, hw.1, hw.2, by rw [proceed, if_pos hw]⟩
    · exact .inr (.inr (.inl ⟨size, rfl, hw, by rw [proceed, if_neg hw]⟩))
  | write buffer =>
    by_cases hw : s.pipe.used = pipeCapacity ∧ s.pipe.reader = true
    · exact .inr (.inl ⟨buffer, rfl, hw.1, hw.2, by rw [proceed, if_pos hw]⟩)
    by_cases hr : s.pipe.reader = false
    · exact .inr (.inr (.inr (.inl ⟨buffer, rfl, hr, by
        rw [proceed, if_neg hw, if_pos hr]⟩)))
    have hr' : s.pipe.reader = true := by simpa using hr
    exact .inr (.inr (.inr (.inr ⟨buffer, rfl, fun hu => hw ⟨hu, hr'⟩, hr', by
      rw [proceed, if_neg hw, if_neg hr]⟩)))

/-- What a step can do: return at once, go through `proceed`, or release. -/
theorem pipeStep_cases {s s' : PipeState} {a : PipeAction} (h : pipeStep s a = some s') :
    (∃ (t : Nat) (c : PipeCall), c.size = 0 ∧ s' = s.finish t (c.empty t)) ∨
    (∃ (t : Nat) (c : PipeCall), (0 < c.size ∨ s.calls t = some c) ∧ s' = s.proceed t c) ∨
    (∃ e, s' = { s with
      pipe := s.pipe.close e
      readable := []
      writable := []
      freed := !(s.pipe.close e).reader && !(s.pipe.close e).writer }) := by
  unfold pipeStep at h
  split at h
  · cases h
  cases a with
  | call t c =>
    simp only at h
    split at h
    · cases h
    split at h
    · next hz => exact .inl ⟨t, c, hz, (Option.some.inj h).symm⟩
    · next hz => exact .inr (.inl ⟨t, c, .inl (Nat.pos_of_ne_zero hz), (Option.some.inj h).symm⟩)
  | resume t =>
    simp only at h
    cases hc : s.calls t with
    | none => simp [hc] at h
    | some c =>
      simp only [hc] at h
      split at h
      · cases h
      · exact .inr (.inl ⟨t, c, .inr hc, (Option.some.inj h).symm⟩)
  | release e => exact .inr (.inr ⟨e, (Option.some.inj h).symm⟩)

section

variable {s : PipeState} {t : Nat}

theorem readBytes_append (log : List PipeDone) (d : PipeDone) :
    readBytes (log ++ [d]) = readBytes log ++ readBytes [d] := by simp [readBytes]

theorem writtenBytes_append (log : List PipeDone) (d : PipeDone) :
    writtenBytes (log ++ [d]) = writtenBytes log ++ writtenBytes [d] := by simp [writtenBytes]

/-- A thread falls asleep where the queue's condition holds. -/
theorem PipeInv.sleep (h : PipeInv s) {c : PipeCall} (hpos : 0 < c.size) (hwait : match c with
      | .read _ => s.pipe.used = 0 ∧ s.pipe.writer = true
      | .write _ => s.pipe.used = pipeCapacity ∧ s.pipe.reader = true) : PipeInv (s.sleep t c) := by
  have hcalls : ∀ u c', Function.update s.calls t (some c) u = some c' → 0 < c'.size := by
    intro u c' hu
    by_cases hut : u = t
    · rw [hut, Function.update_self] at hu
      exact Option.some.inj hu ▸ hpos
    · rw [Function.update_of_ne hut] at hu
      exact h.positive u c' hu
  cases c with
  | read size => exact ⟨h.ok, h.flow, h.moved, hcalls, fun _ => hwait, h.writable⟩
  | write buffer => exact ⟨h.ok, h.flow, h.moved, hcalls, h.readable, fun _ => hwait⟩

/-- A call returns, after whatever it did to the pipe. -/
theorem PipeInv.finish (h : PipeInv s) {pipe : Pipe} {readable writable : List Nat} {d : PipeDone}
    (hok : pipe.Ok) (hflow : readBytes [d] ++ pipe.contents = s.pipe.contents ++ writtenBytes [d])
    (hmoved : ∀ n, d.returned = some n → d.moved.length = n)
    (hr : readable ≠ [] → pipe.used = 0 ∧ pipe.writer = true)
    (hw : writable ≠ [] → pipe.used = pipeCapacity ∧ pipe.reader = true) :
    PipeInv ({ s with pipe := pipe, readable := readable, writable := writable }.finish t d) := by
  refine ⟨hok, ?_, ?_, ?_, hr, hw⟩
  · show readBytes (s.log ++ [d]) ++ pipe.contents = writtenBytes (s.log ++ [d])
    rw [readBytes_append, writtenBytes_append, List.append_assoc, hflow,
      ← List.append_assoc, h.flow]
  · intro d' hd'
    rcases List.mem_append.mp hd' with hd' | hd'
    · exact h.moved d' hd'
    · rw [List.mem_singleton] at hd'
      exact hd' ▸ hmoved
  · intro u c hu
    by_cases hut : u = t
    · simp [PipeState.finish, hut] at hu
    · exact h.positive u c (by simpa [PipeState.finish, Function.update_of_ne hut] using hu)

theorem PipeInv.proceed (h : PipeInv s) {c : PipeCall} (hpos : 0 < c.size) :
    PipeInv (s.proceed t c) := by
  rcases s.proceed_cases t c with ⟨size, rfl, hu, hw, heq⟩ | ⟨buffer, rfl, hu, hr, heq⟩ |
    ⟨size, rfl, hgo, heq⟩ | ⟨buffer, rfl, hr, heq⟩ | ⟨buffer, rfl, hu, hr, heq⟩ <;> rw [heq]
  · exact h.sleep hpos ⟨hu, hw⟩
  · exact h.sleep hpos ⟨hu, hr⟩
  · -- a read: the writers are woken, and no reader was asleep
    obtain ⟨hres, hbytes, hcont, hok, _, _, _⟩ := Pipe.take_spec h.ok size
    have hnone : s.readable = [] := by
      by_contra hne
      exact hgo (h.readable hne)
    have hlen : (s.pipe.take size).2.1.length = (s.pipe.take size).1 := by
      rw [hbytes, hres, List.length_take, Pipe.contents, length_ringList]
      omega
    refine h.finish hok ?_ ?_ (fun hne => absurd hnone hne) (by simp)
    · simp [readBytes, writtenBytes, hbytes, hcont, List.take_append_drop]
    intro n hn
    cases hn
    exact hlen
  · exact h.finish h.ok (by simp [readBytes, writtenBytes]) (by simp [PipeDone.returned])
      h.readable h.writable
  · -- a write: the readers are woken, and no writer was asleep
    obtain ⟨hres, hcont, hok, _, _, _⟩ := Pipe.put_spec h.ok buffer
    have hnone : s.writable = [] := by
      by_contra hne
      exact hu (h.writable hne).1
    refine h.finish hok ?_ ?_ (by simp) (fun hne => absurd hnone hne)
    · simp [readBytes, writtenBytes, hres, hcont]
    intro n hn
    cases hn
    rw [PipeDone.moved, List.length_take, hres]
    omega

/-- **Every step keeps the invariant.** -/
theorem PipeInv.step {s' : PipeState} {a : PipeAction} (h : PipeInv s)
    (hs : pipeStep s a = some s') : PipeInv s' := by
  rcases pipeStep_cases hs with ⟨t, c, hz, rfl⟩ | ⟨t, c, hc, rfl⟩ | ⟨e, rfl⟩
  · refine h.finish h.ok ?_ ?_ h.readable h.writable
    · cases c <;> simp [readBytes, writtenBytes, PipeCall.empty]
    · intro n hn
      cases c <;> cases hn <;> simp [PipeCall.empty, PipeDone.moved]
  · rcases hc with hpos | hc
    · exact h.proceed hpos
    · exact h.proceed (h.positive t c hc)
  · cases e <;> exact ⟨⟨h.ok.head_lt, h.ok.used_le⟩, h.flow, h.moved, h.positive, by simp, by simp⟩

theorem PipeInv.reach (hr : Reach pipeStep Always PipeState.fresh s) : PipeInv s := by
  have hfresh : PipeInv PipeState.fresh :=
    ⟨⟨by decide, by decide⟩, rfl, by simp [PipeState.fresh], by simp [PipeState.fresh], by
      simp [PipeState.fresh], by simp [PipeState.fresh]⟩
  exact hr.invariant hfresh fun _ _ _ h _ hs => h.step hs

/-! ## What the invariant says -/

/-- **A pipe is a lossless FIFO**: whatever the interleaving, what was read and
what is still buffered is what was written, in order. -/
theorem pipe_fifo (hr : Reach pipeStep Always PipeState.fresh s) :
    s.pipe.head < 512 ∧ s.pipe.used ≤ 512 ∧
    readBytes s.log ++ (List.range s.pipe.used).map
    (fun i => s.pipe.data ((s.pipe.head + i) % 512)) =
      writtenBytes s.log ∧
    ∀ d ∈ s.log, ∀ n, d.returned = some n → d.moved.length = n := by
  have h := PipeInv.reach hr
  exact ⟨h.ok.head_lt, h.ok.used_le, h.flow, h.moved⟩

/-- A reader sleeps, is woken by a write, and reads on after the writer has gone. -/
theorem pipe_fifo_run : ∃ s, runSteps pipeStep PipeState.fresh
      [.call 1 (.read 4), .call 2 (.write [7, 8, 9]), .resume 1, .call 2 (.write [1, 2]),
        .release .writer, .call 1 (.read 1)] = some s ∧
    readBytes s.log = [7, 8, 9, 1] ∧ s.pipe.used = 1 ∧ readBytes s.log ++
      (List.range s.pipe.used).map (fun i => s.pipe.data ((s.pipe.head + i) % 512)) =
        writtenBytes s.log := by
  have hrun : (runSteps pipeStep PipeState.fresh
      [.call 1 (.read 4), .call 2 (.write [7, 8, 9]), .resume 1, .call 2 (.write [1, 2]),
        .release .writer, .call 1 (.read 1)]).map (fun s => (readBytes s.log, s.pipe.used)) =
      some ([7, 8, 9, 1], 1) := by decide +kernel
  obtain ⟨s, hs, heq⟩ := Option.map_eq_some_iff.mp hrun
  obtain ⟨hread, hused⟩ := Prod.mk.injEq .. ▸ heq
  exact ⟨s, hs, hread, hused, (pipe_fifo (Reach.of_runSteps hs fun _ _ _ => trivial)).2.2.1⟩

/-- A call that returned without an error or with one did so for a reason that
the pipe shows: no data and no writer, or no reader. -/
def PipeDone.Justified (p : Pipe) : PipeDone → Prop
  | .read _ size result _ => 0 < size → result = 0 → p.writer = false ∧ p.used = 0
  | .write _ buffer result => 0 < buffer.length →
      (result = .error .pipe ∧ p.reader = false) ∨ ∃ n, result = .ok n ∧ 0 < n

/-- **Blocking discipline**: a thread sleeps only where it has to, and a call of
positive size that returns moves something unless the other end is closed. -/
theorem pipe_blocking (hr : Reach pipeStep Always PipeState.fresh s) :
    (∀ t ∈ s.readable, s.pipe.used = 0 ∧ s.pipe.writer = true) ∧
    (∀ t ∈ s.writable, s.pipe.used = 512 ∧ s.pipe.reader = true) ∧
    ∀ a s' d, pipeStep s a = some s' → s'.log = s.log ++ [d] → d.Justified s.pipe := by
  have h := PipeInv.reach hr
  refine ⟨fun t ht => h.readable (List.ne_nil_of_mem ht), fun t ht => h.writable
    (List.ne_nil_of_mem ht), ?_⟩
  intro a s' d hs hlog
  have hlast : ∀ {d' : PipeDone}, s.log ++ [d'] = s.log ++ [d] → d' = d := by
    intro d' heq
    simpa using heq
  have hasleep : s.log ≠ s.log ++ [d] := by simp
  rcases pipeStep_cases hs with ⟨t, c, hz, rfl⟩ | ⟨t, c, hc, rfl⟩ | ⟨e, rfl⟩
  · rw [← hlast hlog]
    cases c with
    | read size => exact fun hpos => absurd hz (Nat.ne_of_gt hpos)
    | write buffer => exact fun hpos => absurd hz (Nat.ne_of_gt hpos)
  · rcases s.proceed_cases t c with ⟨size, rfl, _, _, heq⟩ | ⟨buffer, rfl, _, _, heq⟩ |
      ⟨size, rfl, hgo, heq⟩ | ⟨buffer, rfl, hrd, heq⟩ | ⟨buffer, rfl, hu, hrd,
        heq⟩ <;> rw [heq] at hlog
    · exact absurd hlog hasleep
    · exact absurd hlog hasleep
    · rw [← hlast hlog]
      intro hpos hzero
      have hused : s.pipe.used = 0 := by
        rw [(Pipe.take_spec h.ok size).1] at hzero
        omega
      exact ⟨by simpa using fun hw => hgo ⟨hused, hw⟩, hused⟩
    · rw [← hlast hlog]
      exact fun _ => .inl ⟨rfl, hrd⟩
    · rw [← hlast hlog]
      intro hpos
      have hle := h.ok.used_le
      refine .inr ⟨_, rfl, ?_⟩
      rw [(Pipe.put_spec h.ok buffer).1]
      omega
  · exact absurd hlog hasleep

/-- Two readers go to sleep. -/
def waitingReads : List PipeAction := [.call 1 (.read 4), .call 2 (.read 1)]

/-- The first write fills the ring, the second goes to sleep. -/
def waitingWrite : List PipeAction :=
  [.call 1 (.write (List.replicate 600 7)), .call 2 (.write [8])]

/-- The first reader returns with nothing once the writer has gone. -/
theorem pipe_blocking_run : ∃ s s₁ s₂ s', runSteps pipeStep PipeState.fresh waitingReads = some s ∧
    s.readable = [1, 2] ∧ (∀ t ∈ s.readable, s.pipe.used = 0 ∧ s.pipe.writer = true) ∧
    pipeStep s (.release .writer) = some s₁ ∧ pipeStep s₁ (.resume 1) = some s₂ ∧
    s₂.log = s₁.log ++ [.read 1 4 0 []] ∧ (PipeDone.read 1 4 0 []).Justified s₁.pipe ∧
    runSteps pipeStep PipeState.fresh waitingWrite = some s' ∧ s'.writable = [2] ∧
    ∀ t ∈ s'.writable, s'.pipe.used = 512 ∧ s'.pipe.reader = true := by
  have hread : ((runSteps pipeStep PipeState.fresh waitingReads).bind fun s =>
      (pipeStep s (.release .writer)).bind fun s₁ => (pipeStep s₁ (.resume 1)).map fun s₂ =>
        (s.readable, decide (s₂.log = s₁.log ++ [.read 1 4 0 []]))) = some ([1, 2], true) := by
    decide +kernel
  have hwrite : (runSteps pipeStep PipeState.fresh waitingWrite).map PipeState.writable =
      some [2] := by decide +kernel
  obtain ⟨s, hs, hread⟩ := Option.bind_eq_some_iff.mp hread
  obtain ⟨s₁, hs₁, hread⟩ := Option.bind_eq_some_iff.mp hread
  obtain ⟨s₂, hs₂, hread⟩ := Option.map_eq_some_iff.mp hread
  obtain ⟨s', hs', hwritable⟩ := Option.map_eq_some_iff.mp hwrite
  obtain ⟨hreadable, hlog⟩ := Prod.mk.inj hread
  have hr : Reach pipeStep Always PipeState.fresh s := .of_runSteps hs fun _ _ _ => trivial
  have hr₁ := hr.tail trivial hs₁
  exact ⟨s, s₁, s₂, s', hs, hreadable, (pipe_blocking hr).1, hs₁, hs₂, of_decide_eq_true hlog,
    (pipe_blocking hr₁).2.2 _ _ _ hs₂ (of_decide_eq_true hlog), hs', hwritable,
    (pipe_blocking (.of_runSteps hs' fun _ _ _ => trivial)).2.1⟩

end

end MiniCore
