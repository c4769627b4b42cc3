import MiniCore.Kernel.Family
import MiniCore.Kernel.Fd

/-!
# MiniCore.Kernel.FdFamily

The processes of `Kernel.Fd` are those of `Kernel.Process`: each step of the
descriptor tables is one step of the process model, a call there being a `files`
step.  What holds in every run of the process model holds of the tables: a reaped
process has put back the files of its slots, each once.
-/

namespace MiniCore

open Lib Function

/-- The files in the open slots. -/
def FdProcess.files (q : FdProcess) : List Nat := q.fds.toList.filterMap id

/-- The thread of a process that is not asleep. -/
def ProcessState.thread : ProcessState → ThreadState
  | .running => .running
  | .zombie => .dead
  | .reapable => .gone

/-- Record `i` is that of `q`; once reaped it may be gone. -/
structure Row (t : Procs) (i : Nat) (q : FdProcess) : Prop where
  thread : t.threads i = q.state.thread
  fds : ∀ {r}, t.procs i = some r → r.fds = q.files

/-- An exit leaves every table alone. -/
theorem Row.exits {t : Procs} {i p : Nat} {q : FdProcess} {r k : Process}
    {adopter : Option Nat} {procs : Nat → Option Process} (h : Row t i q)
    (e : ProcInv.Exits t p r adopter procs) (hk : procs i = some k) : k.fds = q.files := by
  obtain ⟨k', hk', hafter⟩ := e.back hk
  exact hafter.fds.trans (h.fds hk')

/-- A step of process `p` that makes `q'` of `q`. -/
def ProcAction.Makes (p : Nat) (q q' : FdProcess) : ProcAction → Prop
  | .files p' fds => p' = p ∧ q'.state = q.state ∧ q'.files = fds
  | .exit p' .. => p' = p ∧ q'.state = .zombie ∧ q'.files = q.files
  | .reap p' => p' = p ∧ q'.state = .reapable ∧ q'.files = []
  | _ => False

/-- Such a step changes the record of `p` alone. -/
theorem ProcInv.makes {t t' : Procs} {p : Nat} {q q' : FdProcess} {b : ProcAction} (h : ProcInv t)
    (he : Effect t b t') (hb : b.Makes p q q') (hrow : Row t p q) :
    t'.nextId = t.nextId ∧ Row t' p q' ∧ ∀ {i x}, i ≠ p → Row t i x → Row t' i x := by
  cases he with
  | sleep | collect | failed => cases b <;> simp_all [ProcAction.waiter, ProcAction.Makes]
  | forkFailed | fork => exact hb.elim
  | exit hp hr adopter ha =>
    obtain ⟨rfl, hst, hfiles⟩ := hb
    refine ⟨rfl, ⟨by simp [hst, ProcessState.thread], fun hr' => ?_⟩, fun hi hx =>
      ⟨by simp [hi, hx.thread], hx.exits (h.exits hr ha)⟩⟩
    rw [hfiles, hrow.exits (h.exits hr ha) hr']
  | reap result hp hr =>
    obtain ⟨rfl, hst, hfiles⟩ := hb
    have hawake : ∀ state : ProcessState, state.thread.wake = state.thread := by
      rintro (_ | _ | _) <;> rfl
    refine ⟨rfl, ⟨?_, fun hr' => ?_⟩, fun hi hx =>
      ⟨by simp [wakeParent, hi, hx.thread, hawake], fun hr' => hx.fds (by simpa [hi] using hr')⟩⟩
    · simp [wakeParent, hst, ProcessState.thread, ThreadState.wake]
    · simp only [update_self, Option.ite_none_left_eq_some, Option.some.injEq] at hr'
      rw [← hr'.2, hfiles]
  | files fds hp hr =>
    obtain ⟨rfl, hst, hfiles⟩ := hb
    refine ⟨rfl, ⟨by rw [hst]; exact hrow.thread, fun hr' => ?_⟩, fun hi hx =>
      ⟨hx.thread, fun hr' => hx.fds (by simpa [hi] using hr')⟩⟩
    simp only [update_self, Option.some.injEq] at hr'
    rw [← hr', hfiles]

/-- The processes of `s` are the records of `t`. -/
structure Carries (s : FdSystem) (t : Procs) : Prop where
  inv : ProcInv t
  size : t.nextId = s.procs.length
  rows : ∀ {p q}, s.procs[p]? = some q → Row t p q

namespace Carries

variable {s s' : FdSystem} {t : Procs} {p : Nat} {q q' : FdProcess} (h : Carries s t)

include h

/-- A step of one process's own. -/
theorem put (hq : s.procs[p]? = some q) (b : ProcAction) (hs : (procStep t b).isSome)
    (hb : b.Makes p q q') (table : FileTable) :
    ∃ t', Reach procStep Always t t' ∧ Carries (s.put p table q') t' := by
  obtain ⟨t', hs⟩ := Option.isSome_iff_exists.mp hs
  obtain ⟨hid, hrow, hkeep⟩ := h.inv.makes (h.inv.step_effect hs) hb (h.rows hq)
  refine ⟨t', .tail .refl trivial hs, h.inv.step hs, by simp [hid, h.size, FdSystem.put],
    fun {p' x} hx => ?_⟩
  rw [FdSystem.put, List.getElem?_set] at hx
  split at hx
  · grind
  · next hne => exact hkeep (Ne.symm hne) (h.rows hx)

/-- The child has the parent's table. -/
theorem fork (hp : s.ready p = some q) : ∃ t', Reach procStep Always t t' ∧
    Carries ⟨getAll s.table q.fds, s.procs ++ [⟨q.fds, .running, none⟩]⟩ t' := by
  obtain ⟨hq, hst, -⟩ := FdSystem.ready_eq_some hp
  have hrow := h.rows hq
  obtain ⟨t', hs⟩ : ∃ t', procStep t (.fork p .done) = some t' :=
    ⟨_, if_pos (by rw [hrow.thread, hst]; rfl)⟩
  have hinv := h.inv.step hs
  refine ⟨t', .tail .refl trivial hs, ?_⟩
  cases h.inv.step_effect hs with
  | sleep | collect | failed => simp_all [ProcAction.waiter]
  | forkFailed _ _ hne => exact absurd rfl hne
  | fork hp hr =>
    refine ⟨hinv, by simp [h.size], fun {p' x} hx => ?_⟩
    have hfds := hrow.fds hr
    rw [List.getElem?_append, ← h.size] at hx
    split at hx
    · next hlt =>
      have hx' := h.rows hx
      refine ⟨?_, fun hr' => ?_⟩
      · simp only [update_apply]
        grind [Row, ProcessState.thread]
      · grind [update_eq_some, Row]
    · next hlt =>
      simp only [List.getElem?_singleton, Option.ite_none_right_eq_some, Option.some.injEq] at hx
      obtain ⟨hp', rfl⟩ := hx
      obtain rfl : p' = t.nextId := by omega
      refine ⟨?_, fun hr' => ?_⟩
      · simp [update_apply, ProcessState.thread]
      · simp only [update_self, Option.some.injEq] at hr'
        exact hr' ▸ hfds

/-- Each step is one step of the process model, or none if it leaves the processes
alone. -/
theorem step (hinv : s.Inv) {a : FdAction} (hs : s.step a = some s') :
    ∃ t', Reach procStep Always t t' ∧ Carries s' t' := by
  have hrun {p q} (hq : s.procs[p]? = some q) (hst : q.state = .running) :
      t.threads p = .running := by
    rw [(h.rows hq).thread, hst]
    rfl
  cases hinv.moves hs with
  | table counted => exact ⟨t, .refl, h.inv, h.size, h.rows⟩
  | @running p q r hq hst call =>
    exact h.put hq (.files p r.2.files) (by simp [procStep, hrun hq hst])
      ⟨rfl, call.state, rfl⟩ r.1
  | fork hp => exact h.fork hp
  | @exit p q hp =>
    obtain ⟨hq, hst, -⟩ := FdSystem.ready_eq_some hp
    exact h.put hq (.exit p 0 0) (by simp [procStep, hrun hq hst])
      (by exact ⟨rfl, rfl, rfl⟩) s.table
  | @reap p q hq hst =>
    exact h.put hq (.reap p) (by simp [procStep, (h.rows hq).thread, hst, ProcessState.thread])
      ⟨rfl, rfl, by simp [FdProcess.files]⟩ _

end Carries

theorem Carries.start : Carries FdSystem.start (Procs.start [0, 1, 2]) := by
  refine ⟨.start _, rfl, fun {p q} hq => ?_⟩
  cases p with
  | zero =>
    cases hq
    exact ⟨rfl, fun hr => by cases hr; rfl⟩
  | succ p => cases hq

/-- **The descriptor tables belong to the processes**: every run of the one model
is a run of the other. -/
theorem FdSystem.carried (s : FdSystem) (hrun : Reach FdSystem.step Always FdSystem.start s) :
    ∃ t, Reach procStep Always (Procs.start [0, 1, 2]) t ∧ Carries s t := by
  induction hrun with
  | refl => exact ⟨_, .refl, .start⟩
  | tail hrun _ hs ih =>
    obtain ⟨t, ht, h⟩ := ih
    have hinv := hrun.invariant FdSystem.Inv.start fun _ _ _ h _ hs => h.step hs
    obtain ⟨t', ht', h'⟩ := h.step hinv hs
    exact ⟨t', ht.trans ht', h'⟩

end MiniCore
