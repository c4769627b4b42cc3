import MiniCore.Kernel.SchedulerSafety

/-!
# MiniCore.Kernel.SchedulerCalls

What the rest of the kernel has to know of a scheduler call.  A call that
creates and frees no thread leaves the threads' processes and stacks alone and
keeps the active table in step with the current thread (`Steady`).  The reaper
makes the same calls into the rest of the kernel for every dead thread, in the
order of the list (`reap_grew`).
-/

namespace MiniCore

open Lib

variable {c c' c'' : Core} {t : Nat} {a : RunQueues}

/-! ## Steady calls -/

/-- The threads stay what they are, but for `gone`, which may have died, and
the active table follows the current thread. -/
structure Core.Steady (roots : Option Nat → Nat) (gone : Option Nat) (c c' : Core) : Prop where
  created : c'.created = c.created
  idleThread : c'.idleThread = c.idleThread
  process : ∀ t, (c'.threads t).process = (c.threads t).process
  stackPage : ∀ t, (c'.threads t).stackPage = (c.threads t).stackPage
  dead : ∀ t, (c'.threads t).state = .dead → (c.threads t).state = .dead ∨ gone = some t
  active : c.satp = roots (c.threads c.current).process →
    c'.satp = roots (c'.threads c'.current).process

namespace Core

variable {roots : Option Nat → Nat} {gone : Option Nat}

theorem Steady.refl (c : Core) : Steady roots gone c c :=
  ⟨rfl, rfl, fun _ => rfl, fun _ => rfl, fun _ => .inl, id⟩

theorem Steady.trans (h : Steady roots gone c c') (h' : Steady roots gone c' c'') :
    Steady roots gone c c'' where
  created := h'.created.trans h.created
  idleThread := h'.idleThread.trans h.idleThread
  process t := (h'.process t).trans (h.process t)
  stackPage t := (h'.stackPage t).trans (h.stackPage t)
  dead t ht := (h'.dead t ht).elim (h.dead t) .inr
  active := h'.active ∘ h.active

/-- One thread changes its state or its time. -/
theorem steady_modify {f : Thread → Thread} (hp : (f (c.threads t)).process = (c.threads t).process)
    (hs : (f (c.threads t)).stackPage = (c.threads t).stackPage)
    (hd : (f (c.threads t)).state = .dead → gone = some t) :
    Steady roots gone c (c.modify t f) := by
  have hproc : ∀ u, ((c.modify t f).threads u).process = (c.threads u).process := by
    intro u
    by_cases hu : u = t <;> simp [hu, hp]
  refine ⟨rfl, rfl, hproc, fun u => ?_, fun u hu => ?_, fun ha => ?_⟩
  · by_cases hu : u = t <;> simp [hu, hs]
  · by_cases hut : u = t
    · subst hut
      exact .inr (hd (by simpa using hu))
    · exact .inl (by simpa [Function.update_apply, hut] using hu)
  · rw [hproc]
    exact ha

theorem steady_setState {state : RunState} (hd : state = .dead → gone = some t) :
    Steady roots gone c (c.setState t state) :=
  steady_modify (f := fun thread => { thread with state := state }) rfl rfl hd

theorem steady_record (e : SchedEvent) : Steady roots gone c (c.record e) :=
  ⟨rfl, rfl, fun _ => rfl, fun _ => rfl, fun _ => .inl, id⟩

theorem steady_ready : Steady roots gone c (c.ready t) :=
  (steady_setState (by simp)).trans (steady_record _)

theorem steady_relinquish : Steady roots gone c c.relinquish := by
  unfold relinquish
  split
  · exact steady_ready
  · exact .refl c

theorem steady_preempt : Steady roots gone c c.preempt := by
  unfold preempt
  split
  · have h : Steady roots gone c (c.ready c.current) := steady_ready
    exact ⟨h.created, h.idleThread, h.process, h.stackPage, h.dead, h.active⟩
  · exact .refl c

/-- Waking and reaping are steady. -/
theorem Kept.steady (h : Kept c c') : Steady roots gone c c' where
  created := h.created
  idleThread := h.idleThread
  process := h.process
  stackPage := h.stackPage
  dead t ht := .inl (h.dead t ht)
  active ha := by rw [h.satp, h.current, h.process, ha]

theorem steady_wakeTimed : Steady roots gone c (c.wakeTimed t) := by
  unfold wakeTimed
  split
  next hdue =>
    have hsleep : (c.threads t).state = .sleeping := by
      simp only [due, Bool.and_eq_true, decide_eq_true_eq] at hdue
      exact hdue.1.1
    refine Steady.trans (steady_modify rfl rfl ?_) steady_ready
    simp [hsleep]
  next => exact .refl c

theorem steady_foldl {f : Core → Nat → Core} (hf : ∀ c t, Steady roots gone c (f c t))
    (l : List Nat) (c : Core) : Steady roots gone c (l.foldl f c) := by
  induction l generalizing c with
  | nil => exact .refl c
  | cons t l ih => exact (hf c t).trans (ih _)

/-- A dispatch makes the table of the next thread the active one. -/
theorem steady_dispatch (next : Nat) : Steady roots gone c (c.dispatch roots next) := by
  unfold dispatch
  dsimp only
  split
  · refine (steady_record (.selected next)).trans ?_
    split
    · exact steady_setState (by simp)
    · exact .refl _
  · have h : Steady roots gone c ((c.record (.selected next)).setState next .running) :=
      (steady_record _).trans (steady_setState (by simp))
    refine ⟨h.created, h.idleThread, h.process, h.stackPage, h.dead, fun _ => ?_⟩
    exact congrArg roots (h.process next).symm

end Core

namespace RunQueues

variable (roots : Option Nat → Nat)

/-- **Plain calls are steady**, and so is an exit for everybody else. -/
theorem steady_perform {act : Scheduler.Action} (hact : act.plain = true ∨ act = .exit) :
    (a.perform roots act).all = a.all ∧
      Core.Steady roots (if act.plain then none else some a.current) a.toCore
        (a.perform roots act).toCore := by
  have hswitch : ∀ {gone} {b : RunQueues}, Core.Steady roots gone a.toCore b.toCore →
      Core.Steady roots gone a.toCore (b.switch roots).toCore :=
    fun h => h.trans (Core.steady_dispatch _)
  cases act with
  | create process grant => simp [Scheduler.Action.plain] at hact
  | reap wakes => simp [Scheduler.Action.plain] at hact
  | yield => exact ⟨rfl, hswitch Core.steady_relinquish⟩
  | sleep ticks =>
    rw [perform]
    split
    · exact ⟨rfl, hswitch Core.steady_relinquish⟩
    have hsleep : Core.Steady roots none a.toCore (a.toCore.startSleep ticks) :=
      Core.steady_modify rfl rfl (by simp)
    exact ⟨rfl, hswitch hsleep⟩
  | waitSleep q => exact ⟨rfl, hswitch (b := a.block q) (Core.steady_setState (by simp))⟩
  | wakeOne q =>
    rw [perform]
    cases hw : a.waiting q with
    | nil =>
      rw [wakeOne_nil hw]
      exact ⟨rfl, .refl _⟩
    | cons u rest =>
      rw [wakeOne_cons hw]
      exact ⟨rfl, (Core.kept_wake u).steady⟩
  | wakeAll q => exact ⟨rfl, (kept_wakeAll q).steady⟩
  | tick =>
    refine ⟨rfl, hswitch ?_⟩
    have hclock : Core.Steady roots none a.toCore
        { a.toCore with tickCount := (a.tickCount + 1) % 2 ^ 64 } :=
      ⟨rfl, rfl, fun _ => rfl, fun _ => rfl, fun _ => .inl, id⟩
    have hadv : Core.Steady roots none a.toCore a.advance.toCore :=
      hclock.trans (Core.steady_foldl (fun _ _ => Core.steady_wakeTimed) _ _)
    exact hadv.trans Core.steady_preempt
  | exit => exact ⟨rfl, hswitch (Core.steady_setState fun _ => rfl)⟩

end RunQueues

/-! ## The calls of the reaper -/

/-- Whether the event is a call into the rest of the kernel. -/
def SchedEvent.isCall : SchedEvent → Bool
  | .readied _ => false
  | .selected _ => false
  | _ => true

namespace Core

/-- The log grows, and the calls among the new events are `calls`, the earliest
first. -/
def Grew (calls : List SchedEvent) (c c' : Core) : Prop :=
  ∃ new, c'.log = new ++ c.log ∧ new.reverse.filter SchedEvent.isCall = calls

/-- The calls that free thread `t`. -/
def calls (c : Core) (t : Nat) : List SchedEvent :=
  .stackFreed t (c.threads t).stackPage ::
    (((c.threads t).process.map .processReaped).toList ++ [.recordFreed t])

variable {x y : List SchedEvent}

theorem Grew.refl (c : Core) : Grew [] c c := ⟨[], rfl, rfl⟩

theorem Grew.trans (h : Grew x c c') (h' : Grew y c' c'') : Grew (x ++ y) c c'' := by
  obtain ⟨new, hlog, rfl⟩ := h
  obtain ⟨new', hlog', rfl⟩ := h'
  exact ⟨new' ++ new, by simp [hlog, hlog'], by simp⟩

theorem grew_record {e : SchedEvent} (he : e.isCall = true) : Grew [e] c (c.record e) :=
  ⟨[e], rfl, by simp [he]⟩

theorem grew_wake (t : Nat) : Grew [] c (c.wake t) := by
  unfold wake
  split
  · exact ⟨[.readied t], rfl, rfl⟩
  · exact .refl c

theorem grew_foldl_wake (l : List Nat) (c : Core) : Grew [] c (l.foldl wake c) := by
  induction l generalizing c with
  | nil => exact .refl c
  | cons t l ih => exact (grew_wake t).trans (ih _)

end Core

namespace RunQueues

variable {timely : Prop} {u : Nat}

theorem grew_foldl_wakeAll (qs : List Nat) :
    Core.Grew [] a.toCore (qs.foldl (fun a q => a.wakeAll q) a).toCore := by
  induction qs generalizing a with
  | nil => exact .refl _
  | cons q qs ih => exact (Core.grew_foldl_wake _ _).trans (ih (a := a.wakeAll q))

variable (wakes : Nat → List Nat)

/-- What a process does to the scheduler when it is reaped. -/
theorem processReaped_grew (process : Option Nat) : Core.Grew
    (process.map .processReaped).toList a.toCore (a.processReaped wakes process).toCore := by
  cases process with
  | none => exact .refl _
  | some p =>
    have hrecord : Core.Grew [.processReaped p] a.toCore (a.toCore.record (.processReaped p)) :=
      Core.grew_record rfl
    exact hrecord.trans (grew_foldl_wakeAll
      (a := { a with toCore := a.toCore.record (.processReaped p) }) (wakes p))

/-- The calls for one thread. -/
theorem reapThread_grew (t : Nat) :
    Core.Grew (if a.reapable t then a.toCore.calls t else []) a.toCore
      (a.reapThread wakes t).toCore := by
  unfold reapThread
  split
  · have hrelease : Core.Grew [.stackFreed t (a.threads t).stackPage] a.toCore
      (a.release t).toCore :=
      Core.grew_record rfl
    exact (hrelease.trans (processReaped_grew wakes (a.threads t).process)).trans
      (Core.grew_record rfl)
  · exact .refl _

variable (h : Inv a timely true none)

include h

/-- Reaping one thread does not decide about another. -/
theorem reapThread_reapable (hu : u ∈ a.all) :
    (a.reapThread wakes t).reapable u = a.reapable u := by
  have hkept := kept_reapThread (a := a) wakes t
  by_cases hdead : (a.threads u).state = .dead
  · have haside := hkept.aside ((h.threads u hu).not_queued (by simp [hdead]))
    rw [Core.reapable, Core.reapable, haside.1, hkept.current]
  have hdead' : ((a.reapThread wakes t).threads u).state ≠ .dead := fun hd =>
    hdead (hkept.dead u hd)
  simp [Core.reapable, hdead, hdead']

theorem foldl_reapThread_grew {l : List Nat} (hl : l.Nodup) (hsub : ∀ t ∈ l, t ∈ a.all) :
    Core.Grew ((l.filter a.reapable).flatMap a.toCore.calls) a.toCore
        (l.foldl (reapThread wakes) a).toCore ∧
      ∀ u, u ∈ (l.foldl (reapThread wakes) a).all ↔ u ∈ a.all ∧ ¬(u ∈ l ∧ a.reapable u = true) := by
  induction l generalizing a with
  | nil => exact ⟨.refl _, by simp⟩
  | cons t l ih =>
    obtain ⟨htl, hl⟩ := List.nodup_cons.mp hl
    have ht := hsub t List.mem_cons_self
    have hrest : ∀ u ∈ l, u ∈ a.all := fun u hu => hsub u (List.mem_cons_of_mem t hu)
    obtain ⟨hinv, hall⟩ := h.reapThread wakes ht
    have hmem : ∀ u, u ∈ (a.reapThread wakes t).all ↔ u ∈ a.all ∧
        ¬(u = t ∧ a.reapable t = true) := by
      intro u
      rw [hall]
      split <;> simp [*, h.shape.nodup.mem_erase_iff, and_comm]
    have hgrew := reapThread_grew (a := a) wakes t
    have hkept := kept_reapThread (a := a) wakes t
    obtain ⟨hgrew', hmem'⟩ := ih hinv hl fun u hu => (hmem u).mpr ⟨hrest u hu, by grind⟩
    have hreap : ∀ u ∈ a.all, (a.reapThread wakes t).reapable u = a.reapable u :=
      fun u hu => reapThread_reapable wakes h hu
    have hcalls : (a.reapThread wakes t).toCore.calls = a.toCore.calls := by
      funext u
      rw [Core.calls, Core.calls, hkept.process, hkept.stackPage]
    have hfilter : l.filter (a.reapThread wakes t).reapable = l.filter a.reapable :=
      List.filter_congr fun u hu => hreap u (hrest u hu)
    rw [hcalls, hfilter] at hgrew'
    refine ⟨?_, fun u => ?_⟩
    · have hsplit : ((t :: l).filter a.reapable).flatMap a.toCore.calls =
          (if a.reapable t then a.toCore.calls t else []) ++
            (l.filter a.reapable).flatMap a.toCore.calls := by
        by_cases hr : a.reapable t = true <;> simp [hr]
      rw [hsplit]
      exact hgrew.trans hgrew'
    · rw [List.foldl_cons, hmem', hmem]
      grind

/-- **The calls of the reaper**: those for the reapable threads, in the order of
the list, and exactly they leave it. -/
theorem reap_grew :
    Core.Grew ((a.all.filter a.reapable).flatMap a.toCore.calls) a.toCore (a.reap wakes).toCore ∧
      ∀ u, u ∈ (a.reap wakes).all ↔ u ∈ a.all ∧ a.reapable u = false := by
  obtain ⟨hgrew, hmem⟩ := foldl_reapThread_grew wakes h h.shape.nodup fun _ => id
  exact ⟨hgrew, fun u => by rw [reap, hmem]; grind⟩

end RunQueues

end MiniCore
