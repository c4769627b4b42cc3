import MiniCore.Kernel.Family

/-!
# MiniCore.Kernel.Reaping

What happens to one process over a whole run, read off the event log: it exits
once, its address space and file references are released before it becomes
reapable, its status is collected at most once and its record freed at most once.
The four places that free a record (`waitpid`, the exit of a parent without
adopter, the reaping of an orphan and of PID 1) never meet.

`Lifecycle` lists the histories a process can have; each step extends one of them
to another.
-/

namespace MiniCore

open Lib List

variable {es : List Event} {p : Nat} {s : Procs}

/-! ## Histories -/

/-- The process an event is about. -/
@[simp] def Event.subject : Event → Nat
  | .exited p .. | .asReleased p | .filePut p _ | .reapable p | .collected _ p _ | .released p => p

/-- The events about `p`, in order. -/
def historyOf (events : List Event) (p : Nat) : List Event := events.filter (·.subject = p)

theorem historyOf_append (es es' : List Event) (p : Nat) :
    historyOf (es ++ es') p = historyOf es p ++ historyOf es' p :=
  filter_append ..

/-- Events about `p` are its history. -/
theorem historyOf_self (h : ∀ e ∈ es, e.subject = p) : historyOf es p = es := by
  simpa [historyOf, filter_eq_self, -Event.subject] using h

/-- Events about `p` are no part of another history. -/
theorem historyOf_other {x : Nat} (h : ∀ e ∈ es, e.subject = p) (hx : x ≠ p) :
    historyOf es x = [] := by
  simp only [historyOf, filter_eq_nil_iff, decide_eq_true_eq]
  intro e he heq
  exact hx (heq.symm.trans (h e he))

theorem subject_teardown {fds : List Nat} : ∀ e ∈ teardown p fds, e.subject = p := by
  simp [teardown]

theorem mem_historyOf {e : Event} (he : e.subject = p) : e ∈ historyOf es p ↔ e ∈ es := by
  simp [historyOf, he, -Event.subject]

/-- The history of a process whose thread has been reaped. -/
def ended (p : Nat) (status : Int) (fds : List Nat) : List Event :=
  .exited p status fds :: (teardown p fds ++ [.reapable p])

/-- The histories of a process, by what has become of its record. -/
inductive Lifecycle (p : Nat) : Option Process → List Event → Prop
  | unborn : Lifecycle p none []
  | running {r : Process} : r.state = .running → Lifecycle p (some r) []
  | zombie {r : Process} : r.state = .zombie → Lifecycle p (some r) [.exited p r.exitStatus r.fds]
  | reapable {r : Process} (fds : List Nat) : r.state = .reapable →
      Lifecycle p (some r) (ended p r.exitStatus fds)
  | freed (status : Int) (fds : List Nat) : Lifecycle p none (ended p status fds ++ [.released p])
  | collected (q : Nat) (status : Int) (fds : List Nat) :
      Lifecycle p none (ended p status fds ++ [.collected q p status, .released p])
  | forkFailed (fds : List Nat) : Lifecycle p none (teardown p fds ++ [.released p])

namespace Lifecycle

variable {p : Nat} {r : Process} {es : List Event}

variable (h : Lifecycle p (some r) es)

include h

theorem of_running (hr : r.state = .running) : es = [] := by
  cases h <;> simp_all

theorem of_zombie (hr : r.state = .zombie) : es = [.exited p r.exitStatus r.fds] := by
  cases h <;> simp_all

theorem of_reapable (hr : r.state = .reapable) : ∃ fds, es = ended p r.exitStatus fds := by
  cases h <;> simp_all

/-- Links are not part of the history. -/
theorem congr (r' : Process) (hstate : r'.state = r.state)
    (hstatus : r'.exitStatus = r.exitStatus) (hfds : r'.fds = r.fds) :
    Lifecycle p (some r') es := by
  cases h with
  | running hr => exact .running (hstate.trans hr)
  | zombie hr =>
    rw [← hstatus, ← hfds]
    exact .zombie (hstate.trans hr)
  | reapable fds hr =>
    rw [← hstatus]
    exact .reapable fds (hstate.trans hr)

end Lifecycle

/-- Every record, freed or not, has a history of one of the forms. -/
structure Histories (s : Procs) : Prop where
  lifecycle : ∀ p, Lifecycle p (s.procs p) (historyOf s.events p)
  unborn : ∀ p, s.nextId ≤ p → historyOf s.events p = []

/-- At the start the first process runs and nobody else was there. -/
theorem Histories.start (fds : List Nat) : Histories (Procs.start fds) where
  lifecycle p := by
    by_cases hp : p = 0
    · subst hp
      exact .running rfl
    · simpa [Procs.start, hp, historyOf] using Lifecycle.unborn
  unborn p _ := rfl

/-! ## Every step extends a history -/

/-- Records freed together: each has one event of its own. -/
theorem historyOf_released {cs : List Nat} (hnd : cs.Nodup) (x : Nat) :
    historyOf (cs.map .released) x = if x ∈ cs then [.released x] else [] := by
  induction cs with
  | nil => rfl
  | cons c cs ih =>
    obtain ⟨hc, hnd⟩ := List.nodup_cons.mp hnd
    simp only [map_cons, historyOf, filter_cons] at ih ⊢
    rw [ih hnd]
    by_cases hx : c = x
    · subst hx
      simp [Event.subject, hc]
    · simp [Event.subject, hx, Ne.symm hx]

namespace Histories

variable {s s' : Procs} {a : ProcAction}

variable (h : Histories s)

include h

theorem lifecycle_some {p : Nat} {r : Process} (hr : s.procs p = some r) :
    Lifecycle p (some r) (historyOf s.events p) :=
  hr ▸ h.lifecycle p

/-- The events of a step are about one process, whose history they extend; the
other records keep what their histories depend on. -/
theorem extend (p : Nat) (new : List Event) (hevents : s'.events = s.events ++ new)
    (hnew : ∀ e ∈ new, e.subject = p) (hid : s.nextId ≤ s'.nextId)
    (hp : Lifecycle p (s'.procs p) (historyOf s.events p ++ new)) (hlt : p < s'.nextId)
    (hother : ∀ x, x ≠ p → Lifecycle x (s.procs x) (historyOf s.events x) →
      Lifecycle x (s'.procs x) (historyOf s.events x)) : Histories s' where
  lifecycle x := by
    rw [hevents, historyOf_append]
    by_cases hx : x = p
    · subst hx
      rwa [historyOf_self hnew]
    · rw [historyOf_other hnew hx, append_nil]
      exact hother x hx (h.lifecycle x)
  unborn x hx := by
    have hxp : x ≠ p := by omega
    rw [hevents, historyOf_append, historyOf_other hnew hxp, h.unborn x (by omega)]
    rfl

/-- **The exit**: the process becomes a zombie, its reapable children without
adopter are freed, and the other records keep their histories. -/
theorem exit (hinv : ProcInv s) {p : Nat} {r : Process}
    (hp : s.threads p = .running) (hr : s.procs p = some r) {adopter : Option Nat}
    (ha : adopter = if s.init = some p then none else s.init) {status : Int} {fault : Nat}
    (hprocs : s'.procs = adopted adopter r.children
      (Function.update s.procs p (some (r.exited status fault))))
    (hevents : s'.events = s.events ++ .exited p status r.fds ::
      (freedOrphans adopter r.children s.procs).map .released)
    (hid : s'.nextId = s.nextId) : Histories s' := by
  have hself := hinv.not_mem_children hr
  have hstate : r.state = .running := by simp [hinv.thread hr, hp, ThreadState.state]
  have hfreed : ∀ x, historyOf ((freedOrphans adopter r.children s.procs).map .released) x =
      if x ∈ freedOrphans adopter r.children s.procs then [.released x] else [] :=
    historyOf_released ((hinv.nodup hr).filter _)
  have hexited : ∀ x, x ≠ p → historyOf [.exited p status r.fds] x = [] := fun x hx =>
    historyOf_other (p := p) (by simp) hx
  have hcons : ∀ x, historyOf s'.events x = historyOf s.events x ++
      (historyOf [.exited p status r.fds] x ++
        if x ∈ freedOrphans adopter r.children s.procs then [.released x] else []) := by
    intro x
    rw [hevents, ← singleton_append, historyOf_append, historyOf_append, hfreed]
  constructor
  · intro x
    rw [hcons, hprocs]
    by_cases hxp : x = p
    · subst hxp
      have hax : adopter ≠ some x := fun e => (hinv.adopter_spec hr ha e).2.1 rfl
      have hnot : x ∉ freedOrphans adopter r.children s.procs := by simp [freedOrphans, hself]
      rw [(h.lifecycle_some hr).of_running hstate, if_neg hnot]
      have hlife : Lifecycle x (some (r.exited status fault)) [.exited x status r.fds] :=
        .zombie rfl
      simpa [adopted, hself, hax, historyOf] using hlife
    rw [hexited x hxp, nil_append]
    by_cases hmem : x ∈ freedOrphans adopter r.children s.procs
    · obtain ⟨hc, hnone, k, hk, hst⟩ : x ∈ r.children ∧ adopter = none ∧
          ∃ k, s.procs x = some k ∧ k.state = .reapable := by
        simpa [freedOrphans, Option.any_eq_true] using hmem
      obtain ⟨fds, hfds⟩ := (h.lifecycle_some hk).of_reapable hst
      rw [if_pos hmem, hfds]
      simpa [adopted, hc, hxp, hk, hnone, orphaned, hst] using
        Lifecycle.freed k.exitStatus fds
    rw [if_neg hmem, append_nil]
    cases hk : s.procs x with
    | none => simpa [adopted, hxp, hk] using h.lifecycle x
    | some k =>
      have hfree : x ∈ r.children → adopter = none → k.state ≠ .reapable := by
        intro hc hnone hst
        exact hmem (by simp [freedOrphans, hc, hnone, hk, hst])
      obtain ⟨k', hk', hafter⟩ := (hinv.exits hr ha).stays hk hfree
      rw [hk']
      exact (h.lifecycle_some hk).congr k' (by simp [hafter.state, hxp])
        (hafter.exitStatus hxp) hafter.fds
  · intro x hx
    have hne : ∀ {y k}, s.procs y = some k → x ≠ y := fun hy => by
      have hlt := hinv.lt hy
      omega
    have hnot : x ∉ freedOrphans adopter r.children s.procs := by
      intro hmem
      obtain ⟨k, hk, -⟩ := hinv.child hr (mem_of_mem_filter hmem)
      exact hne hk rfl
    rw [hcons, if_neg hnot, h.unborn x (hid ▸ hx), hexited x (hne hr)]
    rfl

/-- **One step** keeps every history in form. -/
theorem step (hinv : ProcInv s) (hs : procStep s a = some s') : Histories s' := by
  cases hinv.step_effect hs with
  | failed | sleep => exact ⟨h.lifecycle, h.unborn⟩
  | collect ha hact hr hmem hk hst =>
    rename_i p r c k
    obtain ⟨fds, hfds⟩ := (h.lifecycle_some hk).of_reapable hst
    refine h.extend c _ rfl (by simp) Nat.le.refl ?_ (hinv.lt hk) ?_
    · rw [hfds]
      simpa using Lifecycle.collected p k.exitStatus fds
    intro x hx hlife
    by_cases hxp : x = p
    · subst hxp
      rw [hr] at hlife
      simpa [hx] using hlife.congr { r with children := r.children.erase c } rfl rfl rfl
    · simpa [hx, hxp] using hlife
  | forkFailed fds hp =>
    refine h.extend s.nextId _ rfl ?_ (Nat.le_succ _) ?_ (Nat.lt_succ_self _) fun _ _ hl => hl
    · simpa [or_imp, forall_and] using subject_teardown
    · rw [h.unborn _ Nat.le.refl, hinv.fresh]
      exact .forkFailed fds
  | fork hp hr =>
    rename_i p r
    refine h.extend s.nextId [] (append_nil _).symm (by simp) (Nat.le_succ _) ?_
      (Nat.lt_succ_self _) ?_
    · rw [h.unborn _ Nat.le.refl]
      simpa using Lifecycle.running rfl
    intro x hx hlife
    by_cases hxp : x = p
    · subst hxp
      rw [hr] at hlife
      simpa [hx] using
        hlife.congr { r with children := r.children ++ [s.nextId] } rfl rfl rfl
    · simpa [hx, hxp] using hlife
  | exit hp hr adopter ha => exact h.exit hinv hp hr ha rfl rfl rfl
  | reap result hp hr =>
    rename_i p r
    have hstate : r.state = .zombie := by simp [hinv.thread hr, hp, ThreadState.state]
    refine h.extend p _ rfl ?_ Nat.le.refl ?_ (hinv.lt hr) fun x hx hlife => by
      simpa [hx] using hlife
    · have hteardown : ∀ e ∈ teardown p r.fds, e.subject = p := subject_teardown
      cases r.freedAtReap <;>
        simpa [or_imp, forall_and] using hteardown
    rw [(h.lifecycle_some hr).of_zombie hstate]
    cases hfree : r.freedAtReap with
    | true => simpa [hfree, ended] using Lifecycle.freed r.exitStatus r.fds
    | false =>
      simpa [ended] using
        Lifecycle.reapable (r := { r with fds := [], state := .reapable }) r.fds rfl
  | files fds hp hr =>
    rename_i p r
    have hstate : r.state = .running := by simp [hinv.thread hr, hp, ThreadState.state]
    refine h.extend p [] (append_nil _).symm (by simp) Nat.le.refl ?_
      (hinv.lt hr) fun x hx hlife => by simpa [hx] using hlife
    rw [(h.lifecycle_some hr).of_running hstate]
    simpa using Lifecycle.running (r := { r with fds := fds }) hstate

end Histories

/-! ## Exactly-once reaping -/

/-- `p`'s status is returned by a successful `waitpid`. -/
def Event.collects (p : Nat) : Event → Bool
  | .collected _ c _ => c = p
  | .exited .. | .asReleased _ | .filePut .. | .reapable _ | .released _ => false

def Event.exits (p : Nat) : Event → Bool
  | .exited q .. => q = p
  | .asReleased _ | .filePut .. | .reapable _ | .collected .. | .released _ => false

/-- A release of the address space or of a file reference. -/
@[simp] def Event.releases : Event → Bool
  | .asReleased _ | .filePut .. => true
  | .exited .. | .reapable _ | .collected .. | .released _ => false

/-- Everything about `p` happens once and in order. -/
structure ReapedOnce (s : Procs) (p : Nat) : Prop where
  released_once : s.events.count (.released p) ≤ 1
  released_gone : .released p ∈ s.events → s.procs p = none
  exited_once : (s.events.filter (Event.exits p)).length ≤ 1
  collected_once : (s.events.filter (Event.collects p)).length ≤ 1
  collected_status : ∀ q status, .collected q p status ∈ s.events →
    ∃ fds, .exited p status fds ∈ s.events
  /-- The address space is released once, and one reference for each file that was open,
  all between the exit and the moment the record becomes reapable. -/
  resources : ∀ status fds, .exited p status fds ∈ s.events →
    historyOf s.events p = [.exited p status fds] ∨
    ∃ rest, historyOf s.events p =
        .exited p status fds :: .asReleased p :: (fds.map (.filePut p) ++ .reapable p :: rest) ∧
      ∀ e ∈ rest, e.releases = false

/-- What a step inside `waitpid` does: it collects a reapable child of the
caller, or changes nothing but the caller's own thread. -/
structure WaitStep (s : Procs) (a : ProcAction) (s' : Procs) : Prop where
  collects : ∀ p v, a.waiter = some p → s'.returns = s.returns ++ [(p, .ok v)] →
    ∃ c k, s.procs c = some k ∧ k.parent = some p ∧ k.state = .reapable ∧ k.pid = v ∧
      s'.events = s.events ++ [.collected p c k.exitStatus, .released c]
  only : ∀ q c status, .collected q c status ∈ s'.events → .collected q c status ∈ s.events ∨
    a.waiter = some q ∧ ∃ v, s'.returns = s.returns ++ [(q, .ok v)]
  unchanged : ∀ p, a.waiter = some p → (∀ v, s'.returns ≠ s.returns ++ [(p, .ok v)]) →
    s' = { s with threads := s'.threads, returns := s'.returns } ∧
      ∀ x, x ≠ p → s'.threads x = s.threads x

theorem filter_releases_teardown (p : Nat) (fds : List Nat) :
    (teardown p fds).filter (!Event.releases ·) = [] := by
  simp [teardown]

namespace Lifecycle

variable {p : Nat} {o : Option Process} {es : List Event}

variable (h : Lifecycle p o es)

include h

/-- Apart from the releases of resources, a history has at most one event of each
kind, in this order and with one status. -/
theorem landmarks : ∃ q status fds, (es.filter (!Event.releases ·)).Sublist
      [.exited p status fds, .reapable p, .collected q p status, .released p] := by
  have hended (status : Int) (fds : List Nat) :
      (ended p status fds).filter (!Event.releases ·) = [.exited p status fds, .reapable p] := by
    simp only [ended, filter_cons, filter_append, filter_releases_teardown]
    rfl
  have hsub (q : Nat) (status : Int) (fds : List Nat) (tail : List Event)
      (ht : tail.Sublist [.collected q p status, .released p]) :
      ([Event.exited p status fds, .reapable p] ++ tail).Sublist
        [.exited p status fds, .reapable p, .collected q p status, .released p] :=
    (List.Sublist.refl [Event.exited p status fds, .reapable p]).append ht
  cases h with
  | unborn | running => exact ⟨0, 0, [], by simp⟩
  | @zombie r => exact ⟨0, r.exitStatus, r.fds, by simp⟩
  | @reapable r fds =>
    refine ⟨0, r.exitStatus, fds, ?_⟩
    rw [hended]
    exact hsub 0 r.exitStatus fds [] (nil_sublist _)
  | freed status fds =>
    refine ⟨0, status, fds, ?_⟩
    rw [filter_append, hended]
    exact hsub 0 status fds _ (by simp)
  | collected q status fds =>
    refine ⟨q, status, fds, ?_⟩
    rw [filter_append, hended]
    exact hsub q status fds _ (by simp)
  | forkFailed fds =>
    refine ⟨0, 0, [], ?_⟩
    rw [filter_append, filter_releases_teardown]
    simp

/-- So a predicate that is about one kind holds of at most one event. -/
theorem filter_le_one {f : Event → Bool} (hf : ∀ e, f e = true → e.releases = false)
    (hone : ∀ q status fds, ([.exited p status fds, .reapable p, .collected q p status,
      .released p].filter f).length ≤ 1) : (es.filter f).length ≤ 1 := by
  obtain ⟨q, status, fds, hsub⟩ := h.landmarks
  have hfilter : es.filter f = (es.filter (!Event.releases ·)).filter f := by
    rw [filter_filter]
    refine filter_congr fun e _ => ?_
    cases hfe : f e with
    | false => simp
    | true => simp [hf e hfe, -Event.releases]
  rw [hfilter]
  exact Nat.le_trans (hsub.filter f).length_le (hone q status fds)

/-- A freed record is gone. -/
theorem released_gone (hmem : .released p ∈ es) : o = none := by
  cases h <;> simp_all [ended, teardown]

/-- The status collected is the one of the exit. -/
theorem collected_status {q : Nat} {status : Int}
    (hmem : .collected q p status ∈ es) : ∃ fds, .exited p status fds ∈ es := by
  cases h <;> simp_all [ended, teardown]

/-- Between the exit and `reapable` stand the releases, and nowhere else. -/
theorem resources {status : Int} {fds : List Nat} (hmem : .exited p status fds ∈ es) :
    es = [.exited p status fds] ∨
    ∃ rest, es = .exited p status fds :: .asReleased p ::
    (fds.map (.filePut p) ++ .reapable p :: rest) ∧
      ∀ e ∈ rest, e.releases = false := by
  cases h <;> simp_all [ended, teardown]

end Lifecycle

/-- Events about `p` are counted in its history. -/
theorem length_filter_historyOf {f : Event → Bool} (hf : ∀ e, f e = true → e.subject = p)
    (es : List Event) : (es.filter f).length = ((historyOf es p).filter f).length := by
  rw [historyOf, filter_filter]
  refine congrArg _ (filter_congr fun e _ => ?_)
  cases hfe : f e with
  | false => simp
  | true => simp [hf e hfe, -Event.subject]

/-- What the forms of histories say about `p`. -/
theorem Histories.reapedOnce (h : Histories s) (p : Nat) : ReapedOnce s p := by
  have hlife := h.lifecycle p
  have hmem {e : Event} (he : e.subject = p) : e ∈ historyOf s.events p ↔ e ∈ s.events :=
    mem_historyOf he
  constructor
  · rw [count_eq_countP, countP_eq_length_filter,
      length_filter_historyOf (p := p) (by simp)]
    exact hlife.filter_le_one (by simp) (by simp)
  · exact fun hr => hlife.released_gone ((hmem rfl).mpr hr)
  · rw [length_filter_historyOf (p := p) (by rintro ⟨⟩ <;> simp [Event.exits])]
    exact hlife.filter_le_one (by rintro ⟨⟩ <;> simp [Event.exits])
      (by simp [Event.exits])
  · rw [length_filter_historyOf (p := p) (by rintro ⟨⟩ <;> simp [Event.collects])]
    exact hlife.filter_le_one (by rintro ⟨⟩ <;> simp [Event.collects])
      (by simp [Event.collects])
  · intro q status hc
    obtain ⟨fds, hfds⟩ := hlife.collected_status ((hmem rfl).mpr hc)
    exact ⟨fds, (hmem rfl).mp hfds⟩
  · exact fun status fds he => hlife.resources ((hmem rfl).mpr he)

/-- Steps outside `waitpid` collect nothing. -/
theorem WaitStep.of_other {s' : Procs} {a : ProcAction} (ha : a.waiter = none)
    (hnew : ∀ q c status, .collected q c status ∈ s'.events → .collected q c status ∈ s.events) :
    WaitStep s a s' where
  collects p v hp := by simp [ha] at hp
  only q c status hmem := .inl (hnew q c status hmem)
  unchanged p hp := by simp [ha] at hp

/-- **`waitpid`**, step by step. -/
theorem ProcInv.waitStep {s' : Procs} {a : ProcAction} (h : ProcInv s)
    (hs : procStep s a = some s') : WaitStep s a s' := by
  cases h.step_effect hs with
  | failed ha hact =>
    rename_i q e
    refine ⟨fun p v _ hret => ?_, fun _ _ _ hmem => .inl hmem, fun p hp _ => ⟨rfl, fun x hx => ?_⟩⟩
    · simp [Procs.ret] at hret
    rcases ha with ha | rfl
    · cases hp.symm.trans ha
      simp [Procs.ret, hx]
    · cases hp
  | sleep ha hact hr hsome hnone =>
    refine ⟨fun p v _ hret => ?_, fun _ _ _ hmem => .inl hmem, fun p hp _ => ⟨rfl, fun x hx => ?_⟩⟩
    · simp [Procs.setThread] at hret
    · cases hp.symm.trans ha
      simp [Procs.setThread, hx]
  | collect ha hact hr hmem hk hst =>
    rename_i q r c k
    obtain ⟨k', hk', hpar⟩ := h.child hr hmem
    cases hk.symm.trans hk'
    refine ⟨fun p v hp hret => ?_, fun q' c' status hev => ?_, fun p hp hno => ?_⟩
    · cases hp.symm.trans ha
      have hv : k.pid = v := by simpa using hret
      exact ⟨c, k, hk, hpar, hst, hv, rfl⟩
    · simp only [mem_append, mem_cons, Event.collected.injEq, reduceCtorEq,
        not_mem_nil, or_self, or_false] at hev
      rcases hev with hev | ⟨rfl, rfl, rfl⟩
      · exact .inl hev
      · exact .inr ⟨ha, k.pid, rfl⟩
    · cases hp.symm.trans ha
      exact absurd rfl (hno k.pid)
  | forkFailed => exact .of_other rfl (by simp [teardown])
  | fork => exact .of_other rfl fun _ _ _ hmem => hmem
  | exit => exact .of_other rfl (by simp)
  | reap result hp hr =>
    rename_i p r
    refine .of_other rfl ?_
    cases r.freedAtReap <;> simp [teardown]
  | files => exact .of_other rfl fun _ _ _ hmem => hmem

/-- **Exactly-once reaping**, in every run of any number of processes. -/
theorem reaped_exactly_once (fds : List Nat) (s : Procs)
    (hrun : Reach procStep Always (Procs.start fds) s) :
    (∀ p, ReapedOnce s p) ∧ ∀ a s', procStep s a = some s' → WaitStep s a s' := by
  have hinv : ProcInv s ∧ Histories s :=
    hrun.invariant (I := fun s => ProcInv s ∧ Histories s) ⟨ProcInv.start fds, .start fds⟩
      fun s a s' h _ hs => ⟨h.1.step hs, h.2.step h.1 hs⟩
  exact ⟨hinv.2.reapedOnce, fun a s' hs => hinv.1.waitStep hs⟩

/-- A child with two open files exits and is reaped; the first `waitpid` fails with
`EFAULT`, the second one collects the status. -/
def reapedRun : List ProcAction :=
  [.fork 0 .done, .exit 1 5 0, .reap 1, .waitpid 0 (-1) 4096 0 false, .waitpid 0 2 4096 0 true]

theorem reaped_exactly_once_run : ∃ s, runSteps procStep (Procs.start [7, 8]) reapedRun = some s ∧
    historyOf s.events 1 = [.exited 1 5 [7, 8], .asReleased 1, .filePut 1 7, .filePut 1 8,
      .reapable 1,
      .collected 0 1 5, .released 1] ∧
    (∀ p, ReapedOnce s p) ∧ ∀ a s', procStep s a = some s' → WaitStep s a s' := by
  have hhistory : (runSteps procStep (Procs.start [7, 8]) reapedRun).map (historyOf ·.events 1) =
      some [.exited 1 5 [7, 8], .asReleased 1, .filePut 1 7, .filePut 1 8, .reapable 1,
        .collected 0 1 5, .released 1] := by decide
  obtain ⟨s, hs, hhistory⟩ := Option.map_eq_some_iff.mp hhistory
  exact ⟨s, hs, hhistory, reaped_exactly_once [7, 8] s (.of_runSteps hs fun _ _ _ => trivial)⟩

end MiniCore
