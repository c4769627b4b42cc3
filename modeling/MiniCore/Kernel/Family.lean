import MiniCore.Kernel.Process

/-!
# MiniCore.Kernel.Family

Parents, children and waiters over whole runs of any number of processes.  Every
step keeps `ProcInv`.  Two further properties of the family fail in the code, and
hold in the runs that avoid the one step that breaks them:

* a child whose parent exits is given to PID 1 even when PID 1 has exited itself,
  because `init_process` stays set until PID 1 is reaped;
* a reapable child that PID 1 adopts while it sleeps in `waitpid` does not wake it.
-/

namespace MiniCore

open Lib Function

variable {pid : Int} {p : Nat} {adopter : Option Nat} {s : Procs}

/-! ## Every step keeps the invariant -/

theorem update_eq_some {f : Nat → Option Process} {x : Nat} {v : Option Process} {r : Process} :
    update f p v x = some r ↔ (x = p ∧ v = some r) ∨ (x ≠ p ∧ f x = some r) := by
  by_cases hx : x = p <;> simp [hx]

theorem orphaned_eq_some {k k' : Process} : orphaned adopter k = some k' ↔
      { k with parent := adopter } = k' ∧ (adopter = none → k.state ≠ .reapable) := by
  cases adopter with
  | some i => simp [orphaned]
  | none => by_cases hk : k.state = .reapable <;> simp [orphaned, hk]

theorem adopted_eq_some {cs : List Nat} {procs : Nat → Option Process} {x : Nat} {k' : Process} :
    adopted adopter cs procs x = some k' ↔ ∃ k, procs x = some k ∧
      (x ∈ cs ∧ orphaned adopter k = some k' ∨
        x ∉ cs ∧ adopter = some x ∧ { k with children := k.children ++ cs } = k' ∨
        x ∉ cs ∧ adopter ≠ some x ∧ k = k') := by
  by_cases hx : x ∈ cs
  · simp [adopted, hx, Option.bind_eq_some_iff]
  · by_cases ha : adopter = some x <;> simp [adopted, hx, ha]

@[simp] theorem ThreadState.state_wake (t : ThreadState) : t.wake.state = t.state := by
  cases t <;> rfl

theorem ThreadState.state_eq_reapable {t : ThreadState} : t.state = .reapable ↔ t = .gone := by
  cases t <;> simp [ThreadState.state]

theorem wakeParent_state (parent : Option Nat) (threads : Nat → ThreadState) (x : Nat) :
    (wakeParent parent threads x).state = (threads x).state := by
  by_cases h : parent = some x <;> simp [wakeParent, h]

namespace ProcInv

variable {s s' : Procs} {p : Nat}

variable {status : Int} {es : List Event} {fault x : Nat} {adopter : Option Nat} {k r : Process}

/-- Steps that leave the records alone. -/
theorem of_procs (h : ProcInv s) (hprocs : s'.procs = s.procs) (hinit : s'.init = s.init)
    (hid : s.nextId ≤ s'.nextId) (hpid : s.nextPid ≤ s'.nextPid)
    (hthreads : ∀ x, (s'.threads x).state = (s.threads x).state) : ProcInv s' where
  lt hp := Nat.lt_of_lt_of_le (h.lt (hprocs ▸ hp)) hid
  parent_lt hc hq := Nat.lt_of_lt_of_le (h.parent_lt (hprocs ▸ hc) hq) hid
  child hq hc := by simpa [hprocs] using h.child (hprocs ▸ hq) hc
  listed hc hk hq := h.listed (hprocs ▸ hc) hk (hprocs ▸ hq)
  nodup hq := h.nodup (hprocs ▸ hq)
  self hc := h.self (hprocs ▸ hc)
  init_some hi := by simpa [hprocs] using h.init_some (hinit ▸ hi)
  observed hp := by simpa [hinit] using h.observed (hprocs ▸ hp)
  thread hp := by simpa [hthreads] using h.thread (hprocs ▸ hp)
  gone {x} hp := by
    have hgone := h.gone (p := x) (hprocs ▸ hp)
    rw [← ThreadState.state_eq_reapable, hthreads, hgone]
    rfl
  pid_lt hp := Nat.lt_of_lt_of_le (h.pid_lt (hprocs ▸ hp)) hpid
  pid_inj hp hq := h.pid_inj (hprocs ▸ hp) (hprocs ▸ hq)

theorem update_running (hp : (s.threads p).state = .running) {t : ThreadState}
    (ht : t.state = .running) (x : Nat) : (update s.threads p t x).state = (s.threads x).state := by
  by_cases hx : x = p
  · subst hx
    simp [hp, ht]
  · simp [hx]

variable (h : ProcInv s)

include h

/-- A record's other fields may change freely; its links, number and observer
may not. -/
theorem of_update (r' : Process) (hr : s.procs p = some r) (hpid : r'.pid = r.pid)
    (hparent : r'.parent = r.parent) (hchildren : r'.children = r.children)
    (hobs : r'.observed = r.observed) {threads : Nat → ThreadState}
    (hstate : r'.state = (threads p).state)
    (hthreads : ∀ x, x ≠ p → (threads x).state = (s.threads x).state) {result} : ProcInv { s with
      procs := update s.procs p (some r'), threads := threads, events := es,
      result := result } := by
  constructor
  case child =>
    intro q k c hq hc
    simp only [update_eq_some, Option.some.injEq] at hq ⊢
    obtain ⟨kc, hkc, hpar⟩ : ∃ kc, s.procs c = some kc ∧ kc.parent = some q := by
      rcases hq with ⟨rfl, rfl⟩ | ⟨-, hq⟩
      · exact h.child hr (hchildren ▸ hc)
      · exact h.child hq hc
    by_cases hcp : c = p <;> grind
  case init_some =>
    intro i hi
    obtain ⟨k, hk, hroot⟩ := h.init_some hi
    simp only [update_eq_some, Option.some.injEq]
    by_cases hip : i = p <;> grind
  case gone =>
    intro x hx
    by_cases hxp : x = p
    · subst hxp
      simp at hx
    · rw [← ThreadState.state_eq_reapable, hthreads x hxp, h.gone (by simpa [hxp] using hx)]
      rfl
  all_goals
    simp only [update_eq_some, Option.some.injEq]
    grind [ProcInv]

theorem fork (hp : s.threads p = .running) (hr : s.procs p = some r) {returns} : ProcInv { s with
      procs := update
        (update s.procs p (some { r with children := r.children ++ [s.nextId] }))
        s.nextId (some ⟨s.nextPid, some p, [], .running, 0, 0, false, r.fds⟩)
      threads := update (update s.threads s.nextId .running) p .running
      nextId := s.nextId + 1
      nextPid := s.nextPid + 1
      returns := returns } := by
  have hfresh := h.fresh
  constructor
  case child =>
    intro q k c hq hc
    simp only [update_eq_some, Option.some.injEq] at hq ⊢
    by_cases hcn : c = s.nextId
    · grind [ProcInv]
    obtain ⟨kc, hkc, hpar⟩ : ∃ kc, s.procs c = some kc ∧ kc.parent = some q := by
      grind [ProcInv]
    by_cases hcp : c = p
    · exact ⟨_, .inr ⟨hcn, .inl ⟨hcp, rfl⟩⟩, by grind⟩
    · exact ⟨kc, .inr ⟨hcn, .inr ⟨hcp, hkc⟩⟩, hpar⟩
  case init_some =>
    intro i hi
    obtain ⟨k, hk, hroot⟩ := h.init_some hi
    have hin : i ≠ s.nextId := Nat.ne_of_lt (h.lt hk)
    simp only [update_eq_some, Option.some.injEq]
    by_cases hip : i = p
    · exact ⟨_, .inr ⟨hin, .inl ⟨hip, rfl⟩⟩, by grind⟩
    · exact ⟨k, .inr ⟨hin, .inr ⟨hip, hk⟩⟩, hroot⟩
  all_goals
    simp only [update_eq_some, Option.some.injEq]
    grind [ProcInv, update_apply, ThreadState.state]

section

variable (hr : s.procs p = some r)

include hr

/-- A record that is nobody's child and not PID 1 may be freed. -/
theorem free (hparent : r.parent = none) {threads : Nat → ThreadState} (hgone : threads p = .gone)
    (hthreads : ∀ x, x ≠ p → (threads x).state = (s.threads x).state) {result} : ProcInv { s with
      procs := update s.procs p none, threads := threads, events := es,
      result := result, init := if s.init = some p then none else s.init } := by
  constructor
  case child =>
    intro q k c hq hc
    simp only [update_eq_some, reduceCtorEq, and_false, false_or] at hq ⊢
    obtain ⟨kc, hkc, hpar⟩ := h.child hq.2 hc
    grind
  case init_some =>
    intro i hi
    obtain ⟨k, hk, hroot⟩ := h.init_some (i := i) (by grind)
    simp only [update_eq_some]
    grind
  case gone =>
    intro x hx
    by_cases hxp : x = p
    · simpa [hxp] using hgone
    · rw [← ThreadState.state_eq_reapable, hthreads x hxp, h.gone (by simpa [hxp] using hx)]
      rfl
  all_goals
    simp only [update_eq_some, reduceCtorEq, and_false, false_or]
    grind [ProcInv]

variable (ha : adopter = if s.init = some p then none else s.init)

include ha

/-- PID 1 adopts when it is not the one that exits; it is not one of the
children either. -/
theorem adopter_spec {i : Nat} (hi : adopter = some i) :
    s.init = some i ∧ i ≠ p ∧ i ∉ r.children ∧ ∃ k, s.procs i = some k ∧ k.parent = none := by
  obtain ⟨hi, hip⟩ : s.init = some i ∧ i ≠ p := by grind
  obtain ⟨k, hk, hroot⟩ := h.init_some hi
  refine ⟨hi, hip, fun hm => ?_, k, hk, hroot⟩
  obtain ⟨k', hk', hpar⟩ := h.child hr hm
  cases hk.symm.trans hk'
  simp [hroot] at hpar

/-- A record after the exit of `p`, against the record before. -/
structure AfterExit (p : Nat) (cs : List Nat) (adopter : Option Nat) (x : Nat) (k k' : Process) :
    Prop where
  pid : k'.pid = k.pid
  observed : k'.observed = k.observed
  parent : k'.parent = if x ∈ cs then adopter else k.parent
  children : k'.children =
    if x = p then [] else if adopter = some x then k.children ++ cs else k.children
  state : k'.state = if x = p then .zombie else k.state
  fds : k'.fds = k.fds
  exitStatus : x ≠ p → k'.exitStatus = k.exitStatus

/-- The records `procs` after the exit of `p`, against those before. -/
structure Exits (s : Procs) (p : Nat) (r : Process) (adopter : Option Nat)
    (procs : Nat → Option Process) : Prop where
  back : ∀ {x k'}, procs x = some k' →
    ∃ k, s.procs x = some k ∧ AfterExit p r.children adopter x k k'
  stays : ∀ {x k}, s.procs x = some k → (x ∈ r.children → adopter = none → k.state ≠ .reapable) →
    ∃ k', procs x = some k' ∧ AfterExit p r.children adopter x k k'

theorem exits : Exits s p r adopter
    (adopted adopter r.children (update s.procs p (some (r.exited status fault)))) := by
  have hself := h.not_mem_children hr
  generalize hprocs : adopted adopter r.children (update s.procs p (some (r.exited status fault))) =
    procs
  have hback : ∀ {x k'}, procs x = some k' →
      ∃ k, s.procs x = some k ∧ AfterExit p r.children adopter x k k' := by
    intro x k' hx
    simp only [← hprocs, adopted_eq_some, update_eq_some, orphaned_eq_some, Option.some.injEq] at hx
    obtain ⟨k, ⟨rfl, rfl⟩ | ⟨hxp, hk⟩, hx⟩ := hx
    · refine ⟨r, hr, ?_⟩
      rcases hx with ⟨hm, -⟩ | ⟨-, hax, -⟩ | ⟨-, -, rfl⟩
      · exact absurd hm hself
      · exact absurd rfl (h.adopter_spec hr ha hax).2.1
      · constructor <;> simp [Process.exited, hself]
    · refine ⟨k, hk, ?_⟩
      have hacs : ∀ i, adopter = some i → i ∉ r.children := fun i hi =>
        (h.adopter_spec hr ha hi).2.2.1
      constructor <;> grind
  refine ⟨hback, fun {x k} hk hfree => ?_⟩
  have hsome : (procs x).isSome := by
    rw [← hprocs]
    by_cases hm : x ∈ r.children
    · have hxp : x ≠ p := fun e => hself (e ▸ hm)
      cases adopter with
      | some i => simp [adopted, hm, hxp, hk, orphaned]
      | none => simp [adopted, hm, hxp, hk, orphaned, hfree hm rfl]
    · clear ha
      rcases eq_or_ne x p with rfl | hxp <;> by_cases hax : adopter = some x <;> simp [adopted, *]
  obtain ⟨k', hk'⟩ := Option.isSome_iff_exists.mp hsome
  obtain ⟨k2, hk2, hafter⟩ := hback hk'
  cases hk.symm.trans hk2
  exact ⟨k', hk', hafter⟩

variable {procs : Nat → Option Process} (e : Exits s p r adopter procs)

include e

/-- The links down lead to children with the link up. -/
theorem exit_child {q c : Nat} {k' : Process} (hq : procs q = some k') (hc : c ∈ k'.children) :
    ∃ kc', procs c = some kc' ∧ kc'.parent = some q := by
  have hadopter {i : Nat} (hi : adopter = some i) := h.adopter_spec hr ha hi
  obtain ⟨k, hk, hafter⟩ := e.back hq
  rw [hafter.children] at hc
  have hold : c ∈ k.children ∨ adopter = some q ∧ c ∈ r.children := by grind
  obtain ⟨kc, hkc, hpar⟩ : ∃ kc, s.procs c = some kc ∧
      (if c ∈ r.children then adopter else kc.parent) = some q := by
    rcases hold with hold | ⟨haq, hold⟩
    · obtain ⟨kc, hkc, hpar⟩ := h.child hk hold
      exact ⟨kc, hkc, by grind [ProcInv]⟩
    · obtain ⟨kc, hkc, hpar⟩ := h.child hr hold
      exact ⟨kc, hkc, by simp [hold, haq]⟩
  obtain ⟨kc', hkc', hafter'⟩ := e.stays hkc (by grind)
  exact ⟨kc', hkc', hafter'.parent.trans hpar⟩

/-- The links up lead to parents with the link down. -/
theorem exit_listed {c q : Nat} {kc' k' : Process} (hc : procs c = some kc')
    (hpar : kc'.parent = some q) (hq : procs q = some k') : c ∈ k'.children := by
  obtain ⟨kc, hkc, hafterc⟩ := e.back hc
  obtain ⟨k, hk, hafter⟩ := e.back hq
  rw [hafterc.parent] at hpar
  rw [hafter.children]
  by_cases hm : c ∈ r.children
  · rw [if_pos hm] at hpar
    obtain ⟨-, hqp, -⟩ := h.adopter_spec hr ha hpar
    simp [hqp, hpar, hm]
  rw [if_neg hm] at hpar
  have hqp : q ≠ p := fun heq => hm (h.listed hkc (heq ▸ hpar) hr)
  have hold := h.listed hkc hpar hk
  grind

omit ha in
/-- A record that is gone has no thread. -/
theorem exit_gone (hx : procs x = none) : update s.threads p .dead x = .gone := by
  cases hk : s.procs x with
  | none =>
    have hxp : x ≠ p := fun heq => by simp [heq, hr] at hk
    simpa [hxp] using h.gone hk
  | some k =>
    have hfreed : x ∈ r.children ∧ k.state = .reapable := by
      by_contra hcon
      obtain ⟨k', hk', -⟩ := e.stays hk (by tauto)
      exact absurd (hx.symm.trans hk') (by simp)
    have hxp : x ≠ p := fun heq => h.not_mem_children hr (heq ▸ hfreed.1)
    have hstate := h.thread hk ▸ hfreed.2
    simpa [hxp] using ThreadState.state_eq_reapable.mp hstate

/-- **`process_exit`** keeps the family links in order. -/
theorem exit : ProcInv { s with
    procs := procs, threads := update s.threads p .dead, events := es } := by
  have hadopter {i : Nat} (hi : adopter = some i) := h.adopter_spec hr ha hi
  constructor
  case lt =>
    intro x k' hx
    obtain ⟨k, hk, -⟩ := e.back hx
    exact h.lt hk
  case parent_lt =>
    intro c k' q hc hq
    obtain ⟨k, hk, hafter⟩ := e.back hc
    rw [hafter.parent] at hq
    split at hq
    · obtain ⟨-, -, -, i, hi, -⟩ := hadopter hq
      exact h.lt hi
    · exact h.parent_lt hk hq
  case child => exact fun {q k' c} hq hc => h.exit_child hr ha e hq hc
  case listed => exact fun {c kc' q k'} hc hpar hq => h.exit_listed hr ha e hc hpar hq
  case nodup =>
    intro q k' hq
    obtain ⟨k, hk, hafter⟩ := e.back hq
    rw [hafter.children]
    split
    · exact List.nodup_nil
    split
    · refine (h.nodup hk).append (h.nodup hr) fun x hx hx' => ?_
      grind [ProcInv]
    · exact h.nodup hk
  case self =>
    intro c k' hc
    obtain ⟨k, hk, hafter⟩ := e.back hc
    rw [hafter.parent]
    grind [ProcInv]
  case init_some =>
    intro i hi
    obtain ⟨k, hk, hroot⟩ := h.init_some hi
    have hnot : i ∉ r.children := by
      intro hm
      obtain ⟨k2, hk2, hpar⟩ := h.child hr hm
      cases hk.symm.trans hk2
      simp [hroot] at hpar
    obtain ⟨k', hk', hafter⟩ := e.stays hk (by simp [hnot])
    exact ⟨k', hk', by simp [hafter.parent, hnot, hroot]⟩
  case observed =>
    intro x k' hx
    obtain ⟨k, hk, hafter⟩ := e.back hx
    rw [hafter.observed]
    exact h.observed hk
  case thread =>
    intro x k' hx
    obtain ⟨k, hk, hafter⟩ := e.back hx
    rw [hafter.state]
    by_cases hxp : x = p
    · simp [hxp, ThreadState.state]
    · simpa [hxp] using h.thread hk
  case gone => exact fun {x} hx => h.exit_gone hr e hx
  case pid_lt =>
    intro x k' hx
    obtain ⟨k, hk, hafter⟩ := e.back hx
    rw [hafter.pid]
    exact h.pid_lt hk
  case pid_inj =>
    intro x k' y l' hx hy hpid
    obtain ⟨k, hk, hafter⟩ := e.back hx
    obtain ⟨l, hl, hafter'⟩ := e.back hy
    rw [hafter.pid, hafter'.pid] at hpid
    exact h.pid_inj hk hl hpid

end

theorem collect (hact : (s.threads p).state = .running) {c : Nat}
    (hr : s.procs p = some r) (hmem : c ∈ r.children) (hk : s.procs c = some k)
    (hst : k.state = .reapable) {returns} : ProcInv { s with
      procs := update
        (update s.procs p (some { r with children := r.children.erase c })) c none
      threads := update s.threads p .running
      events := es
      returns := returns } := by
  have hcp : c ≠ p := fun e => h.not_mem_children hr (e ▸ hmem)
  have hpar : k.parent = some p := by grind [ProcInv]
  constructor
  case child =>
    intro q k' x hq hx
    simp only [update_eq_some, reduceCtorEq, and_false, false_or, Option.some.injEq] at hq ⊢
    have hnodup := h.nodup hr
    obtain ⟨hxc, kx, hkx, hparx⟩ : x ≠ c ∧ ∃ kx, s.procs x = some kx ∧ kx.parent = some q := by
      rcases hq with ⟨hqc, ⟨rfl, rfl⟩ | ⟨hqp, hq⟩⟩
      · obtain ⟨hxc, hx⟩ := hnodup.mem_erase_iff.mp hx
        exact ⟨hxc, h.child hr hx⟩
      · obtain ⟨kx, hkx, hparx⟩ := h.child hq hx
        exact ⟨by grind, kx, hkx, hparx⟩
    by_cases hxp : x = p
    · exact ⟨_, ⟨hxc, .inl ⟨hxp, rfl⟩⟩, by grind⟩
    · exact ⟨kx, ⟨hxc, .inr ⟨hxp, hkx⟩⟩, hparx⟩
  case init_some =>
    intro i hi
    obtain ⟨ki, hki, hroot⟩ := h.init_some hi
    have hic : i ≠ c := fun e => by grind
    simp only [update_eq_some, reduceCtorEq, and_false, false_or, Option.some.injEq]
    by_cases hip : i = p
    · exact ⟨_, ⟨hic, .inl ⟨hip, rfl⟩⟩, by grind⟩
    · exact ⟨ki, ⟨hic, .inr ⟨hip, hki⟩⟩, hroot⟩
  case thread =>
    intro x k' hx
    have hstate := update_running hact (t := .running) rfl x
    simp only [update_eq_some, reduceCtorEq, and_false, false_or, Option.some.injEq] at hx
    grind [ProcInv]
  case gone =>
    intro x hx
    rw [← ThreadState.state_eq_reapable, update_running hact rfl]
    by_cases hxc : x = c
    · rw [hxc, ← h.thread hk, hst]
    by_cases hxp : x = p
    · simp [hxp, hcp.symm] at hx
    · rw [h.gone (by simpa [hxc, hxp] using hx)]
      rfl
  all_goals
    simp only [update_eq_some, reduceCtorEq, and_false, false_or, Option.some.injEq]
    grind [ProcInv, List.Nodup.mem_erase_iff, List.Nodup.erase]

theorem effect {a : ProcAction} (he : Effect s a s') : ProcInv s' := by
  cases he with
  | failed ha hact => exact h.of_procs rfl rfl Nat.le.refl Nat.le.refl (update_running hact rfl)
  | sleep ha hact hr hsome hnone =>
    exact h.of_procs rfl rfl Nat.le.refl Nat.le.refl (update_running hact rfl)
  | collect ha hact hr hmem hk hst => exact h.collect hact hr hmem hk hst
  | forkFailed fds hp =>
    exact h.of_procs rfl rfl (Nat.le_succ _) (Nat.le_succ _)
      (update_running (by rw [hp]; rfl) rfl)
  | fork hp hr => exact h.fork hp hr
  | exit hp hr adopter ha => exact h.exit hr ha (h.exits hr ha)
  | reap result hp hr =>
    rename_i p r
    have hthreads : ∀ x, x ≠ p →
        (wakeParent r.parent (update s.threads p .gone) x).state = (s.threads x).state :=
      fun x hx => by simp [wakeParent_state, hx]
    have hobs := h.observed hr
    cases hfree : r.freedAtReap with
    | true =>
      have hparent : r.parent = none := by
        cases hroot : r.observed with
        | true =>
          obtain ⟨k, hk, hnone⟩ := h.init_some (hobs.mp hroot)
          cases hr.symm.trans hk
          exact hnone
        | false => simpa [Process.freedAtReap, hroot] using hfree
      exact h.free hr hparent (by simp [hparent]) hthreads
    | false =>
      simp only [Process.freedAtReap, Bool.or_eq_false_iff] at hfree
      have hinit : s.init ≠ some p := fun e => by simp [hobs.mpr e] at hfree
      simp only [hinit, ↓reduceIte]
      exact h.of_update { r with fds := [], state := .reapable } hr rfl rfl rfl rfl
        (by rw [wakeParent_state, update_self]; rfl) hthreads
  | files fds hp hr =>
    rename_i p r
    exact h.of_update { r with fds := fds } hr rfl rfl rfl rfl
      (h.thread hr : r.state = _) fun _ _ => rfl

/-- **Every step keeps the family links in order.** -/
theorem step {a : ProcAction} (hs : procStep s a = some s') : ProcInv s' :=
  h.effect (h.step_effect hs)

end ProcInv

/-! ## How links change -/

namespace ProcInv

variable {s s' : Procs} {a : ProcAction} {c p q : Nat}

/-- Only its own exit stops a process from running. -/
theorem running_stays (h : ProcInv s) (he : Effect s a s') {r : Process}
    (hq : s.procs q = some r) (hrun : r.state = .running) (hexit : ∀ st f, a ≠ .exit q st f) :
    ∃ r', s'.procs q = some r' ∧ r'.state = .running := by
  cases he with
  | failed | sleep | forkFailed => exact ⟨r, hq, hrun⟩
  | collect ha hact hr hmem hk hst =>
    rename_i p rp x k
    have hqx : q ≠ x := fun e => by grind
    by_cases hqp : q = p
    · subst hqp
      exact ⟨{ rp with children := rp.children.erase x }, by simp [hqx], by grind⟩
    · exact ⟨r, by simp [hqx, hqp, hq], hrun⟩
  | fork hp hr =>
    rename_i p rp
    have hqn : q ≠ s.nextId := Nat.ne_of_lt (h.lt hq)
    by_cases hqp : q = p
    · subst hqp
      exact ⟨{ rp with children := rp.children ++ [s.nextId] }, by simp [hqn], by grind⟩
    · exact ⟨r, by simp [hqn, hqp, hq], hrun⟩
  | exit hp hr adopter ha =>
    rename_i p rp st f
    have hqp : q ≠ p := fun e => hexit st f (e ▸ rfl)
    obtain ⟨r', hr', hafter⟩ := (h.exits hr ha).stays hq (by simp [hrun])
    exact ⟨r', hr', by simp [hafter.state, hqp, hrun]⟩
  | reap result hp hr =>
    have hstate := h.thread hr
    rename_i p rp
    have hqp : q ≠ p := fun e => by grind [ThreadState.state]
    exact ⟨r, by simp [hqp, hq], hrun⟩
  | files fds hp hr =>
    rename_i p rp
    by_cases hqp : q = p
    · subst hqp
      exact ⟨{ rp with fds := fds }, by simp, by grind⟩
    · exact ⟨r, by simp [hqp, hq], hrun⟩

/-- Where a parent link comes from: it was there, the parent forked, or PID 1
adopted the child. -/
theorem parent_cases (h : ProcInv s) (he : Effect s a s') {k' : Process}
    (hc : s'.procs c = some k') (hpar : k'.parent = some q) :
    (∃ k, s.procs c = some k ∧ k.parent = some q ∧ ∀ st f, a ≠ .exit q st f) ∨
    a = .fork q .done ∨
    ∃ p st f r, a = .exit p st f ∧ s.procs p = some r ∧ c ∈ r.children ∧
      s.init = some q ∧ q ≠ p := by
  cases he with
  | failed ha => exact .inl ⟨k', hc, hpar, by rintro _ _ rfl; simp [ProcAction.waiter] at ha⟩
  | sleep ha => exact .inl ⟨k', hc, hpar, by rintro _ _ rfl; simp [ProcAction.waiter] at ha⟩
  | forkFailed => exact .inl ⟨k', hc, hpar, by simp⟩
  | collect ha hact hr hmem hk hst =>
    simp only [update_eq_some, reduceCtorEq, and_false, false_or, Option.some.injEq] at hc
    refine .inl ?_
    have hexit : ∀ st f, a ≠ .exit q st f := by
      rintro _ _ rfl
      simp [ProcAction.waiter] at ha
    grind
  | fork hp hr =>
    simp only [update_eq_some, Option.some.injEq] at hc
    rcases hc with ⟨rfl, rfl⟩ | ⟨hcn, ⟨rfl, rfl⟩ | ⟨hcp, hc⟩⟩
    · cases hpar
      exact .inr (.inl rfl)
    · exact .inl ⟨_, hr, hpar, by simp⟩
    · exact .inl ⟨k', hc, hpar, by simp⟩
  | exit hp hr adopter ha =>
    rename_i p rp st f
    obtain ⟨k, hk, hafter⟩ := (h.exits hr ha).back hc
    rw [hafter.parent] at hpar
    by_cases hm : c ∈ rp.children
    · rw [if_pos hm] at hpar
      obtain ⟨hi, hqp, -⟩ := h.adopter_spec hr ha hpar
      exact .inr (.inr ⟨p, st, f, rp, rfl, hr, hm, hi, hqp⟩)
    rw [if_neg hm] at hpar
    refine .inl ⟨k, hk, hpar, fun st' f' e => ?_⟩
    cases e
    exact hm (h.listed hk hpar hr)
  | reap result hp hr =>
    simp only [update_eq_some] at hc
    exact .inl (by grind)
  | files fds hp hr =>
    simp only [update_eq_some, Option.some.injEq] at hc
    exact .inl (by grind)

end ProcInv

/-! ## Parents are running -/

/-- Every parent link leads to a running process that lists the child exactly
once, and every list entry to an existing child of the list's owner. -/
def FamilyLinked (s : Procs) : Prop :=
  (∀ c k q, s.procs c = some k → k.parent = some q →
    ∃ r, s.procs q = some r ∧ r.state = .running ∧ r.children.count c = 1) ∧
  ∀ q r c, s.procs q = some r → c ∈ r.children → ∃ k, s.procs c = some k ∧ k.parent = some q

/-- No process with children exits while `init_process` is set to another one
that has exited. -/
def InitAlive (s : Procs) : ProcAction → Prop
  | .exit p _ _ => ∀ i ∈ s.init, ∀ r ∈ s.procs p, i ≠ p → r.children ≠ [] →
      ∃ k ∈ s.procs i, k.state = .running
  | _ => True

instance (s : Procs) (a : ProcAction) : Decidable (InitAlive s a) := by
  cases a <;> unfold InitAlive <;> infer_instance

/-- The part of `FamilyLinked` that depends on `InitAlive`. -/
def Settled (s : Procs) : Prop :=
  ∀ {c k q}, s.procs c = some k → k.parent = some q → ∃ r, s.procs q = some r ∧ r.state = .running

theorem Settled.step {s' : Procs} {a : ProcAction} (h : ProcInv s) (hset : Settled s)
    (hok : InitAlive s a) (hs : procStep s a = some s') : Settled s' := by
  intro c k' q hc hq
  have he := h.step_effect hs
  rcases h.parent_cases he hc hq with ⟨k, hk, hpar, hexit⟩ | rfl | ⟨p, st, f, r, rfl, hr,
    hm, hi, hqp⟩
  · obtain ⟨r, hr, hrun⟩ := hset hk hpar
    exact h.running_stays he hr hrun hexit
  · simp only [procStep, Option.ite_none_right_eq_some] at hs
    have hstate : (s.threads q).state = .running := by simp [hs.1, ThreadState.state]
    obtain ⟨r, hr⟩ := h.record_of_state (p := q) (by simp [hstate])
    exact h.running_stays he hr ((h.thread hr).trans hstate) (by simp)
  · obtain ⟨k, hk, hrun⟩ := hok q hi r hr hqp (List.ne_nil_of_mem hm)
    exact h.running_stays he hk hrun fun st' f' e => hqp (by cases e; rfl)

theorem ProcInv.familyLinked (h : ProcInv s) (hset : Settled s) : FamilyLinked s := by
  refine ⟨fun c k q hc hq => ?_, fun q r c hq hc => h.child hq hc⟩
  obtain ⟨r, hr, hrun⟩ := hset hc hq
  exact ⟨r, hr, hrun, List.count_eq_one_of_mem (h.nodup hr) (h.listed hc hq hr)⟩

/-- **Family links**: in every run whose exits find PID 1 running, each process
is linked to a running parent or to none. -/
theorem familyLinked_of_initAlive (fds : List Nat) (s : Procs)
    (hrun : Reach procStep InitAlive (Procs.start fds) s) : FamilyLinked s := by
  have hinv : ProcInv s ∧ Settled s := by
    refine hrun.invariant (I := fun s => ProcInv s ∧ Settled s) ⟨ProcInv.start fds, ?_⟩
      fun s a s' h hok hs => ⟨h.1.step hs, Settled.step h.1 h.2 hok hs⟩
    intro c k q hc hq
    simp only [Procs.start, update_eq_some, reduceCtorEq, and_false, or_false, Option.some.injEq]
      at hc
    grind
  exact hinv.1.familyLinked hinv.2

/-- A child is adopted by a running PID 1, exits and is reaped. -/
theorem familyLinked_adoption :
    ∃ s, runSteps (guarded procStep InitAlive) (Procs.start [])
        [.fork 0 .done, .fork 1 .done, .exit 1 7 0, .exit 2 0 0, .reap 2] = some s ∧
      FamilyLinked s := by
  obtain ⟨s, hs⟩ : ∃ s, runSteps (guarded procStep InitAlive) (Procs.start [])
      [.fork 0 .done, .fork 1 .done, .exit 1 7 0, .exit 2 0 0, .reap 2] = some s := ⟨_, rfl⟩
  exact ⟨s, hs, familyLinked_of_initAlive [] s (.of_guarded hs)⟩

/-- PID 1 forks a child, which forks a child; PID 1 exits, then the middle one. -/
def adoptedByZombie : List ProcAction :=
  [.fork 0 .done, .fork 1 .done, .exit 0 0 0, .exit 1 0 0]

/-- The code's `process_exit` gives children to a PID 1 that has exited. -/
theorem familyLinked_fails :
    ¬∀ fds s, Reach procStep Always (Procs.start fds) s → FamilyLinked s := by
  intro h
  obtain ⟨s, hs⟩ : ∃ s, runSteps procStep (Procs.start []) adoptedByZombie = some s := ⟨_, rfl⟩
  have hfacts : ((runSteps procStep (Procs.start []) adoptedByZombie).map fun s =>
      ((s.procs 2).map Process.parent, (s.procs 0).map Process.state)) =
      some (some (some 0), some .zombie) := by decide +kernel
  rw [hs, Option.map_some, Option.some.injEq, Prod.mk.injEq] at hfacts
  obtain ⟨k, hk, hpar⟩ := Option.map_eq_some_iff.mp hfacts.1
  obtain ⟨r, hr, hrun, -⟩ := (h [] s (.of_runSteps hs fun _ _ _ => trivial)).1 2 k 0 hk hpar
  simp [hr, hrun] at hfacts

/-! ## Sleepers have something to wait for -/

/-- `waitpid(pid)` of `p` may sleep: some child matches, and none that does is
reapable. -/
def SleepOk (procs : Nat → Option Process) (p : Nat) (pid : Int) : Prop :=
  ∃ r, procs p = some r ∧ (∃ c ∈ r.children, ∃ k, procs c = some k ∧ k.Matches pid) ∧
    ∀ c ∈ r.children, ∀ k, procs c = some k → k.Matches pid → k.state ≠ .reapable

/-- No wakeup has been lost. -/
def NoLostWakeup (s : Procs) : Prop :=
  ∀ p pid address, s.threads p = .waiting pid address → SleepOk s.procs p pid

/-- What a sleeping thread waits for. -/
def ThreadState.waitsFor : ThreadState → Option Int
  | .waiting pid _ => some pid
  | _ => none

/-- No process exits with a reapable child that PID 1 is asleep waiting for. -/
def NoReadyOrphan (s : Procs) : ProcAction → Prop
  | .exit p _ _ => ∀ i ∈ s.init, ∀ r ∈ s.procs p, i ≠ p → ∀ c ∈ r.children, ∀ k ∈ s.procs c,
      k.state = .reapable → ∀ pid ∈ (s.threads i).waitsFor, ¬k.Matches pid
  | _ => True

instance (s : Procs) (a : ProcAction) : Decidable (NoReadyOrphan s a) := by
  cases a <;> unfold NoReadyOrphan <;> infer_instance

/-- A sleeper keeps its reason to sleep when its children stay, none of them
becomes reapable, and the ones that join are not matching and reapable. -/
theorem SleepOk.mono {procs procs' : Nat → Option Process} (h : SleepOk procs p pid)
    (new : List Nat)
    (howner : ∀ r, procs p = some r → ∃ r', procs' p = some r' ∧ r'.children = r.children ++ new)
    (hold : ∀ r c, procs p = some r → c ∈ r.children → ∃ k k', procs c = some k ∧
      procs' c = some k' ∧ k'.pid = k.pid ∧ (k'.state = .reapable → k.state = .reapable))
    (hnew : ∀ c ∈ new, ∀ k', procs' c = some k' → k'.Matches pid → k'.state ≠ .reapable) :
    SleepOk procs' p pid := by
  obtain ⟨r, hr, ⟨c, hc, kc, hkc, hm⟩, hnone⟩ := h
  obtain ⟨r', hr', hch⟩ := howner r hr
  refine ⟨r', hr', ?_, fun x hx k' hk' hmx => ?_⟩
  · obtain ⟨k, k', hk, hk', hpid, -⟩ := hold r c hr hc
    cases hkc.symm.trans hk
    exact ⟨c, by simp [hch, hc], k', hk', by simpa [Process.Matches, hpid] using hm⟩
  rw [hch, List.mem_append] at hx
  rcases hx with hx | hx
  · obtain ⟨k, l, hk, hl, hpid, hstate⟩ := hold r x hr hx
    cases hk'.symm.trans hl
    have hmk : k.Matches pid := by simpa [Process.Matches, hpid] using hmx
    exact fun hst => hnone x hx k hk hmk (hstate hst)
  · exact hnew x hx k' hk' hmx

/-- The same with no child joining, from the sleeper's and its children's records. -/
theorem ProcInv.sleepOk (h : ProcInv s) {procs' : Nat → Option Process} (hs : SleepOk s.procs p pid)
    (hkeep : ∀ x k, s.procs x = some k → (x = p ∨ k.parent = some p) → ∃ k', procs' x = some k' ∧
      k'.pid = k.pid ∧ k'.state = k.state ∧ (x = p → k'.children = k.children)) :
    SleepOk procs' p pid := by
  refine hs.mono [] (fun r hr => ?_) (fun r c hr hc => ?_) (by simp)
  · obtain ⟨r', hr', -, -, hch⟩ := hkeep p r hr (.inl rfl)
    exact ⟨r', hr', by simpa using hch rfl⟩
  obtain ⟨k, hk, hpar⟩ := h.child hr hc
  obtain ⟨k', hk', hpid, hstate, -⟩ := hkeep c k hk (.inr hpar)
  exact ⟨k, k', hk, hk', hpid, by simp [hstate]⟩

/-- The exit of `q` under a sleeper: PID 1 may get more children, everyone else
keeps theirs. -/
theorem SleepOk.exit (h : ProcInv s) {q : Nat} {address : Nat} {r : Process}
    (hwait : s.threads p = .waiting pid address) (hpq : p ≠ q) (hr : s.procs q = some r)
    (ha : adopter = if s.init = some q then none else s.init) {status : Int} {fault : Nat}
    (hok : NoReadyOrphan s (.exit q status fault)) (hsleep : SleepOk s.procs p pid) :
    SleepOk (adopted adopter r.children
      (update s.procs q (some (r.exited status fault)))) p pid := by
  have hstate : (s.threads p).state = .running := by simp [hwait, ThreadState.state]
  refine hsleep.mono (if adopter = some p then r.children else []) (fun k hk => ?_)
    (fun k c hk hc => ?_) (fun c hc k' hk' hm => ?_)
  · obtain ⟨k', hk', hafter⟩ := (h.exits hr ha).stays hk (by simp [h.thread hk, hstate])
    refine ⟨k', hk', ?_⟩
    rw [hafter.children, if_neg hpq]
    split <;> simp
  · obtain ⟨kc, hkc, hpar⟩ := h.child hk hc
    have hnot : c ∉ r.children := by
      intro hm
      obtain ⟨kc', hkc', hpar'⟩ := h.child hr hm
      grind
    obtain ⟨k', hk', hafter⟩ := (h.exits hr ha).stays hkc (by simp [hnot])
    refine ⟨kc, k', hkc, hk', hafter.pid, ?_⟩
    rw [hafter.state]
    split <;> simp
  · -- The children that join PID 1 are the orphans; the side condition is about them.
    obtain ⟨hap, hmem⟩ : adopter = some p ∧ c ∈ r.children := by grind
    obtain ⟨hi, -⟩ := h.adopter_spec hr ha hap
    obtain ⟨k, hk, hafter⟩ := (h.exits hr ha).back hk'
    have hcq : c ≠ q := fun e => h.not_mem_children hr (e ▸ hmem)
    rw [hafter.state, if_neg hcq]
    intro hst
    refine hok p hi r hr hpq c hmem k hk hst pid (by simp [hwait, ThreadState.waitsFor]) ?_
    simpa [Process.Matches, hafter.pid] using hm

theorem NoLostWakeup.step {s' : Procs} {a : ProcAction} (h : ProcInv s) (hw : NoLostWakeup s)
    (hok : NoReadyOrphan s a) (hs : procStep s a = some s') : NoLostWakeup s' := by
  intro p pid address hp
  cases h.step_effect hs with
  | failed ha hact =>
    rename_i q e
    have hpq : p ≠ q := fun e => by simp [e, Procs.ret] at hp
    exact hw p pid address (by simpa [Procs.ret, hpq] using hp)
  | sleep ha hact hr hsome hnone =>
    rename_i q r pid' address'
    by_cases hpq : p = q
    · subst hpq
      obtain ⟨rfl, rfl⟩ : pid' = pid ∧ address' = address := by
        simpa [Procs.setThread] using hp
      exact ⟨r, hr, hsome, hnone⟩
    · exact hw p pid address (by simpa [Procs.setThread, hpq] using hp)
  | @forkFailed q =>
    have hpq : p ≠ q := fun e => by simp [e] at hp
    exact hw p pid address (by simpa [hpq] using hp)
  | collect ha hact hr hmem hk hst =>
    rename_i q r c k
    have hpq : p ≠ q := fun e => by simp [e] at hp
    have hwait : s.threads p = .waiting pid address := by simpa [hpq] using hp
    have hpar : k.parent = some q := by grind [ProcInv]
    refine h.sleepOk (hw p pid address hwait) fun x kx hx hpx => ?_
    have hxc : x ≠ c := by
      rintro rfl
      cases hk.symm.trans hx
      rcases hpx with rfl | hpx
      · simp [h.thread hk, hwait, ThreadState.state] at hst
      · exact hpq (Option.some.inj (hpx.symm.trans hpar))
    by_cases hxq : x = q
    · subst hxq
      cases hr.symm.trans hx
      exact ⟨{ r with children := r.children.erase c }, by simp [hxc], rfl, rfl,
        by simp [Ne.symm hpq]⟩
    · exact ⟨kx, by simp [hxc, hxq, hx], rfl, rfl, fun _ => rfl⟩
  | fork hact hr =>
    rename_i q r
    have hpq : p ≠ q := fun e => by simp [e] at hp
    have hpn : p ≠ s.nextId := fun e => by simp [e, e ▸ hpq] at hp
    have hwait : s.threads p = .waiting pid address := by simpa [hpq, hpn] using hp
    refine h.sleepOk (hw p pid address hwait) fun x kx hx hpx => ?_
    have hxn : x ≠ s.nextId := Nat.ne_of_lt (h.lt hx)
    by_cases hxq : x = q
    · subst hxq
      cases hr.symm.trans hx
      exact ⟨{ r with children := r.children ++ [s.nextId] }, by simp [hxn], rfl, rfl,
        by simp [Ne.symm hpq]⟩
    · exact ⟨kx, by simp [hxn, hxq, hx], rfl, rfl, fun _ => rfl⟩
  | exit hact hr adopter ha =>
    rename_i q r status fault
    have hpq : p ≠ q := fun e => by simp [e] at hp
    have hwait : s.threads p = .waiting pid address := by simpa [hpq] using hp
    exact (hw p pid address hwait).exit h hwait hpq hr ha hok
  | reap result hdead hr =>
    rename_i q r
    -- A sleeper that is still asleep is not the parent of the reaped process.
    have hpar : r.parent ≠ some p := by
      intro e
      simp only [wakeParent, e, ↓reduceIte] at hp
      generalize update s.threads q ThreadState.gone p = t at hp
      cases t <;> simp [ThreadState.wake] at hp
    have hpq : p ≠ q := fun e => by simp [wakeParent, e ▸ hpar, e] at hp
    have hwait : s.threads p = .waiting pid address := by simpa [wakeParent, hpar, hpq] using hp
    refine h.sleepOk (hw p pid address hwait) fun x kx hx hpx => ?_
    have hxq : x ≠ q := by
      rintro rfl
      cases hr.symm.trans hx
      rcases hpx with rfl | hpx
      · exact hpq rfl
      · exact hpar hpx
    exact ⟨kx, by simp [hxq, hx], rfl, rfl, fun _ => rfl⟩
  | files fds hact hr =>
    rename_i q r
    refine h.sleepOk (hw p pid address hp) fun x kx hx hpx => ?_
    by_cases hxq : x = q
    · subst hxq
      cases hr.symm.trans hx
      exact ⟨{ r with fds := fds }, by simp, rfl, rfl, fun _ => rfl⟩
    · exact ⟨kx, by simp [hxq, hx], rfl, rfl, fun _ => rfl⟩

/-- **No lost wakeup**: in every run in which no process exits with a reapable
child that PID 1 is asleep waiting for, whoever sleeps in `waitpid` has a
matching child and no matching child that is reapable. -/
theorem noLostWakeup_of_noReadyOrphan (fds : List Nat) (s : Procs)
    (hrun : Reach procStep NoReadyOrphan (Procs.start fds) s) : NoLostWakeup s := by
  have hinv : ProcInv s ∧ NoLostWakeup s := by
    refine hrun.invariant (I := fun s => ProcInv s ∧ NoLostWakeup s) ⟨ProcInv.start fds, ?_⟩
      fun s a s' h hok hs => ⟨h.1.step hs, h.2.step h.1 hok hs⟩
    intro p pid address hp
    by_cases h0 : p = 0 <;> simp [Procs.start, h0] at hp
  exact hinv.2

/-- PID 1 sleeps in `waitpid(-1)` while its only child forks, and adopts a
grandchild that is still running. -/
theorem noLostWakeup_adoption :
    ∃ s, runSteps (guarded procStep NoReadyOrphan) (Procs.start [])
        [.fork 0 .done, .fork 1 .done, .fork 2 .done, .waitpid 0 (-1) 0 0 true, .exit 2 0 0] =
          some s ∧ NoLostWakeup s := by
  obtain ⟨s, hs⟩ : ∃ s, runSteps (guarded procStep NoReadyOrphan) (Procs.start [])
      [.fork 0 .done, .fork 1 .done, .fork 2 .done, .waitpid 0 (-1) 0 0 true, .exit 2 0 0] =
        some s := ⟨_, rfl⟩
  exact ⟨s, hs, noLostWakeup_of_noReadyOrphan [] s (.of_guarded hs)⟩

/-- A chain of four processes: the last one exits and is reaped, PID 1 goes to
sleep in `waitpid(-1)`, and the third one exits and is reaped. -/
def adoptedReapable : List ProcAction :=
  [.fork 0 .done, .fork 1 .done, .fork 2 .done, .exit 3 5 0, .reap 3, .waitpid 0 (-1) 0 0 true,
    .exit 2 0 0, .reap 2]

/-- The code's `process_exit` does not wake PID 1 when it hands over a child that
is already reapable: PID 1 sleeps on, with the second process running. -/
theorem noLostWakeup_fails :
    ¬∀ fds s, Reach procStep Always (Procs.start fds) s → NoLostWakeup s := by
  intro h
  obtain ⟨s, hs⟩ : ∃ s, runSteps procStep (Procs.start []) adoptedReapable = some s := ⟨_, rfl⟩
  have hfacts : ((runSteps procStep (Procs.start []) adoptedReapable).map fun s =>
      (s.threads 0, (s.procs 0).map Process.children, (s.procs 3).map Process.state)) =
      some (.waiting (-1) 0, some [1, 3], some .reapable) := by decide +kernel
  rw [hs, Option.map_some, Option.some.injEq, Prod.mk.injEq, Prod.mk.injEq] at hfacts
  obtain ⟨hwait, hchildren, hstate⟩ := hfacts
  obtain ⟨k, hk, hst⟩ := Option.map_eq_some_iff.mp hstate
  obtain ⟨r, hr, -, hnone⟩ :=
    h [] s (.of_runSteps hs fun _ _ _ => trivial) 0 (-1) 0 hwait
  have hmem : 3 ∈ r.children := by
    have hch : r.children = [1, 3] := by simpa [hr] using hchildren
    simp [hch]
  exact hnone 3 hmem k hk (.inl rfl) hst

end MiniCore
