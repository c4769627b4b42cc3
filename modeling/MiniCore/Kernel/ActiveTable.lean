import MiniCore.Kernel.Lodging
import MiniCore.Kernel.SchedulerCalls

/-!
# MiniCore.Kernel.ActiveTable

The page table that `satp` names is always alive: it is the kernel's or that of
the current thread's process, and none of its pages is free.

`Wired` ties threads, processes and `satp` together, `Lodged` says what memory
they hold.  A process keeps its address space as long as its thread is on the
list of threads; the reaper takes the thread off before it destroys the space,
and the current thread is never taken off.
-/

namespace MiniCore

open Lib List Multiset

variable {k k' : Kernel} {threads : List Nat} {spare : List AddressSpace} {objs : Multiset Nat}
  {m : Machine} {as : AddressSpace} {ptr p page : Nat} {r : ProcessRecord} {a : RunQueues}

/-- The scheduler's invariant does not depend on the active table. -/
theorem RunQueues.Inv.activate {a : RunQueues} {timely : Prop} {run : Bool} {pending : Option Nat}
    (h : a.Inv timely run pending) (root : Nat) :
    RunQueues.Inv { a with satp := root } timely run pending where
  shape := ⟨h.shape.nodup, h.shape.lt, h.shape.current_mem, h.shape.idle_mem, h.shape.queue_mem⟩
  threads t ht := (h.threads t ht).congr rfl rfl id fun _ => rfl
  running := h.running
  accounts := h.accounts.congr rfl rfl rfl (fun _ => rfl) fun _ _ => rfl

namespace Kernel

variable {kernelRoot : Nat} {kernel : Radix} {held : Multiset Nat} {m₀ : Machine}

/-! ## The invariant -/

/-- The kernel stacks that can be freed: threads 0 and 1 are `bootstrap` and the
idle thread, which stay for ever. -/
def stackBag (k : Kernel) (threads : List Nat) : Multiset Nat :=
  ((threads.filter (2 ≤ ·)).map fun t => (k.scheduler.threads t).stackPage : List Nat)

/-- The records of the threads and of the processes. -/
def recordBag (k : Kernel) (threads : List Nat) : Multiset Nat :=
  ((threads.filter (2 ≤ ·)).map k.threadRecord : List Nat) +
    (k.processes.filterMap ProcessRecord.record : List Nat)

/-- The machine holds the resources of `threads` and of all processes, and with
them the address spaces `spare` and the records `objs` of a process in the
making or of an image about to go. -/
def Lodged (hb : Boot kernelRoot kernel held m₀) (k : Kernel) (threads : List Nat)
    (spare : List AddressSpace) (objs : Multiset Nat) : Prop :=
  ∃ l, l.map Prod.fst = k.processes.map ProcessRecord.space ++ spare ∧
    Housing hb (k.stackBag threads) (objs + k.recordBag threads) k.machine l

structure Wired (kernelRoot : Nat) (k : Kernel) (threads : List Nat) : Prop where
  current_mem : k.scheduler.current ∈ threads
  home : ∀ t ∈ threads, ∀ p, (k.scheduler.threads t).process = some p →
    ∃ r, k.processes[p]? = some r ∧ r.space.root ≠ 0
  apart : ∀ t ∈ threads, ∀ u ∈ threads, ∀ p, (k.scheduler.threads t).process = some p →
    (k.scheduler.threads u).process = some p → t = u
  active : k.scheduler.satp = k.roots kernelRoot k.currentProcess
  safe : ∀ d ∈ k.destroyed, d.2 ≠ 0 → d.1 ≠ d.2

structure Placed (hb : Boot kernelRoot kernel held m₀) (k : Kernel) (threads : List Nat)
    (spare : List AddressSpace) (objs : Multiset Nat) : Prop where
  wired : Wired kernelRoot k threads
  lodged : Lodged hb k threads spare objs

section Basics

variable {hb : Boot kernelRoot kernel held m₀}

variable {ok : Bool}

theorem roots_some (h : k.processes[p]? = some r) : k.roots kernelRoot (some p) = r.space.root := by
  simp [roots, h]

theorem destroySpace_snd : (k.destroySpace as).2 = { k with
    machine := (addressSpaceDestroy as k.machine).2
    destroyed := (k.scheduler.satp, as.root) :: k.destroyed } := rfl

section

variable (h : Wired kernelRoot k threads)

include h

theorem Wired.congr (hs : k'.scheduler = k.scheduler)
    (hp : k'.processes = k.processes) (hd : k'.destroyed = k.destroyed) :
    Wired kernelRoot k' threads := by
  obtain ⟨s, m, processes, records, destroyed⟩ := k
  obtain ⟨s', m', processes', records', destroyed'⟩ := k'
  obtain ⟨rfl, rfl, rfl⟩ : s' = s ∧ processes' = processes ∧ destroyed' = destroyed := ⟨hs, hp, hd⟩
  exact ⟨h.current_mem, h.home, h.apart, h.active, h.safe⟩

theorem Wired.machine (m : Machine) :
    Wired kernelRoot { k with machine := m } threads := h.congr rfl rfl rfl

theorem Wired.current (hp : k.currentProcess = some p) :
    ∃ r, k.processes[p]? = some r ∧ r.space.root ≠ 0 ∧ k.scheduler.satp = r.space.root := by
  obtain ⟨r, hr, hroot⟩ := h.home _ h.current_mem p hp
  exact ⟨r, hr, hroot, by rw [h.active, hp, roots_some hr]⟩

omit h in
/-- The address space of a process, with its table. -/
theorem Lodged.space {l : List (AddressSpace × Radix)}
    (hmap : l.map Prod.fst = k.processes.map ProcessRecord.space ++ spare)
    (hr : k.processes[p]? = some r) : ∃ t, l[p]? = some (r.space, t) := by
  have hlt : p < k.processes.length := (List.getElem?_eq_some_iff.mp hr).1
  have hspace : (l.map Prod.fst)[p]? = some r.space := by
    rw [hmap, getElem?_append_left (by simpa using hlt), getElem?_map, hr]
    rfl
  rw [getElem?_map, Option.map_eq_some_iff] at hspace
  obtain ⟨⟨as, t⟩, hx, rfl⟩ := hspace
  exact ⟨t, hx⟩

/-- A space other than the current one is not the active one. -/
theorem Wired.satp_ne {l : List (AddressSpace × Radix)} {i : Nat} {t : Radix}
    {kstacks : Multiset Nat} (hl : Housing hb kstacks objs m l)
    (hmap : l.map Prod.fst = k.processes.map ProcessRecord.space ++ spare)
    (hi : l[i]? = some (as, t)) (hne : ∀ p, k.currentProcess = some p → p ≠ i)
    (hroot : as.root ≠ 0) : k.scheduler.satp ≠ as.root := by
  cases hp : k.currentProcess with
  | none =>
    rw [h.active, hp]
    exact Ne.symm (hl.sound.root_ne_kept hi hroot (Housing.mem_kept hb))
  | some p =>
    obtain ⟨r, hr, hroot', hsatp⟩ := h.current hp
    obtain ⟨u, hx⟩ := Lodged.space hmap hr
    rw [hsatp]
    exact hl.sound.root_ne hx hi (hne p hp) hroot' hroot

/-- The processes change their spaces, but none that has a thread loses its
table. -/
theorem Wired.change (hthreads : k'.scheduler.threads = k.scheduler.threads)
    (hcur : k'.scheduler.current = k.scheduler.current) (hd : k'.destroyed = k.destroyed)
    (hhome : ∀ t ∈ threads, ∀ p r, (k.scheduler.threads t).process = some p →
      k.processes[p]? = some r → r.space.root ≠ 0 →
      ∃ r', k'.processes[p]? = some r' ∧ r'.space.root ≠ 0 ∧
        (t = k.scheduler.current → k.scheduler.satp = r.space.root →
          k'.scheduler.satp = r'.space.root))
    (hnone : k.currentProcess = none → k'.scheduler.satp = k.scheduler.satp) :
    Wired kernelRoot k' threads := by
  have hcall : k'.currentProcess = k.currentProcess := by
    rw [currentProcess, currentProcess, hthreads, hcur]
  refine ⟨hcur ▸ h.current_mem, ?_, hthreads ▸ h.apart, ?_, hd ▸ h.safe⟩
  · rw [hthreads]
    intro t ht p hp
    obtain ⟨r, hr, hroot⟩ := h.home t ht p hp
    obtain ⟨r', hr', hroot', -⟩ := hhome t ht p r hp hr hroot
    exact ⟨r', hr', hroot'⟩
  rw [hcall]
  cases hp : k.currentProcess with
  | none =>
    rw [hnone hp, h.active, hp]
    rfl
  | some p =>
    obtain ⟨r, hr, hroot, hsatp⟩ := h.current hp
    obtain ⟨r', hr', -, hactive⟩ := hhome _ h.current_mem p r hp hr hroot
    rw [hactive rfl hsatp, roots_some hr']

/-- The records change, the spaces do not. -/
theorem Wired.sameSpaces (hs : k'.scheduler = k.scheduler)
    (hp : ∀ p : Nat, (k'.processes[p]?).map ProcessRecord.space = (k.processes[p]?).map
      ProcessRecord.space) (hd : k'.destroyed = k.destroyed) : Wired kernelRoot k' threads := by
  refine h.change (by rw [hs]) (by rw [hs]) hd (fun t _ p r _ hr hroot => ?_) fun _ => by rw [hs]
  have hspace := hp p
  rw [hr, Option.map_some, Option.map_eq_some_iff] at hspace
  obtain ⟨r', hr', heq⟩ := hspace
  exact ⟨r', hr', heq ▸ hroot, fun _ hsatp => by rw [hs, hsatp, heq]⟩

/-- A process without a thread changes. -/
theorem Wired.setOther (hfree : ∀ t ∈ threads, (k.scheduler.threads t).process ≠ some p)
    (hs : k'.scheduler = k.scheduler) (hp : k'.processes = k.processes.set p r)
    (hd : k'.destroyed = k.destroyed) : Wired kernelRoot k' threads := by
  refine h.change (by rw [hs]) (by rw [hs]) hd (fun t ht q r' hq hr hroot => ?_) fun _ => by rw [hs]
  refine ⟨r', ?_, hroot, fun _ hsatp => by rw [hs, hsatp]⟩
  have hne : p ≠ q := fun heq => hfree t ht (heq ▸ hq)
  rw [hp, getElem?_set_ne hne, hr]

theorem Wired.mono {threads' : List Nat}
    (hsub : ∀ t ∈ threads', t ∈ threads) (hcur : k.scheduler.current ∈ threads') :
    Wired kernelRoot k threads' :=
  ⟨hcur, fun t ht => h.home t (hsub t ht),
    fun t ht u hu => h.apart t (hsub t ht) u (hsub u hu), h.active, h.safe⟩

/-- A scheduler call that lets the threads be. -/
theorem Wired.steady {s : Scheduler} {gone : Option Nat}
    (hsteady : Core.Steady (k.roots kernelRoot) gone k.scheduler.toCore s.toCore)
    (hcur : s.current ∈ threads) : Wired kernelRoot { k with scheduler := s } threads := by
  refine ⟨hcur, ?_, ?_, hsteady.active h.active, h.safe⟩
  · simp only [hsteady.process]
    exact h.home
  · simp only [hsteady.process]
    exact h.apart

end

theorem Lodged.steady {s : Scheduler} {gone : Option Nat} (h : Lodged hb k threads spare objs)
    (hsteady : Core.Steady (k.roots kernelRoot) gone k.scheduler.toCore s.toCore) :
    Lodged hb { k with scheduler := s } threads spare objs := by
  have hstack : Kernel.stackBag { k with scheduler := s } threads = k.stackBag threads :=
    congrArg _ (map_congr_left fun t _ => hsteady.stackPage t)
  rw [Lodged, hstack]
  exact h

/-! ## Steps of the calls -/

theorem Lodged.kmalloc {size : Nat} (h : Lodged hb k threads spare objs)
    (hrun : MiniCore.kmalloc size k.machine = (ptr, m)) :
    (ptr = 0 ∧ Lodged hb { k with machine := m } threads spare objs) ∨
      (ptr ≠ 0 ∧ Lodged hb { k with machine := m } threads spare (ptr ::ₘ objs)) := by
  obtain ⟨l, hmap, hl⟩ := h
  rcases hl.kmalloc hrun with ⟨h0, hl'⟩ | ⟨hne, hl'⟩
  · exact .inl ⟨h0, l, hmap, hl'⟩
  · exact .inr ⟨hne, l, hmap, by rwa [cons_add]⟩

theorem Lodged.kfree (h : Lodged hb k threads spare (ptr ::ₘ objs)) :
    Lodged hb { k with machine := MiniCore.kfree ptr k.machine } threads spare objs := by
  obtain ⟨l, hmap, hl⟩ := h
  rw [cons_add] at hl
  exact ⟨l, hmap, hl.kfree⟩

/-- A space joins those of the processes, if it was made. -/
theorem Lodged.join {l : List (AddressSpace × Radix)}
    (hmap : l.map Prod.fst = k.processes.map ProcessRecord.space ++ [])
    (hj : Housing.Joins hb (k.stackBag threads) (objs + k.recordBag threads) m l ok as) :
    (ok = false ∧ Lodged hb { k with machine := m } threads [] objs) ∨
      (ok = true ∧ as.root ≠ 0 ∧ Lodged hb { k with machine := m } threads [as] objs) := by
  rcases hj with ⟨rfl, hl⟩ | ⟨rfl, hroot, t, hl⟩
  · exact .inl ⟨rfl, l, hmap, hl⟩
  · exact .inr ⟨rfl, hroot, l ++ [(as, t)], by simp [hmap], hl⟩

/-- Destroying a space that is not active. -/
theorem Wired.destroy (h : Wired kernelRoot k threads)
    (hne : as.root ≠ 0 → k.scheduler.satp ≠ as.root) :
    Wired kernelRoot (k.destroySpace as).2 threads where
  current_mem := h.current_mem
  home := h.home
  apart := h.apart
  active := h.active
  safe d hd hd0 := by
    rcases List.mem_cons.mp hd with rfl | hd
    · exact hne hd0
    · exact h.safe d hd hd0

theorem Placed.kfree (h : Placed hb k threads spare (ptr ::ₘ objs)) :
    Placed hb { k with machine := MiniCore.kfree ptr k.machine } threads spare objs :=
  ⟨h.wired.machine _, h.lodged.kfree⟩

theorem Placed.destroySpare (h : Placed hb k threads [as] objs) :
    Placed hb (k.destroySpace as).2 threads [] objs := by
  have hw := h.wired
  obtain ⟨l, hmap, hl⟩ := h.lodged
  obtain ⟨l, last, rfl, hfirst, hlast⟩ := List.map_eq_append_iff.mp hmap
  obtain ⟨⟨as', t⟩, rfl, rfl⟩ := List.map_eq_singleton_iff.mp hlast
  have hlen : l.length = k.processes.length := by simpa using congrArg length hfirst
  have hi : (l ++ [(as', t)])[l.length]? = some (as', t) := by simp
  refine ⟨hw.destroy fun hroot => ?_, l, hfirst.trans (append_nil _).symm, hl.destroyLast⟩
  refine hw.satp_ne hl hmap hi ?_ hroot
  intro p hp
  obtain ⟨r, hr, -⟩ := hw.current hp
  have := (List.getElem?_eq_some_iff.mp hr).1
  omega

theorem Placed.destroyDead (h : Placed hb k threads spare objs) (hd : as.Dead) :
    Placed hb (k.destroySpace as).2 threads spare objs := by
  have hm : (addressSpaceDestroy as k.machine).2 = k.machine := by
    simp [addressSpaceDestroy, hd.root, hd.pages, hd.areas, vmDestroyUser, freePages, freeAreas]
  obtain ⟨l, hmap, hl⟩ := h.lodged
  refine ⟨h.wired.destroy fun hroot => absurd hd.root hroot, l, hmap, ?_⟩
  rw [destroySpace_snd, hm]
  exact hl

/-- `process_create`: a record and an empty address space, or nothing. -/
theorem Placed.processCreate (h : Placed hb k threads [] 0) {made : Option (Nat × AddressSpace)}
    (hrun : k.processCreate kernelRoot = (made, k')) :
    k'.scheduler = k.scheduler ∧ k'.processes = k.processes ∧
      (made = none ∧ Placed hb k' threads [] 0 ∨
        ∃ process as, made = some (process, as) ∧ Placed hb k' threads [as] {process}) := by
  have hw := h.wired
  unfold Kernel.processCreate at hrun
  rcases hk : MiniCore.kmalloc processSize k.machine with ⟨ptr, m⟩
  rw [hk] at hrun
  rcases h.lodged.kmalloc hk with ⟨rfl, hl'⟩ | ⟨hne, hl'⟩
  · cases hrun
    exact ⟨rfl, rfl, .inl ⟨rfl, hw.machine _, hl'⟩⟩
  rcases hi : addressSpaceInit kernelRoot m with ⟨ok, as, m'⟩
  cases ptr with
  | zero => exact absurd rfl hne
  | succ n =>
    simp only [hi] at hrun
    obtain ⟨l, hmap, hhouse⟩ := hl'
    rcases Lodged.join hmap (hhouse.init hi) with ⟨rfl, hl''⟩ | ⟨rfl, -, hl''⟩
    · cases hrun
      exact ⟨rfl, rfl, .inl ⟨rfl, hw.machine _, hl''.kfree⟩⟩
    · cases hrun
      exact ⟨rfl, rfl, .inr ⟨_, _, rfl, hw.machine _, hl''⟩⟩

end Basics

/-! ## Whole calls -/

/-- The invariant of all runs; `a` has the sequences of the scheduler.  Between
calls nothing is `spare`. -/
structure Ok (hb : Boot kernelRoot kernel held m₀) (k : Kernel) (a : RunQueues)
    (spare : List AddressSpace) (objs : Multiset Nat) : Prop
    extends Placed hb k a.all spare objs where
  rep : Represents k.scheduler a
  inv : a.Inv False true none
  idle : a.idleThread = 1
  bootstrap : 0 ∈ a.all ∧ (a.threads 0).state ≠ .dead

section Calls

variable {hb : Boot kernelRoot kernel held m₀} {spare' : List AddressSpace} {objs' : Multiset Nat}

variable {process : Option Nat}

section

variable (h : Ok hb k a spare objs)

include h

/-- A call that leaves the scheduler alone. -/
theorem Ok.keep (hs : k'.scheduler = k.scheduler) (hp : Placed hb k' a.all spare' objs') :
    Ok hb k' a spare' objs' :=
  ⟨hp, hs ▸ h.rep, h.inv, h.idle, h.bootstrap⟩

theorem Ok.machine {m : Machine} (hl : Lodged hb { k with machine := m } a.all spare' objs') :
    Ok hb { k with machine := m } a spare' objs' :=
  h.keep rfl ⟨h.wired.machine m, hl⟩

theorem Ok.two_le : 2 ≤ a.created := by
  have hlt := h.inv.shape.lt _ h.inv.shape.idle_mem
  rw [h.idle] at hlt
  exact hlt

/-- The new thread, and the others. -/
theorem Ok.made (hs : k'.scheduler = (k.scheduler.createThread process false (.stack page)).2) :
    (∀ t ∈ a.all, k'.scheduler.threads t = k.scheduler.threads t) ∧
      (k'.scheduler.threads a.created).process = process ∧
      (k'.scheduler.threads a.created).stackPage = page := by
  have hcreated : k.scheduler.created = a.created := by rw [h.rep.core]
  rw [hs]
  refine ⟨fun t ht => ?_, ?_⟩
  · simp [Scheduler.createThread, Core.newThread, hcreated, Nat.ne_of_lt (h.inv.shape.lt t ht)]
  · simp [Scheduler.createThread, Core.newThread, hcreated]

theorem Ok.bags (k' : Kernel)
    (hs : k'.scheduler = (k.scheduler.createThread process false (.stack page)).2)
    (ht : k'.threadRecord = Function.update k.threadRecord k.scheduler.created ptr)
    (hp : k'.processes = k.processes) :
    k'.stackBag (a.all ++ [a.created]) = page ::ₘ k.stackBag a.all ∧
      k'.recordBag (a.all ++ [a.created]) = ptr ::ₘ k.recordBag a.all := by
  obtain ⟨hthread, -, hnew⟩ := h.made hs
  have hold : ∀ t ∈ a.all.filter (2 ≤ ·), t ≠ a.created := fun t ht =>
    Nat.ne_of_lt (h.inv.shape.lt t (List.mem_of_mem_filter ht))
  have hfilter : (a.all ++ [a.created]).filter (2 ≤ ·) = a.all.filter (2 ≤ ·) ++ [a.created] := by
    simp [h.two_le]
  constructor
  · rw [stackBag, stackBag, hfilter, map_append, List.map_singleton, hnew, ← coe_add,
      map_congr_left fun t ht => by rw [hthread t (List.mem_of_mem_filter ht)]]
    exact Multiset.add_comm _ _
  rw [recordBag, recordBag, hfilter, hp, map_append, List.map_singleton, ← coe_add,
    ht, show k.scheduler.created = a.created by rw [h.rep.core], Function.update_self,
    map_congr_left fun t ht => Function.update_of_ne (hold t ht) ptr k.threadRecord,
    add_comm (ofList _) (ofList [ptr]), add_assoc]
  rfl

/-- `create_thread` changes nothing, or gives the next thread a stack and a
record. -/
theorem Ok.createThread {ok : Bool} (hrun : k.createThread process = (ok, k')) :
    k'.processes = k.processes ∧ k'.destroyed = k.destroyed ∧
      (ok = false ∧ k'.scheduler = k.scheduler ∧ Lodged hb k' a.all spare objs ∨
        ok = true ∧
        (∃ page, k'.scheduler = (k.scheduler.createThread process false (.stack page)).2) ∧
          Lodged hb k' (a.all ++ [a.created]) spare objs) := by
  unfold Kernel.createThread at hrun
  rcases hk : MiniCore.kmalloc threadSize k.machine with ⟨ptr, m⟩
  rw [hk] at hrun
  rcases h.lodged.kmalloc hk with ⟨rfl, hl'⟩ | ⟨hne, hl'⟩
  · cases hrun
    exact ⟨rfl, rfl, .inl ⟨rfl, rfl, hl'⟩⟩
  rcases hp : MiniCore.pageAlloc m with ⟨page, m'⟩
  obtain ⟨l, hmap, hhouse⟩ := hl'
  cases ptr with
  | zero => exact absurd rfl hne
  | succ n =>
    simp only [hp] at hrun
    rcases hhouse.pageAlloc hp with ⟨rfl, hhouse'⟩ | ⟨hpage, hhouse'⟩
    · cases hrun
      have hl'' : Lodged hb { k with machine := m' } a.all spare ((n + 1) ::ₘ objs) :=
        ⟨l, hmap, hhouse'⟩
      exact ⟨rfl, rfl, .inl ⟨rfl, rfl, hl''.kfree⟩⟩
    cases page with
    | zero => exact absurd rfl hpage
    | succ q =>
      cases hrun
      obtain ⟨hstack, hrecord⟩ := h.bags { k with
        machine := m'
        scheduler := (k.scheduler.createThread process false (.stack (q + 1))).2
        threadRecord := Function.update k.threadRecord k.scheduler.created (n + 1) }
        rfl rfl rfl
      refine ⟨rfl, rfl, .inr ⟨rfl, ⟨q + 1, rfl⟩, l, hmap, ?_⟩⟩
      rw [hstack, hrecord, add_cons, ← cons_add]
      exact hhouse'

/-- The scheduler with one more thread. -/
theorem Ok.threadMade (hs : k'.scheduler = (k.scheduler.createThread process false (.stack page)).2)
    (hp : Placed hb k' (a.all ++ [a.created]) spare' objs') :
    Ok hb k' (a.create process (.stack page)) spare' objs' where
  toPlaced := hp
  rep := hs ▸ h.rep.create h.inv.shape process (.stack page)
  inv := h.inv.create process (.stack page)
  idle := by simp [RunQueues.create, Core.newThread, h.idle]
  bootstrap := by
    have hne : (0 : Nat) ≠ a.created := by
      have := h.two_le
      omega
    exact ⟨mem_append_left _ h.bootstrap.1,
      by simpa [RunQueues.create, Core.newThread, hne] using h.bootstrap.2⟩

theorem Ok.wiredMade (hs : k'.scheduler = (k.scheduler.createThread process false (.stack page)).2)
    (hd : k'.destroyed = k.destroyed)
    (hproc : ∀ (p : Nat) r, k.processes[p]? = some r → k'.processes[p]? = some r)
    (hnew : ∀ p, process = some p → k.processes.length ≤ p ∧ ∃ r, k'.processes[p]? = some r ∧
      r.space.root ≠ 0) : Wired kernelRoot k' (a.all ++ [a.created]) := by
  obtain ⟨hthread, hmade, -⟩ := h.made hs
  have hcur : k'.scheduler.current = k.scheduler.current := by rw [hs]; rfl
  have hcall : k'.currentProcess = k.currentProcess := by
    rw [currentProcess, currentProcess, hcur, hthread _ h.wired.current_mem]
  have hmem : ∀ t ∈ a.all ++ [a.created], t ∈ a.all ∨ t = a.created := by simp
  -- a process that has a thread already is older than the new one
  have hold : ∀ t ∈ a.all, ∀ p, (k'.scheduler.threads t).process = some p → process ≠ some p := by
    intro t ht p htp hp
    rw [hthread t ht] at htp
    obtain ⟨r, hr, -⟩ := h.wired.home t ht p htp
    have hlt := (List.getElem?_eq_some_iff.mp hr).1
    have hle := (hnew p hp).1
    omega
  refine ⟨?_, ?_, ?_, ?_, hd ▸ h.wired.safe⟩
  · rw [hcur]
    exact mem_append_left _ h.wired.current_mem
  · intro t ht p hp
    rcases hmem t ht with ht | rfl
    · rw [hthread t ht] at hp
      obtain ⟨r, hr, hroot⟩ := h.wired.home t ht p hp
      exact ⟨r, hproc p r hr, hroot⟩
    · exact (hnew p (hmade ▸ hp)).2
  · intro t ht u hu p hpt hpu
    rcases hmem t ht with ht | rfl <;> rcases hmem u hu with hu | rfl
    · rw [hthread t ht] at hpt
      rw [hthread u hu] at hpu
      exact h.wired.apart t ht u hu p hpt hpu
    · exact absurd (hmade ▸ hpu) (hold t ht p hpt)
    · exact absurd (hmade ▸ hpt) (hold u hu p hpu)
    · rfl
  · have hsatp : k'.scheduler.satp = k.scheduler.satp := by rw [hs]; rfl
    rw [hcall, hsatp]
    cases hp : k.currentProcess with
    | none =>
      rw [h.wired.active, hp]
      rfl
    | some p =>
      obtain ⟨r, hr, -, heq⟩ := h.wired.current hp
      rw [heq, roots_some (hproc p r hr)]

theorem Ok.threadCreate : ∃ a', Ok hb (k.createThread none).2 a' spare objs := by
  rcases hrun : k.createThread none with ⟨ok, k'⟩
  obtain ⟨hp, hd, hcase⟩ := h.createThread hrun
  rcases hcase with ⟨-, hs, hl⟩ | ⟨-, ⟨page, hs⟩, hl⟩
  · exact ⟨a, h.keep hs ⟨h.wired.congr hs hp hd, hl⟩⟩
  · exact ⟨_, h.threadMade hs ⟨h.wiredMade hs hd (fun p r hr => hp ▸ hr) (by simp), hl⟩⟩

end

/-- A process with its address space and its record gets a thread, or goes. -/
theorem Ok.publish (h : Ok hb k a [as] {ptr}) (hroot : as.root ≠ 0) :
    ∃ a', Ok hb (k.publish ptr as) a' [] 0 := by
  rcases hrun : k.createThread (some k.processes.length) with ⟨ok, k'⟩
  obtain ⟨hp, hd, hcase⟩ := h.createThread hrun
  rw [Kernel.publish, hrun]
  rcases hcase with ⟨rfl, hs, hl'⟩ | ⟨rfl, ⟨page, hs⟩, hl'⟩
  · have hp' : Placed hb k' a.all [as] (ptr ::ₘ 0) := ⟨h.wired.congr hs hp hd, hl'⟩
    exact ⟨a, h.keep hs hp'.destroySpare.kfree⟩
  dsimp only
  refine ⟨_, h.threadMade hs ⟨h.wiredMade hs hd ?_ ?_, ?_⟩⟩
  · intro p r hr
    have hlt := (List.getElem?_eq_some_iff.mp hr).1
    rw [hp, getElem?_append_left hlt, hr]
  · rintro p ⟨⟩
    exact ⟨Nat.le.refl, ⟨some ptr, as, false⟩, by simp [hp], hroot⟩
  obtain ⟨l, hmap, hhouse⟩ := hl'
  refine ⟨l, by simpa using hmap, ?_⟩
  have hrecord : ({ptr} : Multiset Nat) + k'.recordBag (a.all ++ [a.created]) =
      0 + Kernel.recordBag { k' with processes := k'.processes ++ [⟨some ptr, as, false⟩] }
        (a.all ++ [a.created]) := by
    rw [zero_add, recordBag, recordBag, filterMap_append, ← coe_add]
    exact (Multiset.add_comm _ _).trans (Multiset.add_assoc _ _ _)
  rw [← hrecord]
  exact hhouse

/-- `process_create` and the destruction of the empty space it made, as at the
beginning of `process_fork` and `start_init`. -/
theorem Ok.makeRecord (h : Ok hb k a [] 0) {made : Option (Nat × AddressSpace)}
    (hrun : k.processCreate kernelRoot = (made, k')) : (made = none ∧ Ok hb k' a [] 0) ∨
      ∃ process as, made = some (process, as) ∧
        (k'.destroySpace as).2.processes = k.processes ∧
        (k'.destroySpace as).1.Dead ∧ Ok hb (k'.destroySpace as).2 a [] {process} := by
  obtain ⟨hs, hp, ⟨rfl, h'⟩ | ⟨process, as, rfl, h'⟩⟩ := h.processCreate hrun
  · exact .inl ⟨rfl, h.keep hs h'⟩
  · exact .inr ⟨process, as, rfl, hp, ⟨rfl, rfl, rfl⟩, h.keep hs h'.destroySpare⟩

theorem Ok.unmake (h : Ok hb k a [] {ptr}) (hd : as.Dead) :
    Ok hb (k.processDestroy ptr { as with root := 0, pages := [] }) a [] 0 := by
  have hd' : AddressSpace.Dead { as with root := 0, pages := [] } := ⟨rfl, rfl, hd.areas⟩
  exact h.keep rfl (h.destroyDead hd').kfree

theorem Ok.fork (h : Ok hb k a [] 0) (hr : k.processes[p]? = some r) (hroot : r.space.root ≠ 0) :
    ∃ a', Ok hb (k.processFork kernelRoot r.space) a' [] 0 := by
  rcases hrun : k.processCreate kernelRoot with ⟨made, k'⟩
  rw [processFork, hrun]
  rcases h.makeRecord hrun with ⟨rfl, hok⟩ | ⟨process, as, rfl, hp, hdead, hok⟩
  · exact ⟨a, hok⟩
  dsimp only
  generalize k'.destroySpace as = begun at *
  obtain ⟨dead, k1⟩ := begun
  rcases hclone : addressSpaceClone r.space kernelRoot k1.machine with ⟨ok, copy, m⟩
  dsimp only
  obtain ⟨l, hmap, hhouse⟩ := hok.lodged
  obtain ⟨t, hx⟩ := Lodged.space hmap (hp ▸ hr)
  rcases Lodged.join hmap (hhouse.clone hx hroot hclone) with ⟨rfl, hl⟩ | ⟨rfl, hcopy, hl⟩
  · exact ⟨a, (hok.machine hl).unmake hdead⟩
  · exact (hok.machine hl).publish hcopy

theorem Ok.startInit (h : Ok hb k a [] 0) (file : Option File) (arguments : ExecArguments)
    (stdio : Bool) : ∃ a', Ok hb (k.startInit kernelRoot file arguments stdio) a' [] 0 := by
  rcases hrun : k.processCreate kernelRoot with ⟨made, k'⟩
  rw [Kernel.startInit, hrun]
  rcases h.makeRecord hrun with ⟨rfl, hok⟩ | ⟨process, as, rfl, -, hdead, hok⟩
  · exact ⟨a, hok⟩
  dsimp only
  generalize k'.destroySpace as = begun at *
  obtain ⟨dead, k1⟩ := begun
  rcases hload : MiniCore.elfLoad kernelRoot file arguments k1.machine with ⟨ok, image, m⟩
  dsimp only
  obtain ⟨l, hmap, hhouse⟩ := hok.lodged
  rcases Lodged.join hmap (hhouse.elfLoad hload) with ⟨rfl, hl⟩ | ⟨rfl, hroot, hl⟩
  · exact ⟨a, (hok.machine hl).unmake hdead⟩
  have hmade := hok.machine hl
  dsimp only
  split
  · exact hmade.publish hroot
  · exact ⟨a, hmade.keep rfl hmade.destroySpare.kfree⟩

/-! ### Calls of one process -/

theorem caller_eq_some :
    k.caller = some (p, r) ↔ k.currentProcess = some p ∧ k.processes[p]? = some r := by
  simp only [caller, Option.bind_eq_some_iff, Option.map_eq_some_iff, Prod.mk.injEq]
  grind

/-- The current process changes its address space for another with a table. -/
theorem Wired.setSpace {threads : List Nat} (record : Option Nat) (h : Wired kernelRoot k threads)
    (hr : k.processes[p]? = some r) (hroot : as.root ≠ 0)
    (hs : k'.scheduler.toCore = { k.scheduler.toCore with satp := k'.scheduler.satp })
    (hp : k'.processes = k.processes.set p ⟨record, as, r.reapable⟩)
    (hd : k'.destroyed = k.destroyed)
    (hsatp : k'.scheduler.satp = if k.currentProcess = some p then as.root else k.scheduler.satp) :
    Wired kernelRoot k' threads := by
  have hlt := (List.getElem?_eq_some_iff.mp hr).1
  refine h.change (by rw [hs]) (by rw [hs]) hd (fun t _ q r' hq hr' hroot' => ?_) fun hnone => by
    rw [hsatp, hnone, if_neg (by simp)]
  by_cases hpq : p = q
  · subst hpq
    refine ⟨_, by rw [hp, getElem?_set_self hlt], hroot, fun heq _ => ?_⟩
    rw [hsatp, currentProcess, ← heq, if_pos hq]
  · refine ⟨r', by rw [hp, getElem?_set_ne hpq, hr'], hroot', fun heq hactive => ?_⟩
    rw [hsatp, currentProcess, ← heq, hq, if_neg (by simpa using Ne.symm hpq), hactive]

theorem map_set_same {α : Type} {f : ProcessRecord → α} {processes : List ProcessRecord}
    {x : ProcessRecord} (hr : processes[p]? = some r) (hx : f x = f r) :
    (processes.set p x).map f = processes.map f := by
  obtain ⟨hlt, rfl⟩ := List.getElem?_eq_some_iff.mp hr
  rw [map_set, hx, ← map_set, set_getElem_self]

/-- The record stays while the space changes. -/
theorem filterMap_record_set {processes : List ProcessRecord} (hr : processes[p]? = some r)
    (as : AddressSpace) (reapable : Bool) :
    (processes.set p ⟨r.record, as, reapable⟩).filterMap ProcessRecord.record =
      processes.filterMap ProcessRecord.record := by
  have hmap : ∀ l : List ProcessRecord,
      l.filterMap ProcessRecord.record = (l.map ProcessRecord.record).filterMap id := by
    simp [List.filterMap_map]
  rw [hmap, hmap]
  exact congrArg _ (map_set_same hr rfl)

/-- A record is freed. -/
theorem filterMap_record_free {processes : List ProcessRecord} {ptr : Nat}
    (hr : processes[p]? = some r) (hptr : r.record = some ptr) (as : AddressSpace)
    (reapable : Bool) : (processes.filterMap ProcessRecord.record : Multiset Nat) =
      ptr ::ₘ ((processes.set p ⟨none, as, reapable⟩).filterMap ProcessRecord.record : List
      Nat) := by
  obtain ⟨hlt, rfl⟩ := List.getElem?_eq_some_iff.mp hr
  have hsplit : processes = processes.take p ++ processes[p] :: processes.drop (p + 1) := by simp
  rw [set_eq_take_append_cons_drop, if_pos hlt]
  conv_lhs => rw [hsplit]
  simp only [filterMap_append, List.filterMap_cons, hptr]
  rw [← coe_add, ← coe_add, ← cons_coe, add_cons]

section

variable (h : Ok hb k a [] 0)

include h

theorem Ok.memory (hc : k.caller = some (p, r)) (call : MemCall) : Ok hb { k with
      machine := (call.run r.space k.machine).2.2
      processes := k.processes.set p { r with space := (call.run r.space k.machine).2.1 } }
      a [] 0 := by
  obtain ⟨hp, hr⟩ := caller_eq_some.mp hc
  obtain ⟨r', hr', hroot, hsatp⟩ := h.wired.current hp
  obtain rfl : r = r' := by simpa [hr] using hr'
  obtain ⟨l, hmap, hl⟩ := h.lodged
  obtain ⟨t, hx⟩ := Lodged.space hmap hr
  have hkeep : (call.run r.space k.machine).2.1.root = r.space.root :=
    call.run_root (hl.sound.focus hx) (hl.sound.space _ (List.mem_of_getElem? hx)).laid
  obtain ⟨t', hl'⟩ := hl.update (preserves_memCall call) hx
  refine h.keep rfl ⟨?_, l.set p ((call.run r.space k.machine).2.1, t'), ?_, ?_⟩
  · refine h.wired.setSpace r.record hr (hkeep ▸ hroot) rfl rfl rfl ?_
    rw [if_pos hp, hkeep, ← hsatp]
  · rw [append_nil] at hmap ⊢
    rw [map_set, map_set, hmap]
  · rw [recordBag, filterMap_record_set hr]
    exact hl'

theorem Ok.exec (hc : k.caller = some (p, r)) (file : Option File) (arguments : ExecArguments) :
    ∃ a', Ok hb (k.processExec kernelRoot p r file arguments) a' [] 0 := by
  obtain ⟨hp, hr⟩ := caller_eq_some.mp hc
  rcases hload : MiniCore.elfLoad kernelRoot file arguments k.machine with ⟨ok, image, m⟩
  rw [processExec, hload]
  obtain ⟨l, hmap, hhouse⟩ := h.lodged
  rcases Lodged.join hmap (hhouse.elfLoad hload) with ⟨rfl, hl⟩ | ⟨rfl, hroot, hl⟩
  · exact ⟨a, h.machine hl⟩
  obtain ⟨l, hmap, hl⟩ := hl
  obtain ⟨l, last, rfl, hfirst, hlast⟩ := List.map_eq_append_iff.mp hmap
  obtain ⟨⟨new, u⟩, rfl, rfl⟩ := List.map_eq_singleton_iff.mp hlast
  have hfirst' : l.map Prod.fst = k.processes.map ProcessRecord.space ++ [] :=
    hfirst.trans (append_nil _).symm
  obtain ⟨t, hx⟩ := Lodged.space hfirst' hr
  -- the new image is in place and active, the old one is still there
  let k1 : Kernel := { k with
    machine := m
    processes := k.processes.set p { r with space := image.as }
    scheduler := { k.scheduler with satp := image.as.root } }
  have hw : Wired kernelRoot k1 a.all :=
    h.wired.setSpace r.record hr hroot rfl rfl rfl (by rw [if_pos hp])
  have hl' : Lodged hb k1 a.all [r.space] 0 := by
    refine ⟨l.set p (image.as, u) ++ [(r.space, t)], ?_, ?_⟩
    · rw [map_append, map_set, hfirst, map_set]
      rfl
    · rw [recordBag, filterMap_record_set hr]
      exact hl.swap hx
  have hcore := congrArg (fun c : Core => { c with satp := image.as.root }) h.rep.core
  exact ⟨{ a with satp := image.as.root }, Placed.destroySpare ⟨hw, hl'⟩,
    ⟨hcore, h.rep.all, h.rep.waiting⟩, h.inv.activate _, h.idle, h.bootstrap⟩

/-! ### Calls into the scheduler -/

/-- A steady call of the scheduler, after which bootstrap is not dead. -/
theorem Ok.steady {s' : Scheduler} {act : Scheduler.Action}
    (hact : act.plain = true ∨ act = .exit ∧ k.scheduler.current ≠ 0)
    (hs : k.scheduler.step (k.roots kernelRoot) act = some s') :
    ∃ a', Ok hb { k with scheduler := s' } a' [] 0 := by
  obtain ⟨a', hstep, hrep', hinv'⟩ := h.rep.step h.inv False.elim hs
  obtain ⟨-, rfl⟩ := RunQueues.step_eq_some.mp hstep
  have hcore := h.rep.core
  have hcore' := hrep'.core
  obtain ⟨hall, hsteady⟩ := RunQueues.steady_perform (a := a) (k.roots kernelRoot)
    (hact.imp_right And.left)
  rw [← hcore, ← hcore'] at hsteady
  have hcur' : s'.current ∈ a.all := by
    rw [← hall, hcore']
    exact hinv'.shape.current_mem
  refine ⟨_, ?_, hrep', hinv', ?_, hall ▸ h.bootstrap.1, ?_⟩
  · rw [hall]
    exact ⟨h.wired.steady hsteady hcur', h.lodged.steady hsteady⟩
  · rw [← hcore', hsteady.idleThread, hcore]
    exact h.idle
  · intro hdead
    rw [← hcore'] at hdead
    rcases hsteady.dead 0 hdead with hd | hgone
    · exact h.bootstrap.2 (hcore ▸ hd)
    rcases hact with hplain | ⟨rfl, hcur⟩
    · simp [hplain] at hgone
    · simp [Scheduler.Action.plain, hcur] at hgone

/-- The record of a reaped process goes. -/
theorem Ok.collect {process : Nat} (hp : k.processes[p]? = some ⟨some process, as, true⟩) :
    Ok hb { k with
      machine := kfree process k.machine
      processes := k.processes.set p ⟨none, as, true⟩ } a [] 0 := by
  have hspace := map_set_same (f := ProcessRecord.space) (x := ⟨none, as, true⟩) hp rfl
  have hget : ∀ q : Nat, ((k.processes.set p ⟨none, as, true⟩)[q]?).map ProcessRecord.space =
      (k.processes[q]?).map ProcessRecord.space := by
    intro q
    rw [← getElem?_map, hspace, getElem?_map]
  obtain ⟨l, hmap, hl⟩ := h.lodged
  have hbag : k.recordBag a.all = process ::ₘ Kernel.recordBag { k with
      processes := k.processes.set p ⟨none, as, true⟩ } a.all := by
    rw [recordBag, recordBag, filterMap_record_free hp rfl, add_cons]
  rw [hbag, add_cons] at hl
  exact h.keep rfl ⟨h.wired.sameSpaces rfl hget rfl, l,
    by rw [hmap]; exact congrArg (· ++ []) hspace.symm, hl.kfree⟩

end

/-! ### The reaper -/

variable (orphan : Nat → Bool)

/-- `process_thread_reaped`, for a process whose thread is off the list. -/
theorem Placed.threadReaped (h : Placed hb k threads [] objs) (hr : k.processes[p]? = some r)
    (hfree : ∀ t ∈ threads, (k.scheduler.threads t).process ≠ some p) :
    Placed hb (k.processThreadReaped orphan p) threads [] objs ∧
      (k.processThreadReaped orphan p).scheduler = k.scheduler ∧
      (k.processThreadReaped orphan p).threadRecord = k.threadRecord := by
  have hw := h.wired
  obtain ⟨l, hmap, hl⟩ := h.lodged
  obtain ⟨t, hx⟩ := Lodged.space hmap hr
  obtain ⟨t', hl'⟩ := hl.update preserves_destroy hx
  have hcall : ∀ q, k.currentProcess = some q → q ≠ p :=
    fun q hq heq => hfree _ hw.current_mem (heq ▸ hq)
  have hw' : Wired kernelRoot (k.destroySpace r.space).2 threads :=
    hw.destroy (hw.satp_ne hl hmap hx hcall)
  have hmap' : ∀ record, (l.set p ((addressSpaceDestroy r.space k.machine).1, t')).map Prod.fst =
      (k.processes.set p ⟨record, (k.destroySpace r.space).1, true⟩).map ProcessRecord.space ++
        [] := by
    intro record
    rw [append_nil] at hmap ⊢
    rw [map_set, map_set, hmap]
    rfl
  rw [processThreadReaped, hr]
  dsimp only
  split
  next process _ hrecord =>
    refine ⟨⟨hw'.setOther hfree rfl rfl rfl, _, hmap' none, ?_⟩, rfl, rfl⟩
    have hbag : k.recordBag threads = process ::ₘ Kernel.recordBag { k with
        processes := k.processes.set p ⟨none, (k.destroySpace r.space).1, true⟩ } threads := by
      rw [recordBag, recordBag, filterMap_record_free hr hrecord, add_cons]
    rw [hbag, add_cons] at hl'
    exact hl'.kfree
  next =>
  refine ⟨⟨hw'.setOther hfree rfl rfl rfl, _, hmap' r.record, ?_⟩, rfl, rfl⟩
  have hbag : Kernel.recordBag { k with
      processes := k.processes.set p ⟨r.record, (k.destroySpace r.space).1, true⟩ } threads =
      k.recordBag threads := by
    rw [recordBag, recordBag, filterMap_record_set hr]
  rw [← hbag] at hl'
  exact hl'

/-- The calls for one dead thread. -/
theorem Placed.freeThread {t : Nat} (h : Placed hb k (t :: threads) [] 0) (ht : 2 ≤ t)
    (hout : t ∉ threads) (hcur : k.scheduler.current ∈ threads) :
    Placed hb ((k.scheduler.toCore.calls t).foldl (handle orphan) k) threads [] 0 ∧
      ((k.scheduler.toCore.calls t).foldl (handle orphan) k).scheduler = k.scheduler := by
  have hw := h.wired
  -- the stack goes first, the record of the thread is still there
  have h1 : Placed hb { k with machine := pageFree (k.scheduler.threads t).stackPage k.machine }
      threads [] (k.threadRecord t ::ₘ 0) := by
    refine ⟨(hw.mono (fun u hu => List.mem_cons_of_mem t hu) hcur).machine _, ?_⟩
    obtain ⟨l, hmap, hl⟩ := h.lodged
    have hstack : k.stackBag (t :: threads) = (k.scheduler.threads t).stackPage ::ₘ k.stackBag
        threads := by
      simp [stackBag, ht]
    have hrecord : 0 + k.recordBag (t :: threads) = {k.threadRecord t} + k.recordBag threads := by
      simp [recordBag, ht]
    rw [hstack, hrecord] at hl
    exact ⟨l, hmap, hl.pageFree⟩
  cases hp : (k.scheduler.threads t).process with
  | none =>
    have hcalls : (k.scheduler.toCore.calls t).foldl (handle orphan) k =
        { k with machine := MiniCore.kfree (k.threadRecord t) <|
            pageFree (k.scheduler.threads t).stackPage k.machine } := by
      simp [Core.calls, hp, handle]
    rw [hcalls]
    exact ⟨h1.kfree, rfl⟩
  | some p =>
    obtain ⟨r, hr, -⟩ := hw.home t List.mem_cons_self p hp
    have hfree : ∀ u ∈ threads, (k.scheduler.threads u).process ≠ some p := by
      intro u hu hpu
      have := hw.apart t List.mem_cons_self u (List.mem_cons_of_mem t hu) p hp hpu
      exact hout (this ▸ hu)
    obtain ⟨h2, hs2, hrec2⟩ := h1.threadReaped orphan hr hfree
    have hcalls : (k.scheduler.toCore.calls t).foldl (handle orphan) k =
        handle orphan (processThreadReaped orphan p
          { k with machine := pageFree (k.scheduler.threads t).stackPage k.machine })
          (.recordFreed t) := by
      simp [Core.calls, hp, handle]
    rw [← congrFun hrec2 t] at h2
    rw [hcalls, handle]
    exact ⟨h2.kfree, hs2⟩

/-- The calls for all dead threads. -/
theorem Placed.freeThreads {ts : List Nat} (h : Placed hb k (ts ++ threads) [] 0)
    (hts : ∀ t ∈ ts, 2 ≤ t) (hnodup : (ts ++ threads).Nodup)
    (hcur : k.scheduler.current ∈ threads) :
    Placed hb ((ts.flatMap k.scheduler.toCore.calls).foldl (handle orphan) k) threads [] 0 ∧
      ((ts.flatMap k.scheduler.toCore.calls).foldl (handle orphan) k).scheduler = k.scheduler := by
  induction ts generalizing k with
  | nil => exact ⟨h, rfl⟩
  | cons t ts ih =>
    obtain ⟨hout, hnodup⟩ := List.nodup_cons.mp hnodup
    obtain ⟨h', hs'⟩ := h.freeThread orphan (hts t List.mem_cons_self) hout
      (mem_append_right ts hcur)
    rw [flatMap_cons, foldl_append]
    have hcur' : ((k.scheduler.toCore.calls t).foldl (handle orphan) k).scheduler.current ∈
        threads := by
      rw [hs']
      exact hcur
    have := ih h' (fun u hu => hts u (List.mem_cons_of_mem t hu)) hnodup hcur'
    rwa [hs'] at this

/-- Only calls into the kernel do something there. -/
theorem foldl_handle_filter (events : List SchedEvent) (k : Kernel) :
    (events.filter SchedEvent.isCall).foldl (handle orphan) k = events.foldl (handle orphan) k := by
  induction events generalizing k with
  | nil => rfl
  | cons e events ih => cases e <;> simp [List.filter_cons, SchedEvent.isCall, handle, ih]

theorem newEvents_append (new before : List SchedEvent) :
    newEvents before (new ++ before) = new.reverse := by
  simp [newEvents]

theorem Wired.perm {threads' : List Nat} (h : Wired kernelRoot k threads)
    (hp : threads.Perm threads') : Wired kernelRoot k threads' :=
  h.mono (fun _ ht => hp.mem_iff.mpr ht) (hp.mem_iff.mp h.current_mem)

theorem Lodged.perm {threads' : List Nat} (h : Lodged hb k threads spare objs)
    (hp : threads.Perm threads') : Lodged hb k threads' spare objs := by
  have hlong := hp.filter fun t => decide (2 ≤ t)
  have hstack : k.stackBag threads' = k.stackBag threads :=
    Multiset.coe_eq_coe.mpr (hlong.map _).symm
  have hrecord : k.recordBag threads' = k.recordBag threads :=
    congrArg (· + _) (Multiset.coe_eq_coe.mpr (hlong.map _).symm)
  rw [Lodged, hstack, hrecord]
  exact h

/-- The reaper takes the dead threads off the list, then frees what they and
their processes hold. -/
theorem Ok.reap {s' : Scheduler} {wakes : Nat → List Nat} (h : Ok hb k a [] 0)
    (hs : k.scheduler.step (k.roots kernelRoot) (.reap wakes) = some s') : ∃ a', Ok hb
    ((newEvents k.scheduler.log s'.log).foldl (handle orphan) { k with scheduler := s' })
      a' [] 0 := by
  obtain ⟨a', hstep, hrep', hinv'⟩ := h.rep.step h.inv False.elim hs
  obtain ⟨-, rfl⟩ := RunQueues.step_eq_some.mp hstep
  have hcore := h.rep.core
  have hcore' := hrep'.core
  have hkept := RunQueues.kept_reap (a := a) wakes
  have hcur : s'.current = k.scheduler.current := by
    rw [hcore', hcore]
    exact hkept.current
  obtain ⟨⟨new, hlog, hcalls⟩, hmem⟩ := RunQueues.reap_grew wakes h.inv
  -- the reapable threads go, the others stay
  have hstay : (a.all.filter fun t => !a.reapable t).Perm (a.reap wakes).all := by
    refine (perm_ext_iff_of_nodup (h.inv.shape.nodup.filter _) hinv'.shape.nodup).mpr fun t => ?_
    show _ ↔ t ∈ (a.reap wakes).all
    simp [hmem]
  have hsplit : a.all.Perm (a.all.filter a.reapable ++ (a.reap wakes).all) :=
    (filter_append_perm a.reapable a.all).symm.trans (hstay.append_left _)
  have hlong : ∀ t ∈ a.all.filter a.reapable, 2 ≤ t := by
    intro t ht
    obtain ⟨ht, hreap⟩ := List.mem_filter.mp ht
    simp only [Core.reapable, Bool.and_eq_true, decide_eq_true_eq, Bool.not_eq_true'] at hreap
    have hzero : t ≠ 0 := fun heq => h.bootstrap.2 (heq ▸ hreap.2)
    have hone : t ≠ 1 := by
      intro heq
      have hidle := (h.inv.threads t ht).idle_iff.mpr (heq.trans h.idle.symm)
      simp [hidle] at hreap
    omega
  have hevents : newEvents k.scheduler.log s'.log = new.reverse := by
    rw [hcore, hcore']
    exact hlog ▸ newEvents_append new _
  have hsteady' : Core.Steady (k.roots kernelRoot) none k.scheduler.toCore s'.toCore := by
    rw [hcore, hcore']
    exact hkept.steady
  have hsame : a.toCore.calls = s'.toCore.calls := by
    funext t
    rw [Core.calls, Core.calls, hsteady'.process, hsteady'.stackPage, hcore]
  obtain ⟨hp, hs⟩ := Placed.freeThreads orphan
    ⟨(h.wired.steady hsteady' (hcur ▸ h.wired.current_mem)).perm hsplit,
      (h.lodged.steady hsteady').perm hsplit⟩ hlong (hsplit.nodup_iff.mp h.inv.shape.nodup)
    (hcore' ▸ hinv'.shape.current_mem)
  rw [hevents, ← foldl_handle_filter, hcalls, hsame]
  refine ⟨a.reap wakes, hp, hs ▸ hrep', hinv', hkept.idleThread.trans h.idle, ?_, ?_⟩
  · rw [hmem]
    refine ⟨h.bootstrap.1, ?_⟩
    simp [Core.reapable, h.bootstrap.2]
  · intro hdead
    exact h.bootstrap.2 (hkept.dead 0 hdead)

theorem Ok.step {call : Call} (h : Ok hb k a [] 0) (hstep : k.step kernelRoot call = some k') :
    ∃ a', Ok hb k' a' [] 0 := by
  cases call with
  | schedule act =>
    by_cases hplain : act.plain = true
    · simp only [Kernel.step, hplain, if_true, Option.map_eq_some_iff] at hstep
      obtain ⟨s', hs, rfl⟩ := hstep
      exact h.steady (.inl hplain) hs
    · simp [Kernel.step, hplain] at hstep
  | threadCreate =>
    obtain rfl := Option.some.inj hstep
    exact h.threadCreate
  | startInit file arguments stdio =>
    obtain rfl := Option.some.inj hstep
    exact h.startInit file arguments stdio
  | fork =>
    obtain ⟨⟨p, r⟩, hc, rfl⟩ := Option.map_eq_some_iff.mp hstep
    obtain ⟨hp, hr⟩ := caller_eq_some.mp hc
    obtain ⟨r', hr', hroot, -⟩ := h.wired.current hp
    obtain rfl : r = r' := by simpa [hr] using hr'
    exact h.fork hr hroot
  | exec file arguments =>
    obtain ⟨⟨p, r⟩, hc, rfl⟩ := Option.map_eq_some_iff.mp hstep
    exact h.exec hc file arguments
  | memory call =>
    obtain ⟨⟨p, r⟩, hc, rfl⟩ := Option.map_eq_some_iff.mp hstep
    exact ⟨a, h.memory hc call⟩
  | exit =>
    by_cases hcur : k.scheduler.current = 0
    · simp [Kernel.step, hcur] at hstep
    simp only [Kernel.step, hcur, if_false, Option.map_eq_some_iff] at hstep
    obtain ⟨s', hs, rfl⟩ := hstep
    exact h.steady (.inr ⟨rfl, hcur⟩) hs
  | reap wakes orphan =>
    obtain ⟨s', hs, rfl⟩ := Option.map_eq_some_iff.mp hstep
    exact h.reap orphan hs
  | collect p =>
    simp only [Kernel.step] at hstep
    split at hstep
    next process as hp =>
      obtain rfl := Option.some.inj hstep
      exact ⟨a, h.collect hp⟩
    next => simp at hstep

end Calls

/-! ## Runs -/

theorem ok_boot (hb : Boot kernelRoot kernel held m₀) (idleStack : Nat) :
    Ok hb (boot kernelRoot idleStack m₀) (.start kernelRoot idleStack) [] 0 where
  rep := represents_start kernelRoot idleStack
  inv := RunQueues.inv_start kernelRoot idleStack False
  idle := rfl
  bootstrap := by
    simp [RunQueues.start, Scheduler.schedulerInit, Scheduler.createThread, Scheduler.bootstrapped,
      Core.newThread]
  wired := by
    have hnone : ∀ t ∈ [0, 1], ((boot kernelRoot idleStack m₀).scheduler.threads t).process =
        none := by
      simp [boot, Scheduler.schedulerInit, Scheduler.createThread, Scheduler.bootstrapped,
        Core.newThread]
    refine ⟨List.mem_cons_self, ?_, ?_, rfl, by simp [boot]⟩
    · intro t ht p hp
      simp [hnone t ht] at hp
    · intro t ht u hu p hp
      simp [hnone t ht] at hp
  lodged := by
    obtain ⟨l, hl, hs⟩ := hb.sound True
    have hstack : (boot kernelRoot idleStack m₀).stackBag [0, 1] = 0 := rfl
    have hrecord : (boot kernelRoot idleStack m₀).recordBag [0, 1] = 0 := rfl
    refine ⟨l, hl, ?_, Keeps.refl _ _⟩
    show Sound hb.pool _ True (_ + stackBag _ [0, 1]) (_ + (0 + recordBag _ [0, 1])) m₀ m₀ l
    rw [hstack, hrecord, add_zero, add_zero, add_zero]
    exact hs

section Tables

variable {mem : Memory} {root n : Nat}

theorem mem_tablePages_iff (hroot : root ≠ 0) : page ∈ tablePages mem root n ↔
    page = root ∨ ∃ i < n, isTable (entry mem root i) = true ∧
      page ∈ ptePhysical (entry mem root i) :: childTables mem
      (ptePhysical (entry mem root i)) 512 := by
  have hchild : ∀ table, table ∈ childTables mem root n ↔
      ∃ i < n, isTable (entry mem root i) = true ∧ table = ptePhysical (entry mem root i) := by
    simp only [childTables, List.mem_filterMap, List.mem_range]
    grind
  rw [tablePages, if_neg hroot, List.mem_cons, mem_flatMap]
  constructor
  · rintro (rfl | ⟨table, htable, hmem⟩)
    · exact .inl rfl
    · obtain ⟨i, hi, hlink, rfl⟩ := (hchild table).mp htable
      exact .inr ⟨i, hi, hlink, hmem⟩
  · rintro (rfl | ⟨i, hi, hlink, hmem⟩)
    · exact .inl rfl
    · exact .inr ⟨_, (hchild _).mpr ⟨i, hi, hlink, rfl⟩, hmem⟩

/-- A process table beyond its own half is the kernel's. -/
theorem tablePages_shared {kernelRoot : Nat} (hroot : root ≠ 0) (hk : kernelRoot ≠ 0)
    (hshared : ∀ i, 256 ≤ i → i < 512 → entry mem root i = entry mem kernelRoot i)
    (hpage : page ∈ tablePages mem root 512) :
    page ∈ tablePages mem root 256 ∨ page ∈ tablePages mem kernelRoot 512 := by
  rw [mem_tablePages_iff hroot] at hpage ⊢
  rw [mem_tablePages_iff hk]
  rcases hpage with rfl | ⟨i, hi, htable, hmem⟩
  · exact .inl (.inl rfl)
  by_cases hlow : i < 256
  · exact .inl (.inr ⟨i, hlow, htable, hmem⟩)
  · rw [hshared i (Nat.le_of_not_lt hlow) hi] at htable hmem
    exact .inr (.inr ⟨i, hi, htable, hmem⟩)

end Tables

section Live

variable {hb : Boot kernelRoot kernel held m₀} {l : List (AddressSpace × Radix)}
  {kstacks : Multiset Nat}

theorem kernel_table_live (h : Housing hb kstacks objs m l)
    (hpage : page ∈ tablePages m.mem kernelRoot 512) : page ∉ m.freeList := by
  have hrep : Rep m.mem kernel fun _ => 0 :=
    hb.table.congr fun p hp => h.keeps.bytes p (Multiset.mem_add.mpr (.inl hp))
  have heq := hrep.tablePages_eq fun p hp =>
    hb.isPage p (Multiset.mem_add.mpr (.inr (Multiset.mem_add.mpr (.inl hp))))
  rw [hb.width, hb.root_eq] at heq
  have hmem : page ∈ kernel.frames := heq ▸ Multiset.mem_coe.mpr hpage
  refine h.sound.stock.not_free (Multiset.mem_add.mpr (.inr ?_))
  exact Multiset.mem_add.mpr (.inl (Multiset.mem_add.mpr (.inl hmem)))

theorem process_table_live {i : Nat} {as : AddressSpace} {t : Radix}
    (h : Housing hb kstacks objs m l) (hi : l[i]? = some (as, t)) (hroot : as.root ≠ 0)
    (hpage : page ∈ tablePages m.mem as.root 512) : page ∉ m.freeList := by
  have hown := h.sound.focus hi
  have hshared : ∀ i, 256 ≤ i → i < 512 → entry m.mem as.root i = entry m.mem kernelRoot i := by
    intro i hle hlt
    have := hown.tabled.rep.shared_entry (hown.root_eq ▸ hroot) i (hown.width ▸ hle) hlt
    rw [hown.root_eq] at this
    rw [this, h.upper i hlt]
  rcases tablePages_shared hroot hb.root_ne hshared hpage with hmem | hmem
  · refine hown.tabled.stock.not_free (Multiset.mem_add.mpr (.inl ?_))
    exact (h.sound.mem_tablePages hi).mp hmem
  · exact kernel_table_live h hmem

/-- The active table is that of the current process, and all of it is in use. -/
structure TableLive (kernelRoot : Nat) (k : Kernel) : Prop where
  active : k.scheduler.satp = k.roots kernelRoot k.currentProcess
  ne_zero : k.scheduler.satp ≠ 0
  live : ∀ page ∈ tablePages k.machine.mem k.scheduler.satp 512, page ∉ k.machine.freeList
  /-- No address space was destroyed while its table was active. -/
  destroyed : ∀ active root, (active, root) ∈ k.destroyed → root ≠ 0 → active ≠ root

theorem Ok.tableLive (h : Ok hb k a [] 0) : TableLive kernelRoot k := by
  obtain ⟨l, hmap, hl⟩ := h.lodged
  have hsafe : ∀ active root, (active, root) ∈ k.destroyed → root ≠ 0 → active ≠ root :=
    fun active root hd => h.wired.safe (active, root) hd
  cases hp : k.currentProcess with
  | none =>
    have hsatp : k.scheduler.satp = kernelRoot := by rw [h.wired.active, hp, roots]
    refine ⟨h.wired.active, hsatp ▸ hb.root_ne, ?_, hsafe⟩
    rw [hsatp]
    exact fun page => kernel_table_live hl
  | some p =>
    obtain ⟨r, hr, hroot, hsatp⟩ := h.wired.current hp
    obtain ⟨t, hx⟩ := Lodged.space hmap hr
    refine ⟨h.wired.active, hsatp ▸ hroot, ?_, hsafe⟩
    rw [hsatp]
    exact fun page => process_table_live hl hx hroot

/-- **The active page table is live**: whatever switches, forks, execs, exits and
reaps a run consists of, and whichever allocations fail in it. -/
theorem active_table_live (hb : Boot kernelRoot kernel held m₀) {idleStack : Nat} {k : Kernel}
    (hr : Reach (step kernelRoot) Always (boot kernelRoot idleStack m₀) k) :
    TableLive kernelRoot k := by
  have hinv : ∃ a, Ok hb k a [] 0 := by
    refine hr.invariant (I := fun k => ∃ a, Ok hb k a [] 0) ⟨_, ok_boot hb idleStack⟩ ?_
    intro s call s' h _ hstep
    obtain ⟨a, h⟩ := h
    exact h.step hstep
  obtain ⟨a, hok⟩ := hinv
  exact hok.tableLive

/-- The first process forks; the child replaces its image, exits and is reaped. -/
def forkRun : List Call :=
  let file : Option File := some ⟨.regular, some tinyVnode, 0⟩
  let arguments : ExecArguments := ⟨[], [], by simp, by simp, by simp⟩
  [.startInit file arguments true, .schedule .yield, .fork, .schedule .yield, .exec file arguments,
    .exit, .reap (fun _ => []) fun _ => false]

theorem forkRun_table_live : ∃ k,
    runSteps (step 4096) (boot 4096 (4096 * 40) smallMachine) forkRun = some k ∧
      k.processes.map (fun r => (r.space.root, r.reapable)) = [(12288, false), (0, true)] ∧
      k.destroyed = [(4096, 102400), (102400, 61440), (12288, 61440), (4096, 12288)] ∧
      TableLive 4096 k := by
  have hfacts : (runSteps (step 4096) (boot 4096 (4096 * 40) smallMachine) forkRun).map
      (fun k => (k.processes.map (fun r => (r.space.root, r.reapable)), k.destroyed)) =
      some ([(12288, false), (0, true)],
        [(4096, 102400), (102400, 61440), (12288, 61440), (4096, 12288)]) := by decide +kernel
  obtain ⟨k, hk, hfacts⟩ := Option.map_eq_some_iff.mp hfacts
  obtain ⟨hprocesses, hdestroyed⟩ := Prod.mk.inj hfacts
  refine ⟨k, hk, hprocesses, hdestroyed, ?_⟩
  exact active_table_live smallMachine_boot (Reach.of_runSteps hk fun _ _ _ => trivial)

end Live

end Kernel

end MiniCore
