import MiniCore.Kernel.Elf
import MiniCore.Lib.Transition

/-!
# MiniCore.Kernel.Spaces

Any number of address spaces on one machine, and every sequence of operations on
them.

A `World` is the machine with all `struct address_space`s created so far, dead
ones included; `step` is one call.  Which allocations fail is part of the initial
machine, so a statement about every initial machine is a statement about every
failure pattern.  The proofs carry the table of each struct along: `Sound` says
that tables, ledgers, heap and free list share the pool of pages without
overlap, `Sound.focus` looks at one struct with everything else as its rest, and
`Sound.refocus` puts a changed struct back.
-/

namespace MiniCore

open Lib List

variable {P : PagePool} {shared : Nat → Nat} {strict : Prop} {kept objs : Multiset Nat}
  {m₀ m m' : Machine} {l : List (AddressSpace × Radix)} {i kernelRoot : Nat} {as : AddressSpace}
  {w : World}

/-! ## The transition system -/

structure World where
  machine : Machine
  spaces : List AddressSpace

/-- A call, with the index of the struct it is made on. -/
inductive Op where
  | init
  | addPage (i address flags : Nat) (data : Option (Memory → Nat → UInt8)) (size : Nat)
  | mmap (i address length prot mapflags : Nat) (file : Option File) (offset : Nat)
  | munmap (i start length : Nat)
  | brk (i requested : Nat)
  | copy (i : Nat) (buffer : Option (Nat → UInt8)) (address size : Nat) (toUser : Bool)
  | destroy (i : Nat)
  | clone (i : Nat)
  | move (source destination : Nat)
  | moveNew (source : Nat)
  | elfLoad (file : Option File) (arguments : ExecArguments)

/-- A page added behind the back of the reservations. -/
def Op.raw : Op → Bool
  | .addPage .. => true
  | _ => false

/-- A call that changes one struct. -/
def World.update (w : World) (i : Nat) (f : AddressSpace → Machine → AddressSpace × Machine) :
    Option World :=
  match w.spaces[i]? with
  | none => none
  | some as => some ⟨(f as w.machine).2, w.spaces.set i (f as w.machine).1⟩

/-- One call.  `clone` needs a source with a table; `move` needs a destination
that owns nothing (a destroyed or moved-from struct, or with `moveNew` a fresh
one), as at every call in the kernel.  A failed `elf_load` leaves no struct. -/
def step (kernelRoot : Nat) (w : World) : Op → Option World
  | .init =>
    let (_, as, m) := addressSpaceInit kernelRoot w.machine
    some ⟨m, w.spaces ++ [as]⟩
  | .addPage i address flags data size =>
    w.update i fun as m => (addressSpaceAddPage as address flags data size m).2
  | .mmap i address length prot mapflags file offset =>
    w.update i fun as m => (addressSpaceMmap as address length prot mapflags file offset m).2
  | .munmap i start length => w.update i fun as m => (addressSpaceMunmap as start length m).2
  | .brk i requested => w.update i fun as m => (addressSpaceBrk as requested m).2
  | .copy i buffer address size toUser =>
    w.update i fun as m => (as, (addressSpaceCopy as buffer address size toUser m).2.machine)
  | .destroy i => w.update i addressSpaceDestroy
  | .clone i =>
    match w.spaces[i]? with
    | none => none
    | some source =>
      if source.root = 0 then none
      else
        let (_, as, m) := addressSpaceClone source kernelRoot w.machine
        some ⟨m, w.spaces ++ [as]⟩
  | .move i j =>
    match w.spaces[i]?, w.spaces[j]? with
    | some source, some destination =>
      if i = j ∨ destination.root ≠ 0 ∨ destination.pages ≠ [] ∨ destination.areas ≠ [] then none
      else
        let (destination, source) := addressSpaceMove source
        some ⟨w.machine, (w.spaces.set j destination).set i source⟩
    | _, _ => none
  | .moveNew i =>
    match w.spaces[i]? with
    | none => none
    | some source =>
      let (destination, source) := addressSpaceMove source
      some ⟨w.machine, w.spaces.set i source ++ [destination]⟩
  | .elfLoad file arguments =>
    match elfLoad kernelRoot file arguments w.machine with
    | (true, image, m) => some ⟨m, w.spaces ++ [image.as]⟩
    | (false, _, m) => some ⟨m, w.spaces⟩

/-! ## Structs with their tables -/

/-- The pages of a struct: its tables and its user pages. -/
def share (x : AddressSpace × Radix) : Multiset Nat := x.2.frames + x.1.physicals

def shares (l : List (AddressSpace × Radix)) : Multiset Nat := (l.map share).sum

/-- The heap objects of all structs. -/
def recordsOf (l : List (AddressSpace × Radix)) : Multiset Nat := (l.map fun x => x.1.records).sum

/-- A struct with the table that is in memory for it. -/
structure SpaceOk (mem : Memory) (shared : Nat → Nat) (x : AddressSpace × Radix) : Prop where
  rep : Rep mem x.2 shared
  root_eq : x.2.root = x.1.root
  width : x.2.width = 256
  tight : x.2.Tight
  leaves : Leaves x.2 x.1.pages
  page_ok : ∀ p ∈ x.1.pages, PageOk p
  laid : Laid x.1

/-- The invariant of all runs from `m₀`: the structs `l`, the pages `kept` of
everybody else and the allocator make up the pool.  With `strict`, the
reservations agree with the ledgers too. -/
structure Sound (P : PagePool) (shared : Nat → Nat) (strict : Prop) (kept objs : Multiset Nat)
    (m₀ m : Machine) (l : List (AddressSpace × Radix)) : Prop where
  stock : Stocked P m (shares l + kept)
  live : liveBag m.slabs = recordsOf l + objs
  space : ∀ x ∈ l, SpaceOk m.mem shared x
  agrees : strict → ∀ x ∈ l, Agrees x.1.areas x.1.pages
  keeps : Keeps kept m₀ m

theorem mem_shares {l : List (AddressSpace × Radix)} {x : AddressSpace × Radix} (hx : x ∈ l) :
    share x ≤ shares l :=
  single_le_sum (by simp) _ (mem_map_of_mem hx)

/-! ## Looking at one struct -/

section Focus

variable {x y : AddressSpace × Radix}

theorem SpaceOk.keep {rest : Multiset Nat} (h : SpaceOk m.mem shared x) (hk : Keeps rest m m')
    (hle : share x ≤ rest) : SpaceOk m'.mem shared x := by
  refine ⟨h.rep.congr fun p hp => hk.bytes p (Multiset.mem_of_le hle ?_), h.root_eq,
    h.width, h.tight, h.leaves, h.page_ok, h.laid⟩
  exact Multiset.mem_add.mpr (.inl hp)

theorem Owned.spaceOk {rest objs' : Multiset Nat} (h : Owned P m x.1 x.2 shared rest objs')
    (hl : Laid x.1) : SpaceOk m.mem shared x :=
  ⟨h.tabled.rep, h.root_eq, h.width, h.tight, h.leaves, h.page_ok, hl⟩

variable (h : Sound P shared strict kept objs m₀ m l)

include h

/-- One struct, with everything else as its rest. -/
theorem Sound.focus (hi : l[i]? = some x) :
    Owned P m x.1 x.2 shared (shares (l.eraseIdx i) + kept) (recordsOf (l.eraseIdx i) + objs) := by
  have hx := h.space x (mem_of_getElem? hi)
  refine ⟨⟨?_, hx.rep⟩, hx.root_eq, hx.width, hx.tight, hx.leaves, hx.page_ok, ?_⟩
  · have hst := h.stock
    rw [shares, sum_eraseIdx share hi, share] at hst
    rw [← add_assoc, ← add_assoc]
    exact hst
  · rw [h.live, recordsOf, sum_eraseIdx (fun x : AddressSpace × Radix => x.1.records) hi, add_assoc]
    rfl

/-- A changed struct put back. -/
theorem Sound.refocus (hi : l[i]? = some x)
    (hy : Owned P m' y.1 y.2 shared (shares (l.eraseIdx i) + kept)
      (recordsOf (l.eraseIdx i) + objs)) (hk : Keeps (shares (l.eraseIdx i) + kept) m m')
    (hl : Laid y.1) (ha : strict → Agrees y.1.areas y.1.pages) :
    Sound P shared strict kept objs m₀ m' (l.set i y) := by
  obtain ⟨hlt, _⟩ := List.getElem?_eq_some_iff.mp hi
  have hmem : ∀ z ∈ l.set i y, z = y ∨ z ∈ l.eraseIdx i := by
    intro z hz
    exact List.mem_cons.mp ((set_perm_cons_eraseIdx hlt y).mem_iff.mp hz)
  refine ⟨?_, ?_, ?_, ?_, h.keeps.trans hk.part⟩
  · rw [shares, sum_set share hlt, share, add_assoc, add_assoc]
    exact hy.tabled.stock
  · rw [recordsOf, sum_set (fun x : AddressSpace × Radix => x.1.records) hlt, hy.live, add_assoc]
    rfl
  · intro z hz
    rcases hmem z hz with rfl | hz
    · exact hy.spaceOk hl
    · refine (h.space z (mem_of_mem_eraseIdx hz)).keep hk ?_
      exact (mem_shares hz).trans (Multiset.le_add_right _ _)
  · intro hs z hz
    rcases hmem z hz with rfl | hz
    · exact ha hs
    · exact h.agrees hs z (mem_of_mem_eraseIdx hz)

/-- A step that leaves every struct alone. -/
theorem Sound.rest
    (hst : Stocked P m' (shares l + kept)) (hlive : liveBag m'.slabs = recordsOf l + objs)
    (hk : Keeps (shares l + kept) m m') : Sound P shared strict kept objs m₀ m' l := by
  refine ⟨hst, hlive, fun z hz => ?_, h.agrees, h.keeps.trans hk.part⟩
  exact (h.space z hz).keep hk ((mem_shares hz).trans (Multiset.le_add_right _ _))

/-- A new struct. -/
theorem Sound.add (hy : Owned P m' y.1 y.2 shared (shares l + kept) (recordsOf l + objs))
    (hk : Keeps (shares l + kept) m m') (hl : Laid y.1) (ha : strict → Agrees y.1.areas y.1.pages) :
    Sound P shared strict kept objs m₀ m' (l ++ [y]) := by
  refine ⟨?_, ?_, ?_, ?_, h.keeps.trans hk.part⟩
  · have hst := hy.tabled.stock
    have hsum : shares (l ++ [y]) = y.2.frames + y.1.physicals + shares l := by
      rw [add_comm]
      simp [shares, share]
    rw [hsum, add_assoc, add_assoc]
    exact hst
  · rw [hy.live, ← add_assoc, add_comm y.1.records]
    simp [recordsOf]
  · intro z hz
    rcases List.mem_append.mp hz with hz | hz
    · exact (h.space z hz).keep hk ((mem_shares hz).trans (Multiset.le_add_right _ _))
    · rw [mem_singleton] at hz
      exact hz ▸ hy.spaceOk hl
  · intro hs z hz
    rcases List.mem_append.mp hz with hz | hz
    · exact h.agrees hs z hz
    · rw [mem_singleton] at hz
      exact hz ▸ ha hs

end Focus

/-! ## One call -/

/-- A call on one struct keeps it sound, whatever else there is. -/
def Preserves (strict : Prop) (f : AddressSpace → Machine → AddressSpace × Machine) : Prop :=
  ∀ {P m as t shared rest objs}, Owned P m as t shared rest objs → Laid as →
    (strict → Agrees as.areas as.pages) →
    ∃ t', Owned P (f as m).2 (f as m).1 t' shared rest objs ∧ Keeps rest m (f as m).2 ∧
      Laid (f as m).1 ∧ (strict → Agrees (f as m).1.areas (f as m).1.pages)

section Calls

variable {shared' : Nat → Nat} {rest : Multiset Nat} {as' : AddressSpace} {t t' : Radix}

/-- The layout does not depend on the ledger. -/
theorem Laid.of_pages (h : Laid as) (heq : as' = { as with pages := as'.pages }) : Laid as' := by
  rw [heq]
  exact ⟨h.areas_ok, h.brk_base, h.brk_ge, h.brk_le, h.heap_at, h.heap_exists, h.window⟩

theorem Outcome.sound {res : Except Errno Nat} {Done : Nat → Prop}
    (h : Outcome P m m' as as' t shared rest objs res Done t') (hl : Laid as)
    (ha : strict → Agrees as.areas as.pages)
    (hdone : ∀ n, Done n → Laid as' ∧ (Agrees as.areas as.pages → Agrees as'.areas as'.pages)) :
    Laid as' ∧ (strict → Agrees as'.areas as'.pages) := by
  cases res with
  | ok n =>
    obtain ⟨hl', ha'⟩ := hdone n (h.ok n rfl)
    exact ⟨hl', fun hs => ha' (ha hs)⟩
  | error e =>
    refine ⟨hl.of_pages (h.kept e rfl), fun hs => ?_⟩
    rw [(h.error e rfl (ha hs)).1]
    exact ha hs

theorem preserves_mmap (address length prot mapflags : Nat) (file : Option File) (offset : Nat) :
    Preserves strict fun as m =>
    (addressSpaceMmap as address length prot mapflags file offset m).2 := by
  intro P m as t shared rest objs h hl ha
  obtain ⟨⟨res, as', m'⟩, hrun⟩ : ∃ r, addressSpaceMmap as address length prot mapflags
    file offset m =
    r := ⟨_, rfl⟩
  obtain ⟨t', hout⟩ := addressSpaceMmap_keeps h hrun
  simp only [hrun]
  refine ⟨t', hout.owned, hout.keeps, hout.sound hl ha ?_⟩
  rintro n ⟨⟨a, new, _, hm⟩, -⟩
  exact ⟨hl.mapped hm, fun hag => (Reserved.mapped ⟨hl, hag⟩ hm).agrees⟩

theorem preserves_munmap (start length : Nat) :
    Preserves strict fun as m => (addressSpaceMunmap as start length m).2 := by
  intro P m as t shared rest objs h hl ha
  rcases hrun : addressSpaceMunmap as start length m with ⟨res, as', m'⟩
  obtain ⟨t', hout⟩ := addressSpaceMunmap_keeps h hl.areas_ok.apart hrun
  simp only [hrun]
  refine ⟨t', hout.owned, hout.keeps, hout.sound hl ha ?_⟩
  rintro n ⟨hu, -⟩
  exact ⟨hl.unmapped hu, fun hag => (Reserved.unmapped ⟨hl, hag⟩ hu).agrees⟩

theorem preserves_brk (requested : Nat) :
    Preserves strict fun as m => (addressSpaceBrk as requested m).2 := by
  intro P m as t shared rest objs h hl ha
  rcases hrun : addressSpaceBrk as requested m with ⟨res, as', m'⟩
  obtain ⟨t', hout⟩ := addressSpaceBrk_keeps h hl hrun
  simp only [hrun]
  exact ⟨t', hout.owned, hout.keeps, hout.sound hl ha fun n hn => hn.1⟩

/-- A raw page keeps ownership, but not the agreement with the reservations. -/
theorem preserves_addPage (hstrict : ¬ strict) (address flags : Nat)
    (data : Option (Memory → Nat → UInt8)) (size : Nat) :
    Preserves strict fun as m => (addressSpaceAddPage as address flags data size m).2 := by
  intro P m as t shared rest objs h hl _
  rcases hrun : addressSpaceAddPage as address flags data size m with ⟨ok, as', m'⟩
  obtain ⟨hk, hcase⟩ := addressSpaceAddPage_spec h hrun
  simp only [hrun]
  have hk' := hk.part
  rcases hcase with ⟨_, rfl, h'⟩ | ⟨_, t', page, h', hadded, -⟩
  · exact ⟨t, h', hk', hl, fun hs => absurd hs hstrict⟩
  · exact ⟨t', h', hk', hl.of_pages (by rw [hadded.push]; rfl), fun hs => absurd hs hstrict⟩

theorem preserves_copy (buffer : Option (Nat → UInt8)) (address size : Nat) (toUser : Bool) :
    Preserves strict fun as m =>
      (as, (addressSpaceCopy as buffer address size toUser m).2.machine) := by
  intro P m as t shared rest objs h hl ha
  obtain ⟨h', _, hk⟩ := addressSpaceCopy_spec h buffer address size toUser
  exact ⟨t, h', hk, hl, ha⟩

theorem preserves_destroy : Preserves strict addressSpaceDestroy := by
  intro P m as t shared rest objs h hl _
  obtain ⟨hdead, hb, he, hst, hlive, hk⟩ := addressSpaceDestroy_spec h rfl
  refine ⟨Radix.bare 0 256, hdead.owned hst hlive shared, hk,
    hdead.laid (hb.trans hl.brk_base) ?_ ?_, fun _ => hdead.agrees⟩
  · exact he ▸ hl.brk_ge
  · exact he ▸ hl.brk_le

/-- Only the borrowed slots of the root mention `shared`. -/
theorem Owned.reshare (h : Owned P m as t shared' rest objs)
    (heq : ∀ i < 512, shared' i = shared i) : Owned P m as t shared rest objs := by
  have hrep := h.tabled.rep
  refine ⟨⟨h.tabled.stock, hrep.wf, hrep.width_le, hrep.root_entry, ?_, hrep.mid_entry,
    hrep.low_entry, hrep.leaf_ok⟩, h.root_eq, h.width, h.tight, h.leaves, h.page_ok, h.live⟩
  intro hr i hw hi
  rw [hrep.shared_entry hr i hw hi, heq i hi]

end Calls

/-! ## Whole runs -/

/-- The structs of a world, with some tables, are sound. -/
def World.Sound (P : PagePool) (kernelRoot : Nat) (strict : Prop) (kept objs : Multiset Nat)
    (m₀ : Machine) (w : World) : Prop :=
  ∃ l, l.map Prod.fst = w.spaces ∧
    MiniCore.Sound P (fun i => entry m₀.mem kernelRoot i) strict kept objs m₀ w.machine l

section Steps

variable {w' : World}

/-- The kernel's root page is kept, so its slots are those of the start. -/
theorem Sound.upper (h : Sound P shared strict kept objs m₀ m l) (hk : kernelRoot ∈ kept) :
    ∀ i < 512, entry m.mem kernelRoot i = entry m₀.mem kernelRoot i :=
  fun _ hi => entry_congr hi (h.keeps.bytes _ hk)

theorem exists_entry (hl : l.map Prod.fst = w.spaces) (hi : w.spaces[i]? = some as) :
    ∃ t, l[i]? = some (as, t) := by
  rw [← hl, getElem?_map, Option.map_eq_some_iff] at hi
  obtain ⟨⟨as, t⟩, hx, rfl⟩ := hi
  exact ⟨t, hx⟩

/-- A call on one struct, with the tables of before and after. -/
theorem World.Sound.update_at (hl : l.map Prod.fst = w.spaces)
    (hsound : MiniCore.Sound P (fun i => entry m₀.mem kernelRoot i) strict kept objs m₀ w.machine l)
    {f : AddressSpace → Machine → AddressSpace × Machine} (hf : Preserves strict f)
    (hs : w.update i f = some w') :
    ∃ as t t', l[i]? = some (as, t) ∧ w' = ⟨(f as w.machine).2, w.spaces.set i (f as w.machine).1⟩ ∧
      MiniCore.Sound P (fun i => entry m₀.mem kernelRoot i) strict kept objs m₀ w'.machine
        (l.set i ((f as w.machine).1, t')) ∧
      Keeps (shares (l.eraseIdx i) + kept) w.machine w'.machine := by
  unfold World.update at hs
  cases hi : w.spaces[i]? with
  | none => simp [hi] at hs
  | some as =>
    simp only [hi, Option.some.injEq] at hs
    subst hs
    obtain ⟨t, hx⟩ := exists_entry hl hi
    have hmem := mem_of_getElem? hx
    obtain ⟨t', hown, hk, hlaid, hag⟩ := hf (hsound.focus hx) (hsound.space _ hmem).laid
      fun hst => hsound.agrees hst _ hmem
    exact ⟨as, t, t', hx, rfl, hsound.refocus hx hown hk hlaid hag, hk⟩

theorem World.Sound.update (h : w.Sound P kernelRoot strict kept objs m₀)
    {f : AddressSpace → Machine → AddressSpace × Machine} (hf : Preserves strict f)
    (hs : w.update i f = some w') : w'.Sound P kernelRoot strict kept objs m₀ := by
  obtain ⟨l, hl, hsound⟩ := h
  obtain ⟨as, t, t', -, rfl, hsound', -⟩ := World.Sound.update_at hl hsound hf hs
  exact ⟨_, by rw [map_set, hl], hsound'⟩

/-- A struct that owns nothing has an empty share. -/
theorem SpaceOk.share_dead {mem : Memory} {x : AddressSpace × Radix} (h : SpaceOk mem shared x)
    (hd : x.1.Dead) : share x = 0 ∧ x.1.records = 0 := by
  have hframes := Radix.frames_of_root_zero h.rep.wf (h.root_eq.trans hd.root)
  simp [share, hframes, AddressSpace.physicals, AddressSpace.records, hd.pages, hd.areas]

theorem AddressSpace.Dead.spaceOk (h : as.Dead) (hl : Laid as) (mem : Memory) :
    SpaceOk mem shared (as, Radix.bare 0 256) :=
  ⟨rep_dead mem shared, h.root.symm, rfl, Radix.tight_bare 0 256,
    ⟨by simp [h.pages], fun v hv => absurd rfl hv⟩, by simp [h.pages], hl⟩

/-- Structs may be moved around as long as nothing is duplicated or lost. -/
theorem Sound.rearrange {l' : List (AddressSpace × Radix)}
    (h : Sound P shared strict kept objs m₀ m l) (hshare : shares l' = shares l)
    (hrec : recordsOf l' = recordsOf l)
    (hmem : ∀ x ∈ l', x ∈ l ∨ SpaceOk m.mem shared x ∧ x.1.Dead) :
    Sound P shared strict kept objs m₀ m l' := by
  refine ⟨hshare ▸ h.stock, hrec ▸ h.live, ?_, ?_, h.keeps⟩
  · intro x hx
    rcases hmem x hx with hx | ⟨hok, _⟩
    · exact h.space x hx
    · exact hok
  · intro hs x hx
    rcases hmem x hx with hx | ⟨_, hd⟩
    · exact h.agrees hs x hx
    · exact hd.agrees

/-- The moved-from struct. -/
theorem moved_dead (as : AddressSpace) : (addressSpaceMove as).2.Dead := ⟨rfl, rfl, rfl⟩

theorem Laid.moved (h : Laid as) : Laid (addressSpaceMove as).2 :=
  (moved_dead as).laid h.brk_base h.brk_ge h.brk_le

/-- A struct just made under the kernel's root, next to the structs `l`. -/
structure Made (P : PagePool) (kernelRoot : Nat) (strict : Prop) (kept objs : Multiset Nat)
    (l : List (AddressSpace × Radix)) (m m' : Machine) (as : AddressSpace) (t : Radix) : Prop where
  owned : Owned P m' as t (fun i => entry m.mem kernelRoot i) (shares l + kept) (recordsOf l + objs)
  keeps : Keeps (shares l + kept) m m'
  laid : Laid as
  agrees : strict → Agrees as.areas as.pages

section Made

variable (hsound : Sound P (fun i => entry m₀.mem kernelRoot i) strict kept objs m₀ w.machine l)
  (hk : kernelRoot ∈ kept)

include hsound hk

theorem Made.sound {m' : Machine} {t : Radix}
    (h : Made P kernelRoot strict kept objs l w.machine m' as t) :
    Sound P (fun i => entry m₀.mem kernelRoot i) strict kept objs m₀ m' (l ++ [(as, t)]) :=
  hsound.add (h.owned.reshare (hsound.upper hk)) h.keeps h.laid h.agrees

theorem Sound.step_init (hs : step kernelRoot w .init = some w') : ∃ as t m',
    w' = ⟨m', w.spaces ++ [as]⟩ ∧ Made P kernelRoot strict kept objs l w.machine m' as t ∧
      as.brkEnd = heapBase := by
  rcases hrun : addressSpaceInit kernelRoot w.machine with ⟨ok, as, m⟩
  obtain ⟨hkeep, heq, -, -, t, hown⟩ := addressSpaceInit_spec hsound.stock hsound.live
    (Multiset.mem_add.mpr (.inr hk)) hrun
  have hfresh := Reserved.fresh heq
  simp only [step, hrun, Option.some.injEq] at hs
  exact ⟨as, t, m, hs.symm, ⟨hown, hkeep, hfresh.laid, fun _ => hfresh.agrees⟩, by rw [heq]⟩

/-- A clone owns nothing if it failed. -/
theorem Sound.step_clone (hl : l.map Prod.fst = w.spaces)
    (hs : step kernelRoot w (.clone i) = some w') :
    ∃ source as t m', w.spaces[i]? = some source ∧ source.root ≠ 0 ∧ w' = ⟨m', w.spaces ++ [as]⟩ ∧
      Made P kernelRoot strict kept objs l w.machine m' as t ∧
      (as.root ≠ 0 → addressSpaceClone source kernelRoot w.machine = (true, as, m')) := by
  cases hi : w.spaces[i]? with
  | none => simp [step, hi] at hs
  | some source =>
    obtain ⟨u, hx⟩ := exists_entry hl hi
    have hmem := mem_of_getElem? hx
    have hlaid := (hsound.space _ hmem).laid
    rcases hrun : addressSpaceClone source kernelRoot w.machine with ⟨ok, as, m⟩
    simp only [step, hi, hrun] at hs
    split at hs
    · cases hs
    next hroot =>
    cases hs
    obtain ⟨hkeep, ⟨-, hdead, hst, hlive, hbrk⟩ | ⟨rfl, hroot', hshape, t, hown⟩⟩ :=
      addressSpaceClone_spec hsound.stock hsound.live (Multiset.mem_add.mpr (.inr hk)) hrun
    · have hlaid' : Laid as := by
        rcases hbrk with ⟨hb, he⟩ | ⟨hb, he⟩
        · exact hdead.laid hb (Nat.le_of_eq he.symm) (he ▸ Nat.le_add_right _ _)
        · exact hdead.laid (hb.trans hlaid.brk_base) (he ▸ hlaid.brk_ge) (he ▸ hlaid.brk_le)
      exact ⟨source, as, _, m, rfl, hroot, rfl, ⟨hdead.owned hst hlive _, hkeep, hlaid',
        fun _ => hdead.agrees⟩, fun hne => absurd hdead.root hne⟩
    · exact ⟨source, as, t, m, rfl, hroot, rfl, ⟨hown, hkeep, hlaid.copy hshape hroot hroot',
        fun hst => (hsound.agrees hst _ hmem).copy hshape.areas hshape.pages⟩, fun _ => hrun⟩

/-- `exec` makes a space without a heap, or leaves all structs alone. -/
theorem Sound.step_elfLoad {file : Option File} {arguments : ExecArguments}
    (hs : step kernelRoot w (.elfLoad file arguments) = some w') :
    (w'.spaces = w.spaces ∧ Keeps (shares l + kept) w.machine w'.machine ∧
      Sound P (fun i => entry m₀.mem kernelRoot i) strict kept objs m₀ w'.machine l) ∨
    ∃ as t m', w' = ⟨m', w.spaces ++ [as]⟩ ∧ Made P kernelRoot strict kept objs l
      w.machine m' as t ∧
      as.root ≠ 0 ∧ as.brkEnd = heapBase := by
  rcases hrun : elfLoad kernelRoot file arguments w.machine with ⟨ok, image, m⟩
  obtain ⟨hkeep, hcase⟩ :=
    elfLoad_spec hsound.stock hsound.live (Multiset.mem_add.mpr (.inr hk)) hrun
  simp only [step, hrun] at hs
  rcases hcase with ⟨rfl, hst, hlive⟩ | ⟨rfl, ⟨hroot, hbrk⟩, hres, t, hown⟩
  · cases hs
    exact .inl ⟨rfl, hkeep, hsound.rest hst hlive hkeep⟩
  · cases hs
    exact .inr ⟨image.as, t, m, rfl, ⟨hown, hkeep, hres.laid, fun _ => hres.agrees⟩, hroot, hbrk⟩

end Made

theorem step_move {j : Nat} (hs : step kernelRoot w (.move i j) = some w') :
    ∃ source destination, w.spaces[i]? = some source ∧ w.spaces[j]? = some destination ∧ i ≠ j ∧
      destination.Dead ∧ w' = ⟨w.machine,
        (w.spaces.set j (addressSpaceMove source).1).set i (addressSpaceMove source).2⟩ := by
  cases hi : w.spaces[i]? with
  | none => simp [step, hi] at hs
  | some source =>
    cases hj : w.spaces[j]? with
    | none => simp [step, hi, hj] at hs
    | some destination =>
      simp only [step, hi, hj] at hs
      split at hs
      · cases hs
      next hgood =>
      simp only [not_or, not_not, ne_eq] at hgood
      cases hs
      exact ⟨source, destination, rfl, rfl, hgood.1, ⟨hgood.2.1, hgood.2.2.1, hgood.2.2.2⟩, rfl⟩

theorem step_moveNew (hs : step kernelRoot w (.moveNew i) = some w') :
    ∃ source, w.spaces[i]? = some source ∧ w' = ⟨w.machine,
      w.spaces.set i (addressSpaceMove source).2 ++ [(addressSpaceMove source).1]⟩ := by
  cases hi : w.spaces[i]? with
  | none => simp [step, hi] at hs
  | some source =>
    simp only [step, hi, Option.some.injEq] at hs
    exact ⟨source, rfl, hs.symm⟩

variable (h : w.Sound P kernelRoot strict kept objs m₀)

include h

theorem World.Sound.move {j : Nat}
    {source destination : AddressSpace} (hi : w.spaces[i]? = some source)
    (hj : w.spaces[j]? = some destination) (hij : i ≠ j) (hd : destination.Dead) :
    World.Sound P kernelRoot strict kept objs m₀ ⟨w.machine,
      (w.spaces.set j (addressSpaceMove source).1).set i (addressSpaceMove source).2⟩ := by
  obtain ⟨l, hl, hs⟩ := h
  obtain ⟨t, hx⟩ := exists_entry hl hi
  obtain ⟨u, hz⟩ := exists_entry hl hj
  have hlaid := (hs.space _ (mem_of_getElem? hx)).laid
  have hok : SpaceOk w.machine.mem (fun i => entry m₀.mem kernelRoot i)
      ((addressSpaceMove source).2, Radix.bare 0 256) := (moved_dead source).spaceOk hlaid.moved _
  obtain ⟨hzs, hzr⟩ := (hs.space _ (mem_of_getElem? hz)).share_dead hd
  obtain ⟨hys, hyr⟩ := hok.share_dead (moved_dead source)
  refine ⟨(l.set j (source, t)).set i ((addressSpaceMove source).2, Radix.bare 0 256), ?_,
    hs.rearrange (sum_move share hx hz hij hzs hys)
      (sum_move (fun x : AddressSpace × Radix => x.1.records) hx hz hij hzr hyr) ?_⟩
  · rw [map_set, map_set, hl]
    rfl
  intro x hmem
  rcases mem_or_eq_of_mem_set hmem with hmem | rfl
  · rcases mem_or_eq_of_mem_set hmem with hmem | rfl
    · exact .inl hmem
    · exact .inl (mem_of_getElem? hx)
  · exact .inr ⟨hok, moved_dead source⟩

theorem World.Sound.moveNew {source : AddressSpace} (hi : w.spaces[i]? = some source) :
    World.Sound P kernelRoot strict kept objs m₀ ⟨w.machine,
      w.spaces.set i (addressSpaceMove source).2 ++ [(addressSpaceMove source).1]⟩ := by
  obtain ⟨l, hl, hs⟩ := h
  obtain ⟨t, hx⟩ := exists_entry hl hi
  have hlaid := (hs.space _ (mem_of_getElem? hx)).laid
  have hok : SpaceOk w.machine.mem (fun i => entry m₀.mem kernelRoot i)
      ((addressSpaceMove source).2, Radix.bare 0 256) := (moved_dead source).spaceOk hlaid.moved _
  obtain ⟨hys, hyr⟩ := hok.share_dead (moved_dead source)
  refine ⟨l.set i ((addressSpaceMove source).2, Radix.bare 0 256) ++ [(source, t)], ?_,
    hs.rearrange (sum_moveNew share hx hys)
      (sum_moveNew (fun x : AddressSpace × Radix => x.1.records) hx hyr) ?_⟩
  · rw [map_append, map_set, hl]
    rfl
  intro x hmem
  rcases List.mem_append.mp hmem with hmem | hmem
  · rcases mem_or_eq_of_mem_set hmem with hmem | rfl
    · exact .inl hmem
    · exact .inr ⟨hok, moved_dead source⟩
  · rw [mem_singleton] at hmem
    exact .inl (hmem ▸ mem_of_getElem? hx)

/-- **Every call keeps the invariant.** -/
theorem World.Sound.step (hk : kernelRoot ∈ kept)
    {op : Op} (hop : strict → op.raw = false) (hs : MiniCore.step kernelRoot w op = some w') :
    w'.Sound P kernelRoot strict kept objs m₀ := by
  cases op with
  | addPage i address flags data size =>
    exact h.update (preserves_addPage (fun hst => absurd (hop hst) (by simp [Op.raw])) _ _ _ _) hs
  | mmap i address length prot mapflags file offset =>
    exact h.update (preserves_mmap _ _ _ _ _ _) hs
  | munmap i start length => exact h.update (preserves_munmap _ _) hs
  | brk i requested => exact h.update (preserves_brk _) hs
  | copy i buffer address size toUser => exact h.update (preserves_copy _ _ _ _) hs
  | destroy i => exact h.update preserves_destroy hs
  | init =>
    obtain ⟨l, hl, hsound⟩ := h
    obtain ⟨as, t, m, rfl, hmade, -⟩ := hsound.step_init hk hs
    exact ⟨_, by simp [hl], hmade.sound hsound hk⟩
  | clone i =>
    obtain ⟨l, hl, hsound⟩ := h
    obtain ⟨source, as, t, m, -, -, rfl, hmade, -⟩ := hsound.step_clone hk hl hs
    exact ⟨_, by simp [hl], hmade.sound hsound hk⟩
  | move i j =>
    obtain ⟨source, destination, hi, hj, hij, hdead, rfl⟩ := step_move hs
    exact h.move hi hj hij hdead
  | moveNew i =>
    obtain ⟨source, hi, rfl⟩ := step_moveNew hs
    exact h.moveNew hi
  | elfLoad file arguments =>
    obtain ⟨l, hl, hsound⟩ := h
    rcases hsound.step_elfLoad hk hs with ⟨hsame, -, hsound'⟩ | ⟨as, t, m, rfl, hmade, -⟩
    · exact ⟨l, hl.trans hsame.symm, hsound'⟩
    · exact ⟨_, by simp [hl], hmade.sound hsound hk⟩

end Steps

/-! ## The start of a run -/

/-- The machine on which the first address space is made: a sound heap, the
kernel's table `kernel` with all 512 root slots its own, the pages `held` of
other holders, and a free list, all on pairwise distinct pages. -/
structure Boot (kernelRoot : Nat) (kernel : Radix) (held : Multiset Nat) (m : Machine) : Prop where
  heap : HeapOk m.slabs
  nodup : (m.stock + (kernel.frames + held)).Nodup
  isPage : ∀ p ∈ m.stock + (kernel.frames + held), IsPage p
  table : Rep m.mem kernel fun _ => 0
  root_eq : kernel.root = kernelRoot
  root_ne : kernelRoot ≠ 0
  width : kernel.width = 512
  frees : m.frees = []

section Runs

variable {kernel : Radix} {held : Multiset Nat}

/-- All pages of the machine. -/
def Boot.pool (h : Boot kernelRoot kernel held m₀) : PagePool :=
  ⟨m₀.stock + (kernel.frames + held), h.nodup, h.isPage⟩

variable (h : Boot kernelRoot kernel held m₀)

include h

theorem Boot.mem_kernel : kernelRoot ∈ kernel.frames + held := by
  refine Multiset.mem_add.mpr (.inl ?_)
  rw [← h.root_eq]
  exact h.table.mem_root (h.root_eq ▸ h.root_ne)

/-- The machine after boot, as `elf_load` needs it. -/
theorem Boot.stocked :
    ∃ (P : PagePool) (rest : Multiset Nat), Stocked P m₀ rest ∧ kernelRoot ∈ rest :=
  ⟨h.pool, kernel.frames + held, ⟨h.heap, rfl, by simp [h.frees]⟩, h.mem_kernel⟩

theorem Boot.sound (strict : Prop) :
    World.Sound h.pool kernelRoot strict (kernel.frames + held) (liveBag m₀.slabs) m₀ ⟨m₀, []⟩ := by
  refine ⟨[], rfl, ⟨h.heap, ?_, by simp [h.frees]⟩, ?_, by simp, by simp, Keeps.refl _ _⟩
  · rw [shares, map_nil, sum_nil, zero_add]
    rfl
  · rw [recordsOf, map_nil, sum_nil, zero_add]

/-- **Every reachable world is sound**, strictly so if no page was added raw. -/
theorem Boot.reach {strict : Prop} {ok : World → Op → Prop}
    (hok : strict → ∀ w op, ok w op → op.raw = false) (hr : Reach (step kernelRoot) ok ⟨m₀, []⟩ w) :
    w.Sound h.pool kernelRoot strict (kernel.frames + held) (liveBag m₀.slabs) m₀ := by
  refine hr.invariant (h.sound strict) fun s op s' hs hop hstep => ?_
  exact hs.step h.mem_kernel (fun hst => hok hst s op hop) hstep

end Runs

/-! ## A small machine -/

/-- A machine to run on: the kernel's root on page 1, 32 free pages, an
empty heap, and no allocation made to fail. -/
def smallMachine : Machine := ⟨fun _ => 0, (range 32).map fun i => 4096 * (i + 2), [], [], []⟩

theorem smallMachine_boot : Boot 4096 (Radix.bare 4096 512) 0 smallMachine := by
  have hstock : smallMachine.stock + ((Radix.bare 4096 512).frames + 0) =
      ((range 32).map fun i => 4096 * (i + 2) : List Nat) + {4096} := by
    rw [Radix.frames_bare (by decide), add_zero]
    rfl
  refine ⟨by simp [HeapOk, smallMachine], ?_, ?_, ⟨Radix.wf_bare _ _, by decide, ?_, ?_,
    by simp [Radix.bare], by simp [Radix.bare],
    fun h => absurd rfl h⟩, rfl, by decide, rfl, rfl⟩
  · rw [hstock]
    decide
  · rw [hstock]
    intro p hp
    have hall : ∀ p ∈ ((range 32).map fun i => 4096 * (i + 2)) ++ [4096],
        p % 4096 = 0 ∧ p ≠ 0 ∧ p < 2 ^ 56 := by decide
    obtain ⟨h1, h2, h3⟩ := hall p (by simpa using hp)
    exact ⟨h1, h2, h3⟩
  · exact fun _ i _ => loadLE_zero fun _ _ => rfl
  · exact fun _ i _ _ => loadLE_zero fun _ _ => rfl

/-- A mapping, a heap and a copy of both. -/
def smallRun : List Op :=
  [.init, .mmap 0 0 12288 (protRead ||| protWrite) (mapPrivate ||| mapAnonymous) none 0,
    .brk 0 (heapBase + 5000), .clone 0]

/-- The run succeeds: two spaces with two areas and five pages each. -/
theorem smallRun_reaches : ∃ w, runSteps (step 4096) ⟨smallMachine, []⟩ smallRun = some w ∧
    w.spaces.map (fun as => (as.areas.length, as.pages.length)) = [(2, 5), (2, 5)] := by
  have hrun : (runSteps (step 4096) ⟨smallMachine, []⟩ smallRun).map
      (fun w => w.spaces.map fun as => (as.areas.length, as.pages.length)) =
      some [(2, 5), (2, 5)] := by decide +kernel
  exact Option.map_eq_some_iff.mp hrun

end MiniCore
