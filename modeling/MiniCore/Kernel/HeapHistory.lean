import MiniCore.Kernel.SpaceLaws
import MiniCore.Mm.Break
import MiniCore.Mm.ViewCopies

/-!
# MiniCore.Kernel.HeapHistory

The heaps of all programs over whole runs.

`HeapStep` says what a call does to the heaps, in the terms of
`MiniCore.Mm.Break`: a break moves, a program writes, a clone gets the heap of
its source, and no other call changes a byte.  Every call of the kernel is such
a step (`Boot.heapStep`).  That a byte stays as long as its page does is then a
fact about these steps.
-/

namespace MiniCore

open Lib

/-! ## Heaps -/

/-- The heaps, by the index of their struct. -/
abbrev Heaps := Nat → Option UserHeap

/-- The heap of a struct that has a table. -/
def AddressSpace.heap? (as : AddressSpace) (m : Machine) : Option UserHeap :=
  if as.root = 0 then none else some (as.heap m)

def World.heaps (w : World) : Heaps := fun i => w.spaces[i]?.bind fun as => as.heap? w.machine

/-- A struct that is new gets the heap `h`. -/
def Heaps.Gets (H H' : Heaps) (h : Option UserHeap) : Prop :=
  ∃ n, H n = none ∧ H' = Function.update H n h

/-- What a call may do to the heaps; nothing is said of a page added raw. -/
def HeapStep (H H' : Heaps) : Op → Prop
  | .init => H' = H ∨ H.Gets H' (some .empty)
  | .addPage .. => True
  | .mmap .. => H' = H
  | .munmap .. => H' = H
  | .brk i requested => H' = H ∨ requested ≠ 0 ∧ heapBase ≤ requested ∧
    requested ≤ heapBase + maxMapping ∧
      H' = Function.update H i ((H i).map fun h => h.move requested)
  | .copy i buffer a n toUser => H' = H ∨ toUser = true ∧ ∃ f k, buffer = some f ∧ k ≤ n ∧
      H' = Function.update H i ((H i).map fun h => h.write a k f)
  | .destroy i => H' = Function.update H i none
  | .clone i => H' = H ∨ H.Gets H' (H i)
  | .move i j => H j = none ∧ H' = Function.update (Function.update H j (H i)) i none
  | .moveNew i => Heaps.Gets (Function.update H i none) H' (H i)
  | .elfLoad .. => H' = H ∨ H.Gets H' (some .empty)

/-- The address is on the heap of the struct. -/
def Heaps.Covers (H : Heaps) (i a : Nat) : Prop := ∃ h, H i = some h ∧ h.Covers a

/-- The call does not write the byte, and does not take the struct away. -/
def Op.Spares (i a : Nat) : Op → Prop
  | .copy j _ b n toUser => toUser = true → j = i → a < b ∨ b + n ≤ a
  | .destroy j => j ≠ i
  | .move j _ => j ≠ i
  | .moveNew j => j ≠ i
  | _ => True

/-- What `brk` promises of a world and of all that comes after it. -/
structure BrkHistory (kernelRoot : Nat) (w : World) : Prop where
  law : ∀ as ∈ w.spaces, as.root ≠ 0 → ∀ requested res as' m',
    addressSpaceBrk as requested w.machine = (res, as', m') →
      BrkLaw as as' w.machine m' requested res
  step : ∀ op w', op.raw = false → step kernelRoot w op = some w' → HeapStep w.heaps w'.heaps op
  /-- a byte whose page stays on the heap is what it was, unless it is written -/
  stays : ∀ i a w', Reach (MiniCore.step kernelRoot)
      (fun u op => op.raw = false ∧ u.heaps.Covers i a ∧ op.Spares i a) w w' → w'.heaps.Covers i a →
    (w'.heaps i).map (fun h => h.bytes a) = (w.heaps i).map fun h => h.bytes a

/-! ## Steps of the heaps -/

section

variable {H H' : Heaps} {op : Op} {i j a : Nat}

/-- A new struct leaves the heaps there are. -/
theorem Heaps.Gets.eq_of_covers {h : Option UserHeap} (hg : H.Gets H' h) (hc : H.Covers i a) :
    H' i = H i := by
  obtain ⟨n, hn, rfl⟩ := hg
  obtain ⟨k, hk, -⟩ := hc
  refine Function.update_of_ne (fun hin => ?_) _ _
  rw [hin, hn] at hk
  cases hk

theorem Heaps.byte_update {f : UserHeap → UserHeap} (hc : H.Covers i a)
    (hbyte : ∀ h, h.Covers a → i = j → (f h).bytes a = h.bytes a) :
    (Function.update H j ((H j).map f) i).map (fun h => h.bytes a) = (H i).map fun h =>
      h.bytes a := by
  obtain ⟨h, hh, hca⟩ := hc
  by_cases hij : i = j
  · subst hij
    rw [Function.update_self, hh, Option.map_some, Option.map_some, Option.map_some,
      hbyte h hca rfl]
  · rw [Function.update_of_ne hij]

/-- **One step** leaves a byte whose page stays and that is not written. -/
theorem HeapStep.stays (h : HeapStep H H' op) (hraw : op.raw = false) (hc : H.Covers i a)
    (hc' : H'.Covers i a) (hop : op.Spares i a) :
    (H' i).map (fun h => h.bytes a) = (H i).map fun h => h.bytes a := by
  have hgets : ∀ {k}, H' = H ∨ H.Gets H' k →
      (H' i).map (fun h => h.bytes a) = (H i).map fun h => h.bytes a := by
    rintro k (rfl | hg)
    · rfl
    · rw [hg.eq_of_covers hc]
  cases op with
  | addPage => cases hraw
  | mmap => rw [show H' = H from h]
  | munmap => rw [show H' = H from h]
  | init => exact hgets h
  | clone j => exact hgets h
  | elfLoad => exact hgets h
  | brk j requested =>
    rcases h with rfl | ⟨-, -, -, rfl⟩
    · rfl
    refine Heaps.byte_update hc fun k _ hij => ?_
    subst hij
    -- the page is still there, so the byte was not cut off
    obtain ⟨k', hk', hcov⟩ := hc'
    rw [Function.update_self, Option.map_eq_some_iff] at hk'
    obtain ⟨g, hg, hmove⟩ := hk'
    have hlt : a < pageUp requested := by
      rw [← hmove] at hcov
      exact hcov.2
    simp only [UserHeap.move, hlt, if_true]
  | copy j buffer b n toUser =>
    rcases h with rfl | ⟨htrue, f, k, -, hk, rfl⟩
    · rfl
    refine Heaps.byte_update hc fun g _ hij => if_neg ?_
    have hout := hop htrue hij.symm
    omega
  | destroy j => rw [show H' = _ from h, Function.update_of_ne (Ne.symm hop)]
  | move j k =>
    obtain ⟨hk, rfl⟩ := h
    obtain ⟨g, hg, -⟩ := hc
    have hik : i ≠ k := by
      rintro rfl
      rw [hk] at hg
      cases hg
    rw [Function.update_of_ne (Ne.symm hop), Function.update_of_ne hik]
  | moveNew j =>
    have hsame : Function.update H j none i = H i := Function.update_of_ne (Ne.symm hop) _ _
    have hcov : Heaps.Covers (Function.update H j none) i a := by
      obtain ⟨g, hg, hga⟩ := hc
      exact ⟨g, hsame.trans hg, hga⟩
    rw [Heaps.Gets.eq_of_covers h hcov, hsame]

end

/-! ## One call -/

section

variable {P : PagePool} {shared : Nat → Nat} {strict : Prop} {kept objs rest : Multiset Nat}
  {m₀ m m' : Machine} {l l' : List (AddressSpace × Radix)} {as as' : AddressSpace} {t : Radix}
  {j j' : Nat}
  {w w' : World}

/-- A struct whose pages are left alone keeps its heap. -/
theorem Sound.heap_same (h : Sound P shared strict kept objs m₀ m l)
    (h' : Sound P shared strict kept objs m₀ m' l') (hx : l[j]? = some (as, t))
    (hx' : l'[j']? = some (as, t)) (hk : Keeps rest m m') (hle : share (as, t) ≤ rest) :
    as.heap? m' = as.heap? m := by
  have hpages : as.pages.map (UserPage.image m'.mem) = as.pages.map (UserPage.image m.mem) := by
    refine images_congr hk fun p hp => Multiset.mem_of_le hle ?_
    exact Multiset.mem_add.mpr (.inr (AddressSpace.mem_physicals hp))
  have hheap := (h.focus hx).heap_of_view (h'.focus hx') (h.space _ (List.mem_of_getElem? hx)).laid
    (View.ext rfl hpages rfl rfl)
  rw [AddressSpace.heap?, AddressSpace.heap?, hheap]

theorem World.heaps_eq (h : w.spaces[j]? = some as) : w.heaps j = as.heap? w.machine := by
  rw [World.heaps, h, Option.bind_some]

theorem World.heaps_none (h : w.spaces[j]? = none) : w.heaps j = none := by
  rw [World.heaps, h, Option.bind_none]

theorem World.heaps_set {spaces : List AddressSpace} (hj : j < spaces.length) :
    World.heaps ⟨m, spaces.set j as⟩ = Function.update (World.heaps ⟨m, spaces⟩) j
    (as.heap? m) := by
  funext i
  by_cases hij : i = j
  · subst hij
    rw [Function.update_self]
    exact World.heaps_eq (List.getElem?_set_self hj)
  · rw [Function.update_of_ne hij, World.heaps, World.heaps, List.getElem?_set_ne (Ne.symm hij)]

theorem World.heaps_append {spaces : List AddressSpace} :
    Heaps.Gets (World.heaps ⟨m, spaces⟩) (World.heaps ⟨m, spaces ++ [as]⟩) (as.heap? m) := by
  refine ⟨spaces.length, World.heaps_none (List.getElem?_eq_none (Nat.le_refl _)),
    funext fun i => ?_⟩
  by_cases hi : i = spaces.length
  · subst hi
    rw [Function.update_self]
    exact World.heaps_eq List.getElem?_concat_length
  rw [Function.update_of_ne hi, World.heaps, World.heaps]
  rcases Nat.lt_or_ge i spaces.length with hlt | hge
  · rw [List.getElem?_append_left hlt]
  · rw [List.getElem?_eq_none hge, List.getElem?_eq_none (by simp; omega)]

section

variable (hl : l.map Prod.fst = w.spaces)

include hl

section

variable (h : Sound P shared strict kept objs m₀ w.machine l)

include h

/-- A machine that has changed, seen from the structs that were left alone. -/
theorem Sound.heaps_machine (h' : Sound P shared strict kept objs m₀ m' l')
    (hk : Keeps rest w.machine m') (hj : ∀ x, l[j]? = some x → l'[j]? = some x ∧ share x ≤ rest) :
    World.heaps ⟨m', w.spaces⟩ j = w.heaps j := by
  rw [World.heaps, World.heaps]
  cases hsome : w.spaces[j]? with
  | none => rfl
  | some as =>
    obtain ⟨t, hx⟩ := exists_entry hl hsome
    obtain ⟨hx', hle⟩ := hj _ hx
    exact h.heap_same h' hx hx' hk hle

/-- A call on one struct leaves the heaps of the others. -/
theorem Sound.heaps_update {i : Nat} {y : AddressSpace × Radix}
    (hi : i < l.length) (h' : Sound P shared strict kept objs m₀ m' (l.set i y))
    (hk : Keeps (shares (l.eraseIdx i) + kept) w.machine m') :
    World.heaps ⟨m', w.spaces.set i y.1⟩ = Function.update w.heaps i (y.1.heap? m') := by
  have hlen : l.length = w.spaces.length := by rw [← hl, List.length_map]
  rw [World.heaps_set (hlen ▸ hi)]
  funext j
  by_cases hij : j = i
  · rw [hij, Function.update_self, Function.update_self]
  rw [Function.update_of_ne hij, Function.update_of_ne hij]
  refine h.heaps_machine hl h' hk fun x hx => ⟨by rw [List.getElem?_set_ne (Ne.symm hij), hx], ?_⟩
  have hmem : x ∈ l.eraseIdx i := List.mem_eraseIdx_iff_getElem?.mpr ⟨j, hij, hx⟩
  exact (mem_shares hmem).trans (Multiset.le_add_right _ _)

/-- What is left alone with all structs has the same heaps. -/
theorem Sound.heaps_rest {new : List (AddressSpace × Radix)}
    (h' : Sound P shared strict kept objs m₀ m' (l ++ new))
    (hk : Keeps (shares l + kept) w.machine m') : World.heaps ⟨m', w.spaces⟩ = w.heaps := by
  funext j
  refine h.heaps_machine hl h' hk fun x hx => ?_
  obtain ⟨hlt, -⟩ := List.getElem?_eq_some_iff.mp hx
  exact ⟨by rw [List.getElem?_append_left hlt, hx],
    (mem_shares (List.mem_of_getElem? hx)).trans (Multiset.le_add_right _ _)⟩

end

/-- A struct just made under the kernel's root. -/
theorem Sound.heaps_create {kernelRoot : Nat}
    (h : Sound P (fun i => entry m₀.mem kernelRoot i) strict kept objs m₀ w.machine l)
    (hk : kernelRoot ∈ kept) (hmade : Made P kernelRoot strict kept objs l w.machine m as t) :
    w.heaps.Gets (World.heaps ⟨m, w.spaces ++ [as]⟩) (as.heap? m) := by
  rw [← h.heaps_rest hl (hmade.sound h hk) hmade.keeps]
  exact World.heaps_append

end

/-- A new struct without a table is no new heap. -/
theorem Heaps.Gets.eq_of_none {H H' : Heaps} (h : H.Gets H' none) : H' = H := by
  obtain ⟨n, hn, rfl⟩ := h
  exact Function.update_eq_self_iff.mpr hn.symm

theorem AddressSpace.heap?_none (h : as.root = 0) : as.heap? m = none := if_pos h

theorem AddressSpace.heap?_some (h : as.root ≠ 0) : as.heap? m = some (as.heap m) := if_neg h

theorem AddressSpace.heap?_congr (hroot : as'.root = as.root) (hheap : as'.heap m' = as.heap m) :
    as'.heap? m' = as.heap? m := by
  rw [heap?, heap?, hroot, hheap]

end

section

variable {kernelRoot : Nat} {kernel : Radix} {held : Multiset Nat} {m₀ : Machine} {w w' : World}

section

variable (hb : Boot kernelRoot kernel held m₀)

include hb

section

variable (hr : Reach (step kernelRoot) (fun _ op => op.raw = false) ⟨m₀, []⟩ w)

include hr

/-- A call on one struct, seen on the heaps. -/
theorem Boot.heaps_update {i : Nat}
    {f : AddressSpace → Machine → AddressSpace × Machine} (hf : Preserves True f)
    (hs : w.update i f = some w') : ∃ as ∈ w.spaces, w.heaps i = as.heap? w.machine ∧
      w'.heaps = Function.update w.heaps i ((f as w.machine).1.heap? (f as w.machine).2) := by
  obtain ⟨l, hl, hsound⟩ : w.Sound hb.pool kernelRoot True (kernel.frames + held)
    (liveBag m₀.slabs) m₀ :=
    hb.reach (fun _ _ _ h => h) hr
  obtain ⟨as, t, t', hx, rfl, hsound', hk⟩ := World.Sound.update_at hl hsound hf hs
  obtain ⟨hlt, -⟩ := List.getElem?_eq_some_iff.mp hx
  have hi : w.spaces[i]? = some as := by rw [← hl, List.getElem?_map, hx, Option.map_some]
  exact ⟨as, List.mem_of_getElem? hi, World.heaps_eq hi, hsound.heaps_update hl hlt hsound' hk⟩

/-- A call that leaves the heap of its struct leaves all heaps. -/
theorem Boot.heaps_keep {i : Nat}
    {f : AddressSpace → Machine → AddressSpace × Machine} (hf : Preserves True f)
    (hs : w.update i f = some w')
    (hkeep : ∀ as ∈ w.spaces, (f as w.machine).1.heap? (f as w.machine).2 = as.heap? w.machine) :
    w'.heaps = w.heaps := by
  obtain ⟨as, has, hi, heq⟩ := hb.heaps_update hr hf hs
  rw [heq, hkeep as has, ← hi, Function.update_eq_self]

end

/-- **Every call of the kernel is a step of the heaps.** -/
theorem Boot.heapStep
    (hr : Reach (step kernelRoot) (fun _ op => op.raw = false) ⟨m₀, []⟩ w) {op : Op}
    (hop : op.raw = false) (hs : step kernelRoot w op = some w') :
    HeapStep w.heaps w'.heaps op := by
  obtain ⟨l, hl, hsound⟩ : w.Sound hb.pool kernelRoot True (kernel.frames + held)
    (liveBag m₀.slabs) m₀ :=
    hb.reach (fun _ _ _ h => h) hr
  cases op with
  | addPage => trivial
  | mmap i address length prot mapflags file offset =>
    refine hb.heaps_keep hr (preserves_mmap address length prot mapflags file offset) hs
      fun as has => ?_
    obtain ⟨P, shared, t, rest, objs, h, hres, -⟩ := hb.space hr has
    obtain ⟨hheap, hroot⟩ :=
      h.heap_mmap hres
        (Prod.eta (addressSpaceMmap as address length prot mapflags file offset w.machine)).symm
    exact AddressSpace.heap?_congr hroot hheap
  | munmap i start length =>
    refine hb.heaps_keep hr (preserves_munmap start length) hs fun as has => ?_
    obtain ⟨P, shared, t, rest, objs, h, hres, -⟩ := hb.space hr has
    obtain ⟨hheap, hroot⟩ :=
      h.heap_munmap hres (Prod.eta (addressSpaceMunmap as start length w.machine)).symm
    exact AddressSpace.heap?_congr hroot hheap
  | brk i requested =>
    obtain ⟨as, has, hi, heq⟩ := hb.heaps_update hr (preserves_brk requested) hs
    obtain ⟨P, shared, t, rest, objs, h, hres, hk⟩ := hb.space hr has
    obtain ⟨hroot, hheap⟩ :=
      h.heap_brk hres hk (Prod.eta (addressSpaceBrk as requested w.machine)).symm
    simp only [HeapStep, heq, hi]
    by_cases hz : as.root = 0
    · refine .inl ?_
      rw [AddressSpace.heap?_none (hroot.trans hz), ← AddressSpace.heap?_none hz, ← hi,
        Function.update_eq_self]
    rcases hheap hz with hsame | ⟨hne, hge, hle, hmove⟩
    · refine .inl ?_
      rw [AddressSpace.heap?_congr hroot hsame, ← hi, Function.update_eq_self]
    refine .inr ⟨hne, hge, hle, ?_⟩
    rw [AddressSpace.heap?_some (hroot ▸ hz), AddressSpace.heap?_some hz, hmove]
    rfl
  | copy i buffer a n toUser =>
    obtain ⟨as, has, hi, heq⟩ := hb.heaps_update hr (preserves_copy buffer a n toUser) hs
    obtain ⟨P, shared, t, rest, objs, h, hres, -⟩ := hb.space hr has
    simp only [HeapStep, heq, hi]
    have hsame : (addressSpaceCopy as buffer a n toUser w.machine).2.machine = w.machine →
        Function.update w.heaps i
          (as.heap? (addressSpaceCopy as buffer a n toUser w.machine).2.machine) =
          w.heaps := by
      intro hm
      rw [hm, ← hi, Function.update_eq_self]
    cases toUser with
    | false => exact .inl (hsame (addressSpaceCopy_false_machine buffer))
    | true =>
      cases buffer with
      | none => exact .inl (hsame addressSpaceCopy_none)
      | some f =>
        by_cases hz : as.root = 0
        · refine .inl ?_
          rw [AddressSpace.heap?_none hz, ← AddressSpace.heap?_none hz, ← hi,
            Function.update_eq_self]
        obtain ⟨k, hk, hheap, -⟩ := h.heap_copy hres.laid (h.heapExact hres hz) f a n
        refine .inr ⟨rfl, f, k, rfl, hk, ?_⟩
        rw [AddressSpace.heap?_some hz, AddressSpace.heap?_some hz, hheap]
        rfl
  | destroy i =>
    obtain ⟨as, has, hi, heq⟩ := hb.heaps_update hr preserves_destroy hs
    obtain ⟨P, shared, t, rest, objs, h, -, -⟩ := hb.space hr has
    obtain ⟨hdead, -⟩ :=
      addressSpaceDestroy_spec h (Prod.eta (addressSpaceDestroy as w.machine)).symm
    rw [HeapStep, heq, AddressSpace.heap?_none hdead.root]
  | init =>
    obtain ⟨as, t, m, rfl, hmade, hbrk⟩ := hsound.step_init hb.mem_kernel hs
    have hgets := hsound.heaps_create hl hb.mem_kernel hmade
    by_cases hz : as.root = 0
    · rw [AddressSpace.heap?_none hz] at hgets
      exact .inl hgets.eq_of_none
    · rw [AddressSpace.heap?_some hz, heap_empty hbrk] at hgets
      exact .inr hgets
  | clone i =>
    obtain ⟨source, as, t, m, hi, hroot, rfl, hmade, hrun⟩ := hsound.step_clone hb.mem_kernel hl hs
    have hgets := hsound.heaps_create hl hb.mem_kernel hmade
    by_cases hz : as.root = 0
    · rw [AddressSpace.heap?_none hz] at hgets
      exact .inl hgets.eq_of_none
    obtain ⟨u, hx⟩ := exists_entry hl hi
    have hmem := List.mem_of_getElem? hx
    have hsource : ∀ p ∈ source.pages, p.physical ∈ shares l + (kernel.frames + held) := fun p hp =>
      Multiset.mem_of_le ((mem_shares hmem).trans (Multiset.le_add_right _ _))
        (Multiset.mem_add.mpr (.inr (AddressSpace.mem_physicals hp)))
    have hview := addressSpaceClone_view hsound.stock hsound.live
      (Multiset.mem_add.mpr (.inr hb.mem_kernel)) hsource (hrun hz)
    have hheap : as.heap m = source.heap w.machine :=
      (hsound.focus hx).heap_of_view hmade.owned (hsound.space _ hmem).laid hview
    rw [AddressSpace.heap?_some hz, hheap, ← AddressSpace.heap?_some hroot,
      ← World.heaps_eq hi] at hgets
    exact .inr hgets
  | move i j =>
    obtain ⟨source, destination, hi, hj, -, hdead, rfl⟩ := step_move hs
    obtain ⟨hilt, -⟩ := List.getElem?_eq_some_iff.mp hi
    obtain ⟨hjlt, -⟩ := List.getElem?_eq_some_iff.mp hj
    refine ⟨(World.heaps_eq hj).trans (AddressSpace.heap?_none hdead.root), ?_⟩
    rw [World.heaps_set (by rwa [List.length_set]), World.heaps_set hjlt, World.heaps_eq hi]
    rfl
  | moveNew i =>
    obtain ⟨source, hi, rfl⟩ := step_moveNew hs
    obtain ⟨hilt, -⟩ := List.getElem?_eq_some_iff.mp hi
    have hset : World.heaps ⟨w.machine, w.spaces.set i (addressSpaceMove source).2⟩ =
        Function.update w.heaps i none := World.heaps_set hilt
    rw [HeapStep, ← hset, World.heaps_eq hi]
    exact World.heaps_append
  | elfLoad file arguments =>
    rcases hsound.step_elfLoad hb.mem_kernel hs with ⟨hsame, hkeep, h'⟩ | ⟨as, t, m, rfl, hmade,
      hroot, hbrk⟩
    · refine .inl ?_
      rw [← List.append_nil l] at h'
      rw [← hsound.heaps_rest hl h' hkeep, ← hsame]
    · have hgets := hsound.heaps_create hl hb.mem_kernel hmade
      rw [AddressSpace.heap?_some hroot, heap_empty hbrk] at hgets
      exact .inr hgets

end

/-- **The history law of `brk`**: in every world reached through the reservations
a call of `brk` on a live struct keeps its law, every call is a step of the
heaps, and what stays on a heap keeps its bytes over every run from there. -/
theorem Boot.brkHistory (hb : Boot kernelRoot kernel held m₀)
    (hr : Reach (step kernelRoot) (fun _ op => op.raw = false) ⟨m₀, []⟩ w) :
    BrkHistory kernelRoot w where
  law as has hroot requested res as' m' hrun := by
    obtain ⟨P, shared, t, rest, objs, h, hres, hk⟩ := hb.space hr has
    exact h.brkLaw hres hroot hk hrun
  step op w' hop hs := hb.heapStep hr hop hs
  stays i a w' hrun := by
    induction hrun with
    | refl => exact fun _ => rfl
    | tail hrun hok hs ih =>
      intro hc'
      have hreach := hr.trans (hrun.mono fun _ _ h => h.1)
      rw [(hb.heapStep hreach hok.1 hs).stays hok.1 hok.2.1 hc' hok.2.2, ih hok.2.1]

/-- The two spaces of the small run have heaps of two pages. -/
theorem smallRun_brkHistory : ∃ w, runSteps (step 4096) ⟨smallMachine, []⟩ smallRun = some w ∧
    w.spaces.map (fun as => (as.root ≠ 0 : Bool)) = [true, true] ∧
    w.spaces.map (fun as => pageUp as.brkEnd) = [heapBase + 8192, heapBase + 8192] ∧
      BrkHistory 4096 w := by
  have hfacts : (runSteps (step 4096) ⟨smallMachine, []⟩ smallRun).map (fun w =>
      (w.spaces.map (fun as => (as.root ≠ 0 : Bool)), w.spaces.map fun as => pageUp as.brkEnd)) =
        some ([true, true], [heapBase + 8192, heapBase + 8192]) := by
    decide +kernel
  obtain ⟨w, hrun, heq⟩ := Option.map_eq_some_iff.mp hfacts
  obtain ⟨hlive, hend⟩ := Prod.mk.inj heq
  exact ⟨w, hrun, hlive, hend, smallMachine_boot.brkHistory
    (Reach.of_runSteps hrun (by simp [smallRun, Op.raw]))⟩

end

end MiniCore
