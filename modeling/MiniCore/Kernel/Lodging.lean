import MiniCore.Kernel.System

/-!
# MiniCore.Kernel.Lodging

Who holds which page while processes come and go.  `Housing` is the invariant
`Sound` of all address spaces with the two bags that change here: the kernel
stacks of the threads, and the heap objects of thread and process records.  One
lemma for each call of the allocators and for each life event of an address
space moves it along.
-/

namespace MiniCore

open Lib Multiset

variable {i : Nat} {P : PagePool} {shared : Nat → Nat} {objs : Multiset Nat} {m₀ m : Machine}
  {as : AddressSpace} {t : Radix}

section Bags

variable {α : Type} {l : List α} {x : α}

/-- Two entries that change places. -/
theorem perm_set_append (hi : l[i]? = some x) (y : α) : (l.set i y ++ [x]).Perm (l ++ [y]) := by
  obtain ⟨hlt, rfl⟩ := List.getElem?_eq_some_iff.mp hi
  have hset : (l.set i y).Perm (y :: l.eraseIdx i) := List.set_perm_cons_eraseIdx hlt y
  have hself : l.Perm (l[i] :: l.eraseIdx i) := (List.getElem_cons_eraseIdx_perm hlt).symm
  have hsplit : ∀ z w : α, (z :: l.eraseIdx i ++ [w]).Perm (w :: z :: l.eraseIdx i) :=
    fun z w => List.perm_append_singleton w _
  calc
    (l.set i y ++ [l[i]]).Perm (l[i] :: y :: l.eraseIdx i) :=
      (hset.append_right _).trans (hsplit _ _)
    List.Perm _ (y :: l[i] :: l.eraseIdx i) := .swap _ _ _
    List.Perm _ (l ++ [y]) := ((hself.append_right _).trans (hsplit _ _)).symm

end Bags

/-! ## The roots of the spaces -/

section Roots

variable {strict : Prop} {kept : Multiset Nat} {l : List (AddressSpace × Radix)}
  {x y : AddressSpace × Radix} {j : Nat}

variable (h : Sound P shared strict kept objs m₀ m l)

include h

theorem Sound.root_mem (hi : l[i]? = some x) (hx : x.1.root ≠ 0) : x.1.root ∈ x.2.frames := by
  have hown := h.focus hi
  rw [← hown.root_eq] at hx ⊢
  exact hown.tabled.rep.mem_root hx

/-- Two spaces have different roots. -/
theorem Sound.root_ne (hi : l[i]? = some x)
    (hj : l[j]? = some y) (hij : i ≠ j) (hx : x.1.root ≠ 0) (hy : y.1.root ≠ 0) :
    x.1.root ≠ y.1.root := by
  intro heq
  have hnd := Multiset.nodup_add.mp (h.focus hi).tabled.stock.nodup_rest
  have hmem : y ∈ l.eraseIdx i := List.mem_eraseIdx_iff_getElem?.mpr ⟨j, Ne.symm hij, hj⟩
  refine Multiset.disjoint_left.mp hnd.2.2 (h.root_mem hi hx) ?_
  rw [heq]
  have hshare : y.1.root ∈ share y := Multiset.mem_add.mpr (.inl (h.root_mem hj hy))
  have hshares := mem_of_le (mem_shares hmem) hshare
  exact Multiset.mem_add.mpr (.inr (Multiset.mem_add.mpr (.inl hshares)))

/-- No space has its root table in a page the kernel keeps. -/
theorem Sound.root_ne_kept (hi : l[i]? = some x)
    (hx : x.1.root ≠ 0) {p : Nat} (hp : p ∈ kept) : x.1.root ≠ p := by
  rintro rfl
  have hnd := Multiset.nodup_add.mp (h.focus hi).tabled.stock.nodup_rest
  exact Multiset.disjoint_left.mp hnd.2.2 (h.root_mem hi hx)
    (Multiset.mem_add.mpr (.inr (Multiset.mem_add.mpr (.inr hp))))

end Roots

section Calls

variable {rest : Multiset Nat}

/-- A call on the memory keeps the root. -/
theorem MemCall.run_root (call : MemCall) (h : Owned P m as t shared rest objs) (hl : Laid as) :
    (call.run as m).2.1.root = as.root := by
  cases call with
  | mmap address length prot mapflags file offset =>
    obtain ⟨t', hout⟩ := addressSpaceMmap_keeps h rfl
    exact hout.root
  | munmap start length =>
    obtain ⟨t', hout⟩ := addressSpaceMunmap_keeps h hl.areas_ok.apart rfl
    exact hout.root
  | brk requested =>
    obtain ⟨t', hout⟩ := addressSpaceBrk_keeps h hl rfl
    exact hout.root

theorem preserves_memCall {strict : Prop} (call : MemCall) :
    Preserves strict fun as m => (call.run as m).2 := by
  cases call with
  | mmap address length prot mapflags file offset => exact preserves_mmap _ _ _ _ _ _
  | munmap start length => exact preserves_munmap _ _
  | brk requested => exact preserves_brk _

end Calls

/-! ## Housing -/

variable {kernelRoot : Nat} {kernel : Radix} {held : Multiset Nat}

/-- The spaces `l`, the kernel stacks `kstacks` and the records `objs` account
for everything that was allocated since the start of the scheduler. -/
structure Housing (hb : Boot kernelRoot kernel held m₀) (kstacks objs : Multiset Nat) (m : Machine)
    (l : List (AddressSpace × Radix)) : Prop where
  sound : Sound hb.pool (fun i => entry m₀.mem kernelRoot i) True (kernel.frames + held + kstacks)
    (liveBag m₀.slabs + objs) m m l
  keeps : Keeps (kernel.frames + held) m₀ m

namespace Housing

variable {hb : Boot kernelRoot kernel held m₀} {kstacks kstacks' objs' : Multiset Nat}
  {m' : Machine} {l l' : List (AddressSpace × Radix)} {p : Nat}

variable {ok : Bool}

theorem mem_kept (hb : Boot kernelRoot kernel held m₀) :
    kernelRoot ∈ kernel.frames + held + kstacks :=
  Multiset.mem_add.mpr (.inl hb.mem_kernel)

/-- A space with a table joins, or the attempt to make it leaves nothing. -/
def Joins (hb : Boot kernelRoot kernel held m₀) (kstacks objs : Multiset Nat) (m : Machine)
    (l : List (AddressSpace × Radix)) (ok : Bool) (as : AddressSpace) : Prop :=
  (ok = false ∧ Housing hb kstacks objs m l) ∨
    (ok = true ∧ as.root ≠ 0 ∧ ∃ t, Housing hb kstacks objs m (l ++ [(as, t)]))

variable (h : Housing hb kstacks objs m l)

include h

/-- The stock and the heap change, the spaces do not. -/
theorem change (hst : Stocked hb.pool m' (shares l + (kernel.frames + held + kstacks')))
    (hlive : liveBag m'.slabs = recordsOf l + (liveBag m₀.slabs + objs'))
    (hk : Keeps (shares l + (kernel.frames + held)) m m') : Housing hb kstacks' objs' m' l where
  sound :=
    { stock := hst
      live := hlive
      space := fun x hx =>
        (h.sound.space x hx).keep hk ((mem_shares hx).trans (Multiset.le_add_right _ _))
      agrees := h.sound.agrees
      keeps := Keeps.refl _ _ }
  keeps := h.keeps.trans hk.part

omit h in
theorem base_le : shares l + (kernel.frames + held) ≤ shares l + (kernel.frames + held + kstacks) :=
  add_le_add_right (Multiset.le_add_right _ _) _

theorem of_same (hs : m.Same m') : Housing hb kstacks objs m' l :=
  h.change (h.sound.stock.of_same hs) (hs.slabs ▸ h.sound.live) (Keeps.of_same hs)

/-- An object more, or the call failed and nothing changed hands. -/
theorem kmalloc {size ptr : Nat} (hrun : MiniCore.kmalloc size m = (ptr, m')) :
    (ptr = 0 ∧ Housing hb kstacks objs m' l) ∨
    (ptr ≠ 0 ∧ Housing hb kstacks (ptr ::ₘ objs) m' l) := by
  have hspec := kmalloc_spec h.sound.stock size
  rw [hrun] at hspec
  rcases hspec with ⟨h0, hsame⟩ | ⟨hne, hst, hk, hlive⟩
  · exact .inl ⟨h0, h.of_same hsame⟩
  · refine .inr ⟨hne, h.change hst ?_ (hk.mono base_le)⟩
    rw [hlive, h.sound.live, add_cons, add_cons]

omit h in
theorem kfree {ptr : Nat} (h : Housing hb kstacks (ptr ::ₘ objs) m l) :
    Housing hb kstacks objs (MiniCore.kfree ptr m) l := by
  have hlive := h.sound.live
  rw [add_cons, add_cons] at hlive
  obtain ⟨hst, hlive', hk⟩ := kfree_spec h.sound.stock hlive
  exact h.change hst hlive' (hk.mono base_le)

/-- A stack page more, or none. -/
theorem pageAlloc (hrun : MiniCore.pageAlloc m = (p, m')) :
    (p = 0 ∧ Housing hb kstacks objs m' l) ∨ (p ≠ 0 ∧ Housing hb (p ::ₘ kstacks) objs m' l) := by
  have hspec := pageAlloc_spec h.sound.stock
  rw [hrun] at hspec
  rcases hspec with ⟨h0, hsame⟩ | ⟨hpage, hst, hmem, hslabs, hfrees⟩
  · exact .inl ⟨h0, h.of_same hsame⟩
  · refine .inr ⟨hpage.ne_zero, h.change ?_ (hslabs ▸ h.sound.live) (Keeps.of_eq hmem hfrees)⟩
    rwa [add_cons, add_cons]

omit h in
theorem pageFree (h : Housing hb (p ::ₘ kstacks) objs m l) :
    Housing hb kstacks objs (MiniCore.pageFree p m) l := by
  have hst := h.sound.stock
  rw [add_cons, add_cons] at hst
  obtain ⟨hst', -, hslabs, hk⟩ := pageFree_spec hst
  exact h.change hst' (hslabs ▸ h.sound.live) (hk.mono base_le)

/-! ### Spaces -/

theorem of_sound
    (hs : Sound hb.pool (fun i => entry m₀.mem kernelRoot i) True (kernel.frames + held + kstacks)
      (liveBag m₀.slabs + objs) m m' l') : Housing hb kstacks objs m' l' :=
  ⟨⟨hs.stock, hs.live, hs.space, hs.agrees, Keeps.refl _ _⟩,
    h.keeps.trans (hs.keeps.mono (Multiset.le_add_right _ _))⟩

/-- The kernel's root has the slots it had at the start. -/
theorem upper : ∀ i < 512, entry m.mem kernelRoot i = entry m₀.mem kernelRoot i :=
  fun _ hi => entry_congr hi (h.keeps.bytes _ hb.mem_kernel)

/-- An operation on one address space leaves the others housed. -/
theorem update {f : AddressSpace → Machine → AddressSpace × Machine}
    (hf : Preserves True f) (hi : l[i]? = some (as, t)) :
    ∃ t', Housing hb kstacks objs (f as m).2 (l.set i ((f as m).1, t')) := by
  have hmem := List.mem_of_getElem? hi
  obtain ⟨t', hown, hk, hlaid, hag⟩ := hf (h.sound.focus hi) (h.sound.space _ hmem).laid
    fun hs => h.sound.agrees hs _ hmem
  exact ⟨t', h.of_sound (h.sound.refocus hi hown hk hlaid hag)⟩

/-- A space made under the kernel's root joins. -/
theorem join (hown : Owned hb.pool m' as t (fun i => entry m.mem kernelRoot i)
      (shares l + (kernel.frames + held + kstacks)) (recordsOf l + (liveBag m₀.slabs + objs)))
    (hk : Keeps (shares l + (kernel.frames + held + kstacks)) m m') (hr : Reserved as) :
    Housing hb kstacks objs m' (l ++ [(as, t)]) :=
  h.of_sound (h.sound.add (hown.reshare h.upper) hk hr.laid fun _ => hr.agrees)

omit h in
/-- The last space is destroyed and leaves. -/
theorem destroyLast (h : Housing hb kstacks objs m (l ++ [(as, t)])) :
    Housing hb kstacks objs (addressSpaceDestroy as m).2 l := by
  have hi : (l ++ [(as, t)])[l.length]? = some (as, t) := by simp
  have herase : (l ++ [(as, t)]).eraseIdx l.length = l := by
    rw [List.eraseIdx_append_of_length_le Nat.le.refl]
    simp
  have hown := h.sound.focus hi
  rw [herase] at hown
  obtain ⟨-, -, -, hst, hlive, hk⟩ := addressSpaceDestroy_spec hown rfl
  refine ⟨⟨hst, hlive, fun x hx => ?_, ?_, Keeps.refl _ _⟩, ?_⟩
  · refine (h.sound.space x (List.mem_append_left _ hx)).keep hk ?_
    exact (mem_shares hx).trans (Multiset.le_add_right _ _)
  · exact fun hs x hx => h.sound.agrees hs x (List.mem_append_left _ hx)
  · refine h.keeps.trans (hk.mono ?_)
    exact (Multiset.le_add_right _ kstacks).trans (Multiset.le_add_left _ _)

omit h in
/-- A space changes places with the last one. -/
theorem swap {x y : AddressSpace × Radix} (h : Housing hb kstacks objs m (l ++ [y]))
    (hi : l[i]? = some x) : Housing hb kstacks objs m (l.set i y ++ [x]) := by
  have hperm := perm_set_append hi y
  refine h.of_sound (h.sound.rearrange ?_ ?_ fun z hz => .inl (hperm.mem_iff.mp hz))
  · exact (hperm.map share).sum_eq
  · exact (hperm.map fun x : AddressSpace × Radix => x.1.records).sum_eq

theorem init (hrun : addressSpaceInit kernelRoot m = (ok, as, m')) :
    Joins hb kstacks objs m' l ok as := by
  obtain ⟨hk, heq, hok, hfail, t, hown⟩ := addressSpaceInit_spec h.sound.stock h.sound.live
    (Multiset.mem_add.mpr (.inr (mem_kept hb))) hrun
  cases ok with
  | true => exact .inr ⟨rfl, hok.mp rfl, t, h.join hown hk (Reserved.fresh heq)⟩
  | false =>
    obtain ⟨-, hst, hlive⟩ := hfail rfl
    exact .inl ⟨rfl, h.change hst hlive (hk.mono base_le)⟩

theorem clone {source copy : AddressSpace} (hi : l[i]? = some (source, t)) (hroot : source.root ≠ 0)
    (hrun : addressSpaceClone source kernelRoot m = (ok, copy, m')) :
    Joins hb kstacks objs m' l ok copy := by
  have hmem := List.mem_of_getElem? hi
  have hlaid := (h.sound.space _ hmem).laid
  have hag := h.sound.agrees trivial _ hmem
  obtain ⟨hk, ⟨rfl, -, hst, hlive, -⟩ | ⟨rfl, hroot', hshape, t, hown⟩⟩ :=
    addressSpaceClone_spec h.sound.stock h.sound.live
      (Multiset.mem_add.mpr (.inr (mem_kept hb))) hrun
  · exact .inl ⟨rfl, h.change hst hlive (hk.mono base_le)⟩
  · refine .inr ⟨rfl, hroot', t, h.join hown hk ⟨hlaid.copy hshape hroot hroot', ?_⟩⟩
    exact hag.copy hshape.areas hshape.pages

/-- A loaded image joins with its address space; a failed load leaves nothing. -/
theorem elfLoad {file : Option File} {arguments : ExecArguments} {image : ExecImage}
    (hrun : MiniCore.elfLoad kernelRoot file arguments m = (ok, image, m')) :
    Joins hb kstacks objs m' l ok image.as := by
  obtain ⟨hk, ⟨rfl, hst, hlive⟩ | ⟨rfl, ⟨hroot, -⟩, hres, t, hown⟩⟩ :=
    elfLoad_spec h.sound.stock h.sound.live (Multiset.mem_add.mpr (.inr (mem_kept hb))) hrun
  · exact .inl ⟨rfl, h.change hst hlive (hk.mono base_le)⟩
  · exact .inr ⟨rfl, hroot, t, h.join hown hk hres⟩

end Housing

end MiniCore
