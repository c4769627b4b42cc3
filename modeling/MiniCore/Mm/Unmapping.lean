import MiniCore.Mm.Placement

/-!
# MiniCore.Mm.Unmapping

What `address_space_munmap` takes away (`src/mm/address_space.c`).

A call changes three things in three passes: the page table, the ledger and the
list of areas.  The reservations are compared as a set of addresses, each with
its kind and its flags, since the list is reordered when an area is cut in two.
On that set the call is the restriction to the addresses outside the range, as
it is on the ledger.  That calls can be repeated and exchanged follows.
-/

namespace MiniCore

open Lib

/-- The reserved addresses, each with the kind and the flags of its area. -/
def reservations (areas : List VmArea) : Set (Nat × AreaKind × Nat) :=
  {x | ∃ a ∈ areas, a.start ≤ x.1 ∧ x.1 < a.stop ∧ a.kind = x.2.1 ∧ a.flags = x.2.2}

/-- The parts of the address line outside `[start, stop)`. -/
def beyond (start stop : Nat) : Set (Nat × AreaKind × Nat) := {x | x.1 < start ∨ stop ≤ x.1}

/-- Two spaces with the same pages, translations, contents and reservations. -/
structure SameMapping (as as' : AddressSpace) (m m' : Machine) : Prop where
  reservations : reservations as'.areas = reservations as.areas
  pages : as'.pages = as.pages
  queries : ∀ b, vmQuery as'.root b m' = vmQuery as.root b m
  contents : ∀ p ∈ as.pages, Set.EqOn m'.mem m.mem (pageBytes p.physical)
  brk : as'.root = as.root ∧ as'.brkBase = as.brkBase ∧ as'.brkEnd = as.brkEnd

/-- `[start, stop)` has been taken out, and nothing else has changed. -/
structure MunmapDone (as as' : AddressSpace) (m m' : Machine) (start stop : Nat) : Prop where
  reservations : reservations as'.areas = reservations as.areas ∩ beyond start stop
  pages : as'.pages = as.pages.filter (outside start stop)
  gone : ∀ b, start ≤ b → b < stop → vmQuery as'.root b m' = none
  others : ∀ b, ¬(start ≤ vpn b * 4096 ∧ vpn b * 4096 < stop) →
    vmQuery as'.root b m' = vmQuery as.root b m
  contents : ∀ p ∈ as'.pages, Set.EqOn m'.mem m.mem (pageBytes p.physical)
  brk : as'.root = as.root ∧ as'.brkBase = as.brkBase ∧ as'.brkEnd = as.brkEnd

/-- What one call of `munmap` on `[start, stop)` promises. -/
structure MunmapLaw (as as' : AddressSpace) (m m' : Machine) (start stop : Nat) (allocs : List Bool)
    (res : Except Errno Nat) : Prop where
  perm : res = .error .perm ↔ ∃ a ∈ as.areas, start < a.stop ∧ a.start < stop ∧
    (a.kind = .elf ∨ a.kind = .stack ∨ a.kind = .heap)
  /-- at most the record of a middle cut is allocated -/
  single : allocs.length ≤ 1
  ok : res ≠ .error .perm → false ∉ allocs → res = .ok 0
  failed : ∀ e, res = .error e → SameMapping as as' m m'
  done : ∀ n, res = .ok n → MunmapDone as as' m m' start stop

/-- What `munmap` promises of a space: for one call, for the same call again, and
for two calls in either order. -/
structure MunmapLaws (as : AddressSpace) (m : Machine) : Prop where
  call : ∀ start length, start % 4096 = 0 → 0 < length → start + length ≤ 2 ^ 38 →
    ∀ res as' m', addressSpaceMunmap as start length m = (res, as', m') →
    MunmapLaw as as' m m' start (pageUp (start + length)) (munmapAllocs as start length m) res
  again : ∀ start length n as' m', addressSpaceMunmap as start length m = (.ok n, as', m') →
    ∃ as'' m'', addressSpaceMunmap as' start length m' = (.ok 0, as'', m'') ∧
      SameMapping as' as'' m' m''
  swap : ∀ start length start' length' n₁ n₂ n₃ n₄ as₁ as₂ as₃ as₄ m₁ m₂ m₃ m₄,
    addressSpaceMunmap as start length m = (.ok n₁, as₁, m₁) →
    addressSpaceMunmap as₁ start' length' m₁ = (.ok n₂, as₂, m₂) →
    addressSpaceMunmap as start' length' m = (.ok n₃, as₃, m₃) →
    addressSpaceMunmap as₃ start length m₃ = (.ok n₄, as₄, m₄) → SameMapping as₂ as₄ m₂ m₄

/-! ## The reservations -/

section

variable {areas areas' : List VmArea} {start stop ptr : Nat}

/-- Cutting a range out of the areas restricts what is reserved. -/
theorem reservations_cut (h : AreasOk areas) (hs : start % 4096 = 0) (he : stop % 4096 = 0)
    (hperm : areas'.Perm (areas.flatMap (cutArea start stop ptr))) :
    reservations areas' = reservations areas ∩ beyond start stop := by
  ext ⟨b, kind, flags⟩
  constructor
  · rintro ⟨c, hc, hlo, hhi, hkind, hflags⟩
    obtain ⟨a, ha, hca⟩ := List.mem_flatMap.mp (hperm.mem_iff.mp hc)
    have hpc := cutArea_piece hs he (h.area_ok a ha) hca
    have hbeside := hpc.beside
    refine ⟨⟨a, ha, hpc.start_ge.trans hlo, hhi.trans_le hpc.stop_le, ?_, ?_⟩, ?_⟩
    · rw [← hpc.kind, hkind]
    · rw [← hpc.flags, hflags]
    show b < start ∨ stop ≤ b
    dsimp only at hlo hhi
    omega
  · rintro ⟨⟨a, ha, hlo, hhi, hkind, hflags⟩, hout⟩
    obtain ⟨c, hc, hclo, hchi⟩ : ∃ c ∈ cutArea start stop ptr a, c.start ≤ b ∧ b < c.stop :=
      cutArea_remains hlo hhi hout
    have hpc := cutArea_piece hs he (h.area_ok a ha) hc
    exact ⟨c, hperm.mem_iff.mpr (List.mem_flatMap.mpr ⟨a, ha, hc⟩), hclo, hchi,
      hpc.kind.trans hkind, hpc.flags.trans hflags⟩

/-- An area of a nonempty range is seen in the reservations. -/
theorem meets_iff (h : AreasOk areas) (hlt : start < stop) :
    (∀ x ∈ reservations areas, x ∈ beyond start stop) ↔
      ∀ a ∈ areas, a.stop ≤ start ∨ stop ≤ a.start := by
  constructor
  · intro hall a ha
    by_contra hno
    have hne := (h.area_ok a ha).start_lt
    have hx := hall (max a.start start, a.kind, a.flags)
      ⟨a, ha, le_max_left _ _, by dsimp only; omega, rfl, rfl⟩
    have : max a.start start < start ∨ stop ≤ max a.start start := hx
    omega
  · rintro hall ⟨b, kind, flags⟩ ⟨a, ha, hlo, hhi, -, -⟩
    have hbeside := hall a ha
    show b < start ∨ stop ≤ b
    dsimp only at hlo hhi
    omega

theorem length_preflightAllocs (m : Machine) :
    ∀ {areas : List VmArea}, areas.Pairwise VmArea.Apart →
    (preflightAllocs start stop areas m).length ≤ 1
  | [], _ => Nat.zero_le _
  | a :: areas, hap => by
    rw [List.pairwise_cons] at hap
    have ih := length_preflightAllocs m hap.2
    rw [preflightAllocs]
    split
    · exact ih
    split
    · exact Nat.zero_le _
    split
    · next haround =>
      -- the middle cut: no other area meets the range
      have hbeside : ∀ b ∈ areas, b.stop ≤ start ∨ stop ≤ b.start := fun b hb =>
        VmArea.Around.beside haround (hap.1 b hb)
      split
      · exact Nat.le_refl _
      · rw [preflightAllocs_beside hbeside]
        exact Nat.le_refl _
    · exact ih

end

/-! ## The call -/

section Munmap

variable {P : PagePool} {m m' : Machine} {as as' : AddressSpace} {t t' kernel : Radix}
  {shared : Nat → Nat}
  {rest objs objs' : Multiset Nat} {start stop length : Nat}

variable (h : Owned P m as t shared rest objs)

include h

/-- Two spaces over one rest of memory are the same if their ledgers and areas are. -/
theorem Owned.sameMapping (h' : Owned P m' as' t' shared rest objs')
    (hk : KernelHalf kernel shared rest m) (hk' : KernelHalf kernel shared rest m')
    (hpages : as'.pages = as.pages) (hareas : reservations as'.areas = reservations as.areas)
    (hcontents : ∀ p ∈ as.pages, Set.EqOn m'.mem m.mem (pageBytes p.physical))
    (hbrk : as'.root = as.root ∧ as'.brkBase = as.brkBase ∧ as'.brkEnd = as.brkEnd) :
    SameMapping as as' m m' := by
  refine ⟨hareas, hpages, fun b => ?_, hcontents, hbrk⟩
  have hb : ¬(0 ≤ vpn b * 4096 ∧ vpn b * 4096 < 0) := by omega
  exact h.vmQuery_outside h' hk hk' hbrk.1 (fun p _ => by rw [hpages]) hb

theorem Owned.munmapDone (h' : Owned P m' as' t' shared rest objs)
    (hag : Agrees as.areas as.pages) (hk : KernelHalf kernel shared rest m)
    (hu : Unmapped start stop as as') (hstop : stop ≤ 2 ^ 38)
    (hkeep : Keeps (as'.physicals + rest) m m') : MunmapDone as as' m m' start stop := by
  obtain ⟨ptr, hperm⟩ := hu.cut
  have hroot : as'.root = as.root := by rw [hu.eq]
  have hpages : as'.pages = as.pages.filter (outside start stop) := by rw [hu.eq]
  refine ⟨reservations_cut hag.areas_ok hu.start_aligned hu.stop_aligned hperm, hpages,
    ?_, ?_, ?_, ?_⟩
  · intro b hlo hhi
    by_contra hne
    obtain ⟨r, hr⟩ := Option.ne_none_iff_exists'.mp hne
    obtain ⟨p, hp, -, ⟨hplo, hphi⟩, -⟩ := h'.vmQuery_some (by omega) hr
    rw [hpages, List.mem_filter, outside, Bool.or_eq_true, decide_eq_true_eq,
      decide_eq_true_eq] at hp
    have hal := hag.aligned p hp.1
    have hsa := hu.start_aligned
    omega
  · intro b hb
    refine h.vmQuery_outside h' hk (hk.keep hkeep.part) hroot (fun p hp => ?_) hb
    rw [hpages, List.mem_filter, outside, Bool.or_eq_true, decide_eq_true_eq, decide_eq_true_eq]
    exact ⟨fun hin => ⟨hin, by omega⟩, And.left⟩
  · exact fun p hp => hkeep.page hp
  · rw [hu.eq]
    exact ⟨rfl, rfl, rfl⟩

omit h in
theorem any_pinned_iff {areas : List VmArea} : areas.any (View.pinned start stop) = true ↔
    ∃ a ∈ areas, start < a.stop ∧ a.start < stop ∧
    (a.kind = .elf ∨ a.kind = .stack ∨ a.kind = .heap) := by
  rw [List.any_eq_true]
  refine exists_congr fun a => and_congr_right fun _ => ?_
  rw [pinned_eq_true, not_or, not_le, not_le, and_assoc]
  cases a.kind <;> simp

variable (hag : Agrees as.areas as.pages)

include hag

variable (hk : KernelHalf kernel shared rest m)

include hk

/-- **`address_space_munmap`** keeps its law on every sound space. -/
theorem Owned.munmapLaw (hstart : start % 4096 = 0) (hlen : 0 < length)
    (hend : start + length ≤ 2 ^ 38) {res : Except Errno Nat}
    (hrun : addressSpaceMunmap as start length m = (res, as', m')) :
    MunmapLaw as as' m m' start (pageUp (start + length)) (munmapAllocs as start length m) res := by
  obtain ⟨t', hout⟩ := addressSpaceMunmap_keeps h hag.areas_ok.apart hrun
  obtain ⟨hno, hyes⟩ := munmap_view h hag hrun
  have hgood : ¬(pageOffset start ≠ 0 ∨ length = 0 ∨ userEnd ≤ start ∨
      userEnd - start < length) := by
    rw [pageOffset_eq]
    unfold userEnd
    omega
  have hstop : pageUp (start + length) ≤ 2 ^ 38 := by
    rw [pageUp_eq]
    omega
  have hbare : (as.view m.mem).areas.any (View.pinned start (pageUp (start + length))) =
      as.areas.any (View.pinned start (pageUp (start + length))) := any_pinned_bare
  have hallocs : munmapAllocs as start length m = preflightAllocs start (pageUp (start + length))
    as.areas m :=
    if_neg hgood
  have hlt : start < pageUp (start + length) := by
    rw [pageUp_eq]
    omega
  obtain ⟨hpinned, -⟩ := munmapPreflight_view hlt as.areas hag.areas_ok.apart m
  have hres : if as.areas.any (View.pinned start (pageUp (start + length))) = true then res =
    .error .perm
      else if false ∈ munmapAllocs as start length m then res = .error .nomem else res = .ok 0 := by
    simp only [View.munmap, if_neg hgood, hbare] at hyes
    by_cases hany : as.areas.any (View.pinned start (pageUp (start + length))) = true
    · have hnone : false ∉ munmapAllocs as start length m := by
        rw [hallocs, (hpinned hany).1]
        exact List.not_mem_nil
      rw [if_pos hany] at hyes ⊢
      exact congrArg Prod.fst (hyes hnone)
    · rw [if_neg hany] at hyes ⊢
      split
      · next hf => exact (hno hf).1
      · next hf => exact congrArg Prod.fst (hyes hf)
  refine ⟨?_, ?_, ?_, ?_, ?_⟩
  · rw [← any_pinned_iff]
    constructor
    · rintro rfl
      by_contra hany
      rw [if_neg hany] at hres
      split at hres <;> cases hres
    · intro hany
      rwa [if_pos hany] at hres
  · rw [hallocs]
    exact length_preflightAllocs m hag.areas_ok.apart
  · intro hperm hf
    rw [if_neg hf] at hres
    split at hres
    · exact absurd hres hperm
    · exact hres
  · intro e he
    obtain ⟨has, ht, hkeep⟩ := hout.error e he hag
    have hown := hout.owned
    rw [has] at hown ⊢
    exact h.sameMapping hown hk (hk.keep hout.keeps) rfl rfl (fun p hp => hkeep.page hp)
      ⟨rfl, rfl, rfl⟩
  · intro n hn
    obtain ⟨hu, hkeep⟩ := hout.ok n hn
    exact h.munmapDone hout.owned hag hk hu hstop hkeep

omit hk in
omit hag in
omit h in
/-- A call that succeeds has good arguments. -/
theorem munmap_args {n : Nat} (hrun : addressSpaceMunmap as start length m = (.ok n, as', m')) :
    start % 4096 = 0 ∧ 0 < length ∧ start + length ≤ 2 ^ 38 := by
  unfold addressSpaceMunmap at hrun
  split at hrun
  · cases hrun
  next hgood =>
  rw [pageOffset_eq] at hgood
  unfold userEnd at hgood
  omega

/-- After a call that succeeds the space is sound again. -/
theorem Owned.munmap {n : Nat} (hrun : addressSpaceMunmap as start length m = (.ok n, as', m')) :
    ∃ t', Owned P m' as' t' shared rest objs ∧ Agrees as'.areas as'.pages ∧
      KernelHalf kernel shared rest m' ∧ MunmapDone as as' m m' start
      (pageUp (start + length)) := by
  obtain ⟨hstart, hlen, hend⟩ := munmap_args hrun
  obtain ⟨t', hout⟩ := addressSpaceMunmap_keeps h hag.areas_ok.apart hrun
  obtain ⟨hu, -⟩ := hout.ok n rfl
  obtain ⟨ptr, hperm⟩ := hu.cut
  have hdone := (h.munmapLaw hag hk hstart hlen hend hrun).done n rfl
  refine ⟨t', hout.owned, ?_, hk.keep hout.keeps, hdone⟩
  rw [hdone.pages]
  exact hag.cut hu.start_aligned hu.stop_aligned hu.start_lt hperm

theorem Owned.munmap_again {n : Nat}
    (hrun : addressSpaceMunmap as start length m = (.ok n, as', m')) :
    ∃ as'' m'', addressSpaceMunmap as' start length m' = (.ok 0, as'', m'') ∧
      SameMapping as' as'' m' m'' := by
  obtain ⟨hstart, hlen, hend⟩ := munmap_args hrun
  obtain ⟨t', h', hag', hk', hdone⟩ := h.munmap hag hk hrun
  have hlt : start < pageUp (start + length) := by
    rw [pageUp_eq]
    omega
  have hbeside : ∀ a ∈ as'.areas, a.stop ≤ start ∨ pageUp (start + length) ≤ a.start := by
    refine (meets_iff hag'.areas_ok hlt).mp fun x hx => ?_
    rw [hdone.reservations] at hx
    exact hx.2
  rcases hrun' : addressSpaceMunmap as' start length m' with ⟨res, as'', m''⟩
  have hlaw := h'.munmapLaw hag' hk' hstart hlen hend hrun'
  obtain rfl : res = .ok 0 := by
    refine hlaw.ok (fun hperm => ?_) ?_
    · obtain ⟨a, ha, hlo, hhi, -⟩ := hlaw.perm.mp hperm
      have := hbeside a ha
      omega
    · unfold munmapAllocs
      rw [preflightAllocs_beside hbeside, ite_self]
      exact List.not_mem_nil
  obtain ⟨t'', h'', -, hk'', hdone'⟩ := h'.munmap hag' hk' hrun'
  have hpages : as''.pages = as'.pages := by
    rw [hdone'.pages, hdone.pages, List.filter_filter]
    simp only [Bool.and_self]
  refine ⟨as'', m'', rfl, h'.sameMapping h'' hk' hk'' hpages ?_ ?_ hdone'.brk⟩
  · rw [hdone'.reservations, hdone.reservations, Set.inter_assoc, Set.inter_self]
  · exact fun p hp => hdone'.contents p (hpages ▸ hp)

theorem Owned.munmap_swap {start' length' n1 n2 n3 n4 : Nat}
    {as1 as2 as3 as4 : AddressSpace} {m1 m2 m3 m4 : Machine}
    (hrun1 : addressSpaceMunmap as start length m = (.ok n1, as1, m1))
    (hrun2 : addressSpaceMunmap as1 start' length' m1 = (.ok n2, as2, m2))
    (hrun3 : addressSpaceMunmap as start' length' m = (.ok n3, as3, m3))
    (hrun4 : addressSpaceMunmap as3 start length m3 = (.ok n4, as4, m4)) :
    SameMapping as2 as4 m2 m4 := by
  obtain ⟨t1, h1, hag1, hk1, hdone1⟩ := h.munmap hag hk hrun1
  obtain ⟨t2, h2, -, hk2, hdone2⟩ := h1.munmap hag1 hk1 hrun2
  obtain ⟨t3, h3, hag3, hk3, hdone3⟩ := h.munmap hag hk hrun3
  obtain ⟨t4, h4, -, hk4, hdone4⟩ := h3.munmap hag3 hk3 hrun4
  have hpages : as4.pages = as2.pages := by
    rw [hdone4.pages, hdone3.pages, hdone2.pages, hdone1.pages, List.filter_filter,
      List.filter_filter]
    simp only [Bool.and_comm]
  refine h2.sameMapping h4 hk2 hk4 hpages ?_ ?_ ?_
  · rw [hdone4.reservations, hdone3.reservations, hdone2.reservations, hdone1.reservations,
      Set.inter_right_comm]
  · intro p hp
    have hp4 : p ∈ as4.pages := hpages ▸ hp
    have hp1 : p ∈ as1.pages := (List.mem_filter.mp (hdone2.pages ▸ hp)).1
    have hp3 : p ∈ as3.pages := (List.mem_filter.mp (hdone4.pages ▸ hp4)).1
    -- both ways back to the first memory
    exact ((hdone4.contents p hp4).trans (hdone3.contents p hp3)).trans
      ((hdone2.contents p hp).trans (hdone1.contents p hp1)).symm
  · obtain ⟨hr1, hb1, he1⟩ := hdone1.brk
    obtain ⟨hr2, hb2, he2⟩ := hdone2.brk
    obtain ⟨hr3, hb3, he3⟩ := hdone3.brk
    obtain ⟨hr4, hb4, he4⟩ := hdone4.brk
    refine ⟨?_, ?_, ?_⟩
    · rw [hr4, hr3, hr2, hr1]
    · rw [hb4, hb3, hb2, hb1]
    · rw [he4, he3, he2, he1]

theorem Owned.lawful_munmaps
    : MunmapLaws as m where
  call _ _ hstart hlen hend _ _ _ hrun := h.munmapLaw hag hk hstart hlen hend hrun
  again _ _ _ _ _ hrun := h.munmap_again hag hk hrun
  swap _ _ _ _ _ _ _ _ _ _ _ _ _ _ _ _ hrun1 hrun2 hrun3 hrun4 :=
    h.munmap_swap hag hk hrun1 hrun2 hrun3 hrun4

end Munmap

end MiniCore
