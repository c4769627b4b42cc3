import MiniCore.Mm.UserCopy

/-!
# MiniCore.Mm.ViewCopies

`address_space_clone` and `address_space_copy` on views
(`src/mm/address_space.c`): a clone shows what its source shows, on pages of its
own, and a copy changes the bytes it names.
-/

namespace MiniCore

open Lib

/-! ## Cloning -/

section Clone

variable {P : PagePool} {m m' : Machine} {as as' source : AddressSpace} {t : Radix}
  {shared : Nat → Nat} {rest objs : Multiset Nat}

/-- Areas of the same shape look the same. -/
theorem bare_of_shape {areas areas' : List VmArea}
    (h : areas'.map VmArea.shape = areas.map VmArea.shape) :
    areas'.map VmArea.bare = areas.map VmArea.bare := by
  have hbare :
    VmArea.bare = (fun s : Nat × Nat × Nat × AreaKind => ⟨0, s.1, s.2.1, s.2.2.1, s.2.2.2⟩) ∘
      VmArea.shape := rfl
  rw [hbare, ← List.map_map, ← List.map_map, h]

/-- **The loop over the ledger** copies what the pages show. -/
theorem clonePages_view : ∀ (pages : List UserPage) (as : AddressSpace) (m : Machine) (t : Radix),
    Owned P m as t shared rest objs → (∀ p ∈ pages, p.physical ∈ rest) →
    ∀ {as' m'}, clonePages pages as m = (true, as', m') →
    as'.pages.map (UserPage.image m'.mem) =
      as.pages.map (UserPage.image m.mem) ++ pages.map (UserPage.image m.mem)
  | [], as, m, t, h, _, as', m', hrun => by
    cases hrun
    simp
  | p :: pages, as, m, t, h, hrest, as', m', hrun => by
    rcases hadd : addressSpaceAddPage as p.virtualAddress p.flags
        (some fun mem i => mem (p.physical + i)) pageSize m with ⟨b, as1, m1⟩
    obtain ⟨hk1, hcase⟩ := addressSpaceAddPage_spec h hadd
    rw [clonePages, hadd] at hrun
    rcases hcase with ⟨rfl, rfl, -⟩ | ⟨rfl, t1, page, h1, hadded, mid, hmid, hbytes⟩
    · cases hrun
    have hcopy : ∀ i : Fin 4096, m1.mem (page.physical + i) = m.mem (p.physical + i) := by
      intro i
      rw [hbytes i i.isLt]
      have hkept := hmid.bytes p.physical (Multiset.mem_add.mpr (.inr (hrest p List.mem_cons_self)))
      exact (if_pos i.isLt).trans (hkept (mem_pageBytes i.isLt))
    have hview := view_push hk1 hcopy
    have hlater : pages.map (UserPage.image m1.mem) = pages.map (UserPage.image m.mem) :=
      images_congr hk1 fun q hq => Multiset.mem_add.mpr (.inr (hrest q (List.mem_cons_of_mem _ hq)))
    rw [clonePages_view pages as1 m1 t1 h1 (fun q hq => hrest q (List.mem_cons_of_mem _ hq)) hrun,
      hadded.push, hview, hlater, hadded.at_address, hadded.with_flags, List.map_cons,
      List.append_assoc]
    rfl

/-- **A clone shows what its source shows.** -/
theorem addressSpaceClone_view (hst : Stocked P m rest) (hlive : liveBag m.slabs = objs)
    {kernelRoot : Nat} (hk : kernelRoot ∈ rest) (hsource : ∀ p ∈ source.pages, p.physical ∈ rest)
    (hrun : addressSpaceClone source kernelRoot m = (true, as', m')) :
    as'.view m'.mem = source.view m.mem := by
  rcases hinit : addressSpaceInit kernelRoot m with ⟨b, as0, m0⟩
  obtain ⟨hk0, heq, -, -, t0, h0⟩ := addressSpaceInit_spec hst hlive hk hinit
  rw [addressSpaceClone, hinit] at hrun
  cases b with
  | false => cases hrun
  | true =>
    have hown : Owned P m0 { as0 with brkBase := source.brkBase, brkEnd := source.brkEnd } t0
        (fun i => entry m.mem kernelRoot i) rest objs :=
      h0.of_areas h0.tabled h0.live
    rcases hareas : cloneAreas source.areas
        { as0 with brkBase := source.brkBase, brkEnd := source.brkEnd } m0 with ⟨b, as1, m1⟩
    obtain ⟨hk1, h1, new, rfl, hnew⟩ := cloneAreas_spec source.areas _ m0 hown (by rw [heq]) hareas
    simp only [hareas] at hrun
    cases b with
    | false => cases hrun
    | true =>
      rcases hpages : clonePages source.pages { as0 with
          areas := as0.areas ++ new, brkBase := source.brkBase, brkEnd :=
          source.brkEnd } m1 with ⟨b, as2, m2⟩
      simp only [hpages] at hrun
      cases b with
      | false => cases hrun
      | true =>
        cases hrun
        have himages := clonePages_view source.pages _ m1 t0 h1 hsource hpages
        obtain ⟨-, t2, new', -, rfl, -⟩ := clonePages_spec source.pages _ m1 t0 h1 hpages
        have hnoa : as0.areas = [] := by rw [heq]
        have hnop : as0.pages = [] := by rw [heq]
        refine View.ext ?_ ?_ rfl rfl
        · show (as0.areas ++ new).map VmArea.bare = _
          rw [hnoa, List.nil_append]
          exact bare_of_shape (hnew rfl)
        · refine himages.trans ?_
          rw [hnop, List.map_nil, List.nil_append]
          exact images_congr (hk0.trans hk1) hsource

end Clone

end MiniCore
