import MiniCore.Mm.Areas

/-!
# MiniCore.Mm.Mapping

`mmap`, `munmap`, `brk` and `clone`: what each does to the struct, and that a
call that fails does nothing.

Every lemma has two halves.  The first needs `Owned` only: the call leads to an
owned space and keeps the pages of everybody else.  The second describes the
struct it leaves; where a rollback relies on the ledger lying inside the
reservations, it assumes `Agrees`.
-/

namespace MiniCore

open Lib List Multiset

variable {P : PagePool} {m m' : Machine} {as as' : AddressSpace} {t : Radix} {shared : Nat → Nat}
  {rest objs : Multiset Nat} {res : Except Errno Nat} {stop : Nat}

section Mmap

variable {areas : List VmArea} {address length mapflags offset prot : Nat}

theorem firstFit_some : ∀ {n address a : Nat},
    firstFit areas length n address = some a →
    (∃ i < n, a = address + 4096 * i) ∧ vacant areas a (a + length) = true
  | 0, _, _, h => by cases h
  | n + 1, address, a, h => by
    rw [firstFit] at h
    split at h
    · next hv =>
      cases h
      exact ⟨⟨0, Nat.succ_pos n, rfl⟩, hv⟩
    · obtain ⟨⟨i, hi, rfl⟩, hv⟩ := firstFit_some h
      exact ⟨⟨i + 1, Nat.succ_lt_succ hi, by unfold pageSize; omega⟩, hv⟩

/-- A place `mmap` finds is aligned, in the window and vacant. -/
theorem mmapPlace_ok {a : Nat} (h : mmapPlace areas address length mapflags = .ok a)
    (hal : address % 4096 = 0) (hlen : length ≤ maxMapping) (hmul : length % 4096 = 0) :
    a % 4096 = 0 ∧ mmapBase ≤ a ∧ a + length ≤ mmapEnd ∧ vacant areas a (a + length) = true := by
  have hbase : mmapBase = 0x10000000 := rfl
  have hend : mmapEnd = 0x20000000 := rfl
  have hmax : maxMapping = 0x1000000 := rfl
  unfold mmapPlace at h
  split at h
  · split at h
    · cases h
    · split at h
      · cases h
      · next hin hv =>
        cases h
        exact ⟨hal, by omega, by omega, by simpa using hv⟩
  split at h
  · split at h
    · cases h
    · next found hfit =>
      cases h
      obtain ⟨⟨i, hi, hai⟩, hv⟩ := firstFit_some hfit
      rw [show pageSize = 4096 by rfl] at hi
      exact ⟨by omega, by omega, by omega, hv⟩
  · next hin =>
    cases h
    simp only [not_or, not_lt, Bool.not_eq_false] at hin
    exact ⟨hal, by omega, by omega, hin.2.2⟩

theorem lt_of_and_seven {n : Nat} (h : n &&& 7 = n) : n < 8 :=
  h ▸ Nat.lt_of_le_of_lt Nat.and_le_right (by decide)

/-- A protection that passes the first checks gives user flags without W^X
conflict, and those of a leaf if there is one. -/
theorem flagsOk_protFlags (h : ¬ mmapInvalid length prot mapflags offset) :
    FlagsOk (protFlags prot) ∧
    (mapped (protFlags prot) = true → validLeafFlags (protFlags prot) = true) := by
  simp only [mmapInvalid, not_or] at h
  obtain ⟨_, _, h7, hwr, hwx, _⟩ := h
  have hlt : prot < 8 := lt_of_and_seven (not_not.mp h7)
  have hall : ∀ p < 8, (p &&& protWrite ≠ 0 ∧ p &&& protRead = 0) ∨
      p &&& (protWrite ||| protExec) = protWrite ||| protExec ∨
      protFlags p &&& pteU ≠ 0 ∧ (protFlags p &&& pteW = 0 ∨ protFlags p &&& pteX = 0) ∧
        (protFlags p &&& pteW ≠ 0 → protFlags p &&& pteR ≠ 0) ∧
        (mapped (protFlags p) = true → validLeafFlags (protFlags p) = true) := by decide
  rcases hall prot hlt with hbad | hbad | ⟨hu, hx, hr, hvalid⟩
  · exact absurd hbad hwr
  · exact absurd hbad hwx
  · exact ⟨⟨hu, hx, hr⟩, hvalid⟩

theorem pageCount_run {a : Nat} (hmul : length % 4096 = 0) :
    4096 * pageCount a (a + length) = length := by
  unfold pageCount pageMask pageSize
  omega

/-- Take the last reservation back. -/
theorem Owned.unreserve {a : VmArea} (h : Owned P m (as.reserve a) t shared rest objs) :
    Owned P (kfree a.ptr m) as t shared rest objs ∧
      Keeps (as.physicals + rest) m (kfree a.ptr m) := by
  have hlive := h.live
  rw [AddressSpace.records_reserve, cons_add, ← add_cons] at hlive
  exact Owned.freeRecord (h.of_areas h.tabled hlive)

/-- Rolling a run back in a vacant range leaves the ledger of before. -/
theorem filter_outside_run {pages new : List UserPage} (h : Agrees areas pages)
    {start stop flags : Nat} (hv : vacant areas start stop = true) (hrun : Run start flags new)
    (hlen : start + 4096 * new.length ≤ stop) :
    (pages ++ new).filter (outside start stop) = pages := by
  have hold : ∀ p ∈ pages, outside start stop p = true := by
    intro p hp
    simpa [outside] using h.outside_of_vacant hv hp
  have hnew : ∀ p ∈ new, outside start stop p ≠ true := by
    intro p hp
    obtain ⟨i, hi, hpi⟩ := hrun.mem_range hp
    intro hout
    simp only [outside, Bool.or_eq_true, decide_eq_true_eq] at hout
    omega
  rw [filter_append, List.filter_eq_self.mpr hold, List.filter_eq_nil_iff.mpr hnew,
    append_nil]

variable (h : Owned P m as t shared rest objs)

include h

/-- The outcome of a call that either does `Done` or does nothing.  A call that
rolls back relies on `Agrees` to leave the ledger alone. -/
structure Outcome (P : PagePool) (m m' : Machine) (as as' : AddressSpace) (t : Radix)
    (shared : Nat → Nat) (rest objs : Multiset Nat) (res : Except Errno Nat)
    (Done : Nat → Prop) (t' : Radix) : Prop where
  owned : Owned P m' as' t' shared rest objs
  keeps : Keeps rest m m'
  ok : ∀ n, res = .ok n → Done n
  root : as'.root = as.root
  kept : ∀ e, res = .error e → as' = { as with pages := as'.pages }
  error : ∀ e, res = .error e → Agrees as.areas as.pages →
    as' = as ∧ t' = t ∧ Keeps (as.physicals + rest) m m'

omit h in
/-- A call that failed and took back what it had done. -/
theorem Outcome.undone {t' : Radix} {pages : List UserPage}
    (h : Owned P m' { as with pages := pages } t' shared rest objs) (hk : Keeps rest m m')
    (hback : Agrees as.areas as.pages → pages = as.pages ∧ t' = t ∧
      Keeps (as.physicals + rest) m m')
    (e : Errno) (Done : Nat → Prop) :
    Outcome P m m' as { as with pages := pages } t shared rest objs (.error e) Done t' := by
  refine ⟨h, hk, by simp, rfl, fun _ _ => rfl, fun _ _ hag => ?_⟩
  obtain ⟨rfl, hrest⟩ := hback hag
  exact ⟨rfl, hrest⟩

omit h in
/-- A call that failed and left the struct and its pages alone. -/
theorem Outcome.failed (h : Owned P m' as t shared rest objs)
    (hk : Keeps (as.physicals + rest) m m') (e : Errno) (Done : Nat → Prop) :
    Outcome P m m' as as t shared rest objs (.error e) Done t :=
  ⟨h, hk.part, by simp, rfl, fun _ _ => rfl, fun _ _ _ => ⟨rfl, rfl, hk⟩⟩

/-- A call refused before it did anything. -/
theorem Outcome.refused (e : Errno) (Done : Nat → Prop) :
    Outcome P m m as as t shared rest objs (.error e) Done t :=
  .failed h (Keeps.refl _ m) e Done

omit h in
theorem Outcome.imp {Done Done' : Nat → Prop} {t' : Radix}
    (h : Outcome P m m' as as' t shared rest objs res Done t') (himp : ∀ n, Done n → Done' n) :
    Outcome P m m' as as' t shared rest objs res Done' t' :=
  ⟨h.owned, h.keeps, fun n hn => himp n (h.ok n hn), h.root, h.kept, h.error⟩

/-- What a run of new pages leads to, when `m₀` has the table and the ledger of
`m`.  If it breaks off, removing the range gives both back. -/
theorem Owned.addRun {m₀ m₁ : Machine} {as₁ : AddressSpace} {objs' : Multiset Nat} {ok : Bool}
    {start stop flags : Nat} {load : Nat → UserPage → Machine → Option Machine} (hload : Fills load)
    (h₀ : Owned P m₀ { as with areas := areas } t shared rest objs')
    (hk : Keeps (as.physicals + rest) m m₀) (hv : vacant as.areas start stop = true)
    (hcount : start + 4096 * pageCount start stop = stop)
    (hrun : addPages flags load (pageCount start stop) start { as with areas := areas } m₀ =
      (ok, as₁, m₁)) :
    (ok = true ∧ ∃ t₁ new, as₁ = { as with areas := areas, pages := as.pages ++ new } ∧
      Owned P m₁ as₁ t₁ shared rest objs' ∧ Keeps (as.physicals + rest) m m₁ ∧ Run start flags new ∧
      start + 4096 * new.length = stop) ∨
    (ok = false ∧ ∃ t₂ pages m₂,
      removePages as₁ start stop m₁ = ({ as with areas := areas, pages := pages }, m₂) ∧
      Owned P m₂ { as with areas := areas, pages := pages } t₂ shared rest objs' ∧ Keeps rest m m₂ ∧
      (Agrees as.areas as.pages → pages = as.pages ∧ t₂ = t ∧
      Keeps (as.physicals + rest) m m₂)) := by
  obtain ⟨t₁, new, rfl, h₁, hle₁, hk₁, hnew, hlen, hall⟩ := addPages_spec hload _ _ _ _ _ h₀ hrun
  have hk' : Keeps (as.physicals + rest) m m₁ := hk.trans hk₁
  cases ok with
  | true => exact .inl ⟨rfl, t₁, new, rfl, h₁, hk', hnew, by have := hall rfl; omega⟩
  | false =>
    rcases hrem : removePages { as with areas := areas, pages := as.pages ++ new } start stop m₁
      with ⟨as₂, m₂⟩
    obtain ⟨rfl, t₂, h₂, hle₂, hk₂⟩ := removePages_spec h₁ hrem
    refine .inr ⟨rfl, t₂, _, m₂, rfl, h₂, hk'.part.trans hk₂.part, fun hag => ?_⟩
    have hpages := filter_outside_run hag hv hnew (show start + 4096 * new.length ≤ stop by omega)
    simp only [hpages] at h₂ hk₂
    refine ⟨hpages, ?_, hk'.trans hk₂⟩
    exact Radix.Le.eq_of_leaf_eq h₂.tabled.rep.wf h.tabled.rep.wf h₂.tight h.tight hle₂ hle₁
      (h₂.leaves.leaf_eq h.leaves)

omit h in
/-- The length that `mmap` works with. -/
theorem pageUp_of_valid (h : ¬ mmapInvalid length prot mapflags offset) :
    0 < pageUp length ∧ pageUp length ≤ maxMapping ∧ pageUp length % 4096 = 0 := by
  simp only [mmapInvalid, not_or, not_lt] at h
  have hpos := h.1
  have hle := h.2.1
  have hmax : maxMapping = 4096 * 4096 := rfl
  rw [pageUp_eq]
  omega

/-- **`address_space_mmap`** adds one area with its pages and leaves the other
pages alone, or does nothing. -/
theorem addressSpaceMmap_keeps {file : Option File}
    (hrun : addressSpaceMmap as address length prot mapflags file offset m = (res, as', m')) :
    ∃ t', Outcome P m m' as as' t shared rest objs res (fun n => (∃ a new, n = a.start ∧
      Mapped as as' a new) ∧ Keeps (as.physicals + rest) m m') t' := by
  unfold addressSpaceMmap at hrun
  split at hrun
  · cases hrun
    exact ⟨t, Outcome.refused h _ _⟩
  next hvalid =>
  split at hrun
  · cases hrun
    exact ⟨t, Outcome.refused h _ _⟩
  dsimp only at hrun
  split at hrun
  · cases hrun
    exact ⟨t, Outcome.refused h _ _⟩
  split at hrun
  · cases hrun
    exact ⟨t, Outcome.refused h _ _⟩
  next hal =>
  split at hrun
  · cases hrun
    exact ⟨t, Outcome.refused h _ _⟩
  next place hplace =>
  obtain ⟨-, hlen, hmul⟩ := pageUp_of_valid hvalid
  have hal' : address % 4096 = 0 := not_not.mp hal
  obtain ⟨hpal, hbase, _, hvac⟩ := mmapPlace_ok hplace hal' hlen hmul
  generalize hkind : (if mapflags &&& mapAnonymous ≠ 0 then AreaKind.anon else AreaKind.file) = kind
    at hrun
  have hkind' : kind = .anon ∨ kind = .file := by
    rw [← hkind]
    split <;> simp
  rcases hres : addressSpaceReserve as place (place + pageUp length)
      (protFlags prot) kind m with ⟨b, as1, m1⟩
  obtain ⟨hk1, h1, hcase⟩ := addressSpaceReserve_spec h hres
  rw [hres] at hrun
  rcases hcase with ⟨rfl, rfl⟩ | ⟨rfl, ⟨ptr, rfl⟩, hlt, _, hstop, hend, _⟩
  · cases hrun
    exact ⟨t, .failed h1 hk1 _ _⟩
  generalize ha : (⟨ptr, place, place + pageUp length, protFlags prot, kind⟩ : VmArea) = a at *
  rcases hadd : addPages (protFlags prot)
      (mmapLoad mapflags file offset place) (pageCount place (place + pageUp length)) place
      (as.reserve a) m1 with ⟨b, as2, m2⟩
  have hcount := pageCount_run (a := place) hmul
  simp only [hadd] at hrun
  rcases h.addRun (fills_mmapLoad mapflags file offset place) h1 hk1 hvac (by omega) hadd with
    ⟨rfl, t2, new, rfl, h2, hk2, hnew, hlen⟩ | ⟨rfl, t2, pages, m3, hrem, h2, hk2, hback⟩
  · cases hrun
    refine ⟨t2, h2, hk2.part, ?_, rfl, by simp, by simp⟩
    intro n hn
    cases hn
    have hb : a.backed = place := by
      rw [← ha]
      rcases hkind' with rfl | rfl <;> rfl
    refine ⟨⟨a, new, ha ▸ rfl, rfl, ?_, ha ▸ (flagsOk_protFlags hvalid).1, ?_, ?_, ha ▸ hvac,
      ?_, ?_⟩, hk2⟩
    · rw [← ha]
      exact ⟨hlt, hpal, hstop, hend⟩
    · rw [← ha]
      rcases hkind' with rfl | rfl <;> simp
    · rw [← ha]
      refine .inr (Nat.le_trans ?_ hbase)
      decide
    · rw [hb]
      exact ha ▸ hnew
    · rw [hb, ← ha]
      exact hlen
  · -- undo the reservation too
    have hlast : (as.areas ++ [a]).getLast? = some a := by simp
    simp only [hrem, hlast, dropLast_concat, Option.map_some, Option.getD_some,
      Prod.mk.injEq] at hrun
    obtain ⟨rfl, rfl, rfl⟩ := hrun
    have hreserved : Owned P m3 (({ as with pages := pages } : AddressSpace).reserve a) t2 _ _ _ :=
      h2
    obtain ⟨h3, hk3⟩ := hreserved.unreserve
    refine ⟨t2, .undone h3 (hk2.trans hk3.part) (fun hag => ?_) _ _⟩
    obtain ⟨rfl, rfl, hkk⟩ := hback hag
    exact ⟨rfl, rfl, hkk.trans hk3⟩

end Mmap

/-! ## Unmapping -/

section Munmap

variable {start : Nat}

/-- A record allocated ahead; 0 stands for none. -/
def spare (ptr : Nat) : Multiset Nat := if ptr = 0 then 0 else {ptr}

theorem spare_zero : spare 0 = 0 := rfl

theorem spare_of_ne {ptr : Nat} (h : ptr ≠ 0) : spare ptr = {ptr} := if_neg h

/-- `kfree` of a spare record, which may be null. -/
theorem Tabled.kfree_spare (h : Tabled P m t shared rest) {ptr : Nat}
    (hlive : liveBag m.slabs = spare ptr + objs) :
    Tabled P (MiniCore.kfree ptr m) t shared rest ∧ Keeps rest m (MiniCore.kfree ptr m) ∧
      liveBag (MiniCore.kfree ptr m).slabs = objs := by
  by_cases hz : ptr = 0
  · subst hz
    rw [spare_zero, zero_add] at hlive
    have hfree : MiniCore.kfree 0 m = m := by simp [MiniCore.kfree]
    rw [hfree]
    exact ⟨h, Keeps.refl _ m, hlive⟩
  · rw [spare_of_ne hz, singleton_add] at hlive
    exact h.kfree hlive

/-- Whether a range lies strictly inside an area. -/
def VmArea.Around (a : VmArea) (start stop : Nat) : Prop := a.start < start ∧ stop < a.stop

/-- An area around a range keeps every other area away from it. -/
theorem VmArea.Around.beside {a b : VmArea} (h : a.Around start stop) (hab : a.Apart b) :
    b.stop ≤ start ∨ stop ≤ b.start := by
  unfold VmArea.Around at h
  unfold VmArea.Apart at hab
  omega

theorem munmapPreflight_beside {areas : List VmArea} {split : Nat}
    (h : ∀ a ∈ areas, a.stop ≤ start ∨ stop ≤ a.start) :
    munmapPreflight start stop areas split m = (.ok split, m) := by
  induction areas with
  | nil => rfl
  | cons a areas ih =>
    rw [munmapPreflight, if_pos (h a List.mem_cons_self)]
    exact ih fun b hb => h b (List.mem_cons_of_mem _ hb)

/-- What the preflight of `munmap` guarantees: on success every area it meets may
be cut, and there is a spare record exactly if some area falls into two. -/
structure Preflight (start stop : Nat) (areas : List VmArea) (split : Nat) : Prop where
  cuttable : ∀ a ∈ areas, ¬ (a.stop ≤ start ∨ stop ≤ a.start) → a.kind = .anon ∨ a.kind = .file
  no_spare : split = 0 → ∀ a ∈ areas, ¬ a.Around start stop

theorem munmapPreflight_spec (hlt : start < stop) : ∀ (areas : List VmArea) (m : Machine),
    areas.Pairwise VmArea.Apart → Tabled P m t shared rest →
    ∀ {res m'}, munmapPreflight start stop areas 0 m = (res, m') →
    Tabled P m' t shared rest ∧ Keeps rest m m' ∧
      (∀ e, res = .error e → liveBag m'.slabs = liveBag m.slabs) ∧
      (∀ split, res = .ok split → liveBag m'.slabs = spare split + liveBag m.slabs ∧
        Preflight start stop areas split)
  | [], m, _, h, res, m', hrun => by
    cases hrun
    refine ⟨h, Keeps.refl _ m, by simp, ?_⟩
    intro split hs
    cases hs
    exact ⟨by rw [spare_zero, zero_add], by simp, by simp⟩
  | a :: areas, m, hap, h, res, m', hrun => by
    rw [pairwise_cons] at hap
    rw [munmapPreflight] at hrun
    split at hrun
    · next hout =>
      obtain ⟨h', hk, herr, hok⟩ := munmapPreflight_spec hlt areas m hap.2 h hrun
      refine ⟨h', hk, herr, ?_⟩
      intro split hs
      obtain ⟨hl, hcut, hno⟩ := hok split hs
      refine ⟨hl, ?_, ?_⟩
      · intro b hb hhit
        rcases List.mem_cons.mp hb with rfl | hb
        · exact absurd hout hhit
        · exact hcut b hb hhit
      intro hz b hb
      rcases List.mem_cons.mp hb with rfl | hb
      · unfold VmArea.Around
        omega
      · exact hno hz b hb
    next hhit =>
    split at hrun
    · -- an area that must not be cut
      cases hrun
      have hfree : MiniCore.kfree 0 m = m := by simp [MiniCore.kfree]
      rw [hfree]
      exact ⟨h, Keeps.refl _ m, fun _ _ => rfl, by simp⟩
    next hkind =>
    have hkind' : a.kind = .anon ∨ a.kind = .file := by tauto
    split at hrun
    · next haround =>
      -- the middle cut: no other area meets the range
      have hbeside : ∀ b ∈ areas, b.stop ≤ start ∨ stop ≤ b.start := fun b hb =>
        VmArea.Around.beside haround (hap.1 b hb)
      rcases hk : kmalloc vmAreaSize m with ⟨ptr, m1⟩
      rw [hk] at hrun
      rcases h.kmalloc hk with ⟨rfl, hsame⟩ | ⟨hptr, h1, hkeep, hlive⟩
      · cases hrun
        exact ⟨h.of_same hsame, Keeps.of_same hsame, fun _ _ => by rw [hsame.slabs],
          (by simp)⟩
      simp only [munmapPreflight_beside hbeside] at hrun
      cases hrun
      refine ⟨h1, hkeep, by simp, ?_⟩
      intro split hs
      cases hs
      refine ⟨by rw [hlive, spare_of_ne hptr, singleton_add], ?_,
        fun hz => absurd hz hptr⟩
      intro b hb hhit'
      rcases List.mem_cons.mp hb with rfl | hb
      · exact hkind'
      · exact absurd (hbeside b hb) hhit'
    · next haround =>
      obtain ⟨h', hk, herr, hok⟩ := munmapPreflight_spec hlt areas m hap.2 h hrun
      refine ⟨h', hk, herr, ?_⟩
      intro split hs
      obtain ⟨hl, hcut, hno⟩ := hok split hs
      refine ⟨hl, ?_, ?_⟩
      · intro b hb hhit'
        rcases List.mem_cons.mp hb with rfl | hb
        · exact hkind'
        · exact hcut b hb hhit'
      · intro hz b hb
        rcases List.mem_cons.mp hb with rfl | hb
        · exact haround
        · exact hno hz b hb

theorem trimAreas_beside {areas : List VmArea} {split : Nat}
    (h : ∀ a ∈ areas, a.stop ≤ start ∨ stop ≤ a.start) :
    trimAreas start stop areas split m = (areas, [], split, m) := by
  induction areas with
  | nil => rfl
  | cons a areas ih =>
    rw [trimAreas, if_pos (h a List.mem_cons_self), ih fun b hb => h b (List.mem_cons_of_mem _ hb)]

/-- The heap records of a list of areas. -/
def areaBag (areas : List VmArea) : Multiset Nat := (areas.map VmArea.ptr : List Nat)

theorem areaBag_cons (a : VmArea) (areas : List VmArea) :
    areaBag (a :: areas) = a.ptr ::ₘ areaBag areas := rfl

theorem areaBag_append (areas areas' : List VmArea) :
    areaBag (areas ++ areas') = areaBag areas + areaBag areas' := by
  simp [areaBag]

/-- **The trimming loop** leaves what `cutArea` says and frees the records of the
areas it drops. -/
theorem trimAreas_spec : ∀ (areas : List VmArea) (split : Nat) (m : Machine) (objs : Multiset Nat),
    areas.Pairwise VmArea.Apart → (split = 0 → ∀ a ∈ areas, ¬ a.Around start stop) →
    Tabled P m t shared rest → liveBag m.slabs = areaBag areas + spare split + objs →
    ∀ {kept pushed split' m'}, trimAreas start stop areas split m = (kept, pushed, split', m') →
    Tabled P m' t shared rest ∧ Keeps rest m m' ∧
      liveBag m'.slabs = areaBag (kept ++ pushed) + spare split' + objs ∧
      (kept ++ pushed).Perm (areas.flatMap (cutArea start stop split)) ∧
      ∀ b ∈ pushed, stop ≤ b.start
  | [], split, m, objs, _, _, h, hlive, kept, pushed, split', m', hrun => by
    cases hrun
    exact ⟨h, Keeps.refl _ m, hlive, by simp, by simp⟩
  | a :: areas, split, m, objs, hap, hno, h, hlive, kept, pushed, split', m', hrun => by
    rw [pairwise_cons] at hap
    have hno' : split = 0 → ∀ b ∈ areas, ¬ b.Around start stop :=
      fun hz b hb => hno hz b (List.mem_cons_of_mem _ hb)
    -- one piece `p` of `a` stays, under the record of `a`
    have hone : ∀ p : VmArea, p.ptr = a.ptr → cutArea start stop split a = [p] →
        ∀ {r}, trimAreas start stop areas split m = r →
        Tabled P r.2.2.2 t shared rest ∧ Keeps rest m r.2.2.2 ∧
          liveBag r.2.2.2.slabs = areaBag (p :: r.1 ++ r.2.1) + spare r.2.2.1 + objs ∧
          (p :: r.1 ++ r.2.1).Perm ((a :: areas).flatMap (cutArea start stop split)) ∧
          ∀ b ∈ r.2.1, stop ≤ b.start := by
      intro p hptr hcut r hr
      have hr' : trimAreas start stop areas split m = (r.1, r.2.1, r.2.2.1, r.2.2.2) := hr
      obtain ⟨h', hk, hl, hperm, hpush⟩ := trimAreas_spec areas split m (a.ptr ::ₘ objs) hap.2 hno'
        h (by rw [hlive, areaBag_cons, cons_add, cons_add, add_cons]) hr'
      refine ⟨h', hk, ?_, ?_, hpush⟩
      · rw [hl, cons_append, areaBag_cons, hptr, add_cons, cons_add,
          cons_add]
      · rw [flatMap_cons, hcut, singleton_append, cons_append]
        exact hperm.cons p
    rw [trimAreas] at hrun
    split at hrun
    · next hout =>
      cases hrun
      exact hone a rfl (cutArea_of_beside hout) rfl
    next hhit =>
    split at hrun
    · -- the whole area goes
      next hcover =>
      rw [areaBag_cons, cons_add, cons_add] at hlive
      obtain ⟨h1, hk1, hl1⟩ := h.kfree hlive
      obtain ⟨h2, hk2, hl2, hperm, hpush⟩ :=
        trimAreas_spec areas split _ objs hap.2 hno' h1 hl1 hrun
      refine ⟨h2, hk1.trans hk2, hl2, ?_, hpush⟩
      rw [flatMap_cons, cutArea, if_neg hhit, if_pos hcover, nil_append]
      exact hperm
    next hcover =>
    split at hrun
    · -- the middle cut takes the spare record
      next haround =>
      have hne : split ≠ 0 := fun hz => hno hz a List.mem_cons_self haround
      have hbeside : ∀ b ∈ areas, b.stop ≤ start ∨ stop ≤ b.start := fun b hb =>
        VmArea.Around.beside haround (hap.1 b hb)
      rw [trimAreas_beside hbeside] at hrun
      cases hrun
      refine ⟨h, Keeps.refl _ m, ?_, ?_, ?_⟩
      · rw [hlive, spare_of_ne hne, spare_zero, cons_append, areaBag_cons,
          areaBag_cons, areaBag_append, add_zero]
        rfl
      · rw [flatMap_cons, cutArea, if_neg hhit, if_neg hcover, if_pos haround,
          flatMap_cutArea_of_beside hbeside]
        exact (perm_append_comm).cons _
      · intro b hb
        rw [List.mem_singleton] at hb
        rw [hb]
    · next haround =>
      split at hrun
      · next hleft =>
        cases hrun
        refine hone { a with start := stop } rfl ?_ rfl
        rw [cutArea, if_neg hhit, if_neg hcover, if_neg haround, if_pos hleft]
      · next hleft =>
        cases hrun
        refine hone { a with stop := start } rfl ?_ rfl
        rw [cutArea, if_neg hhit, if_neg hcover, if_neg haround, if_neg hleft]

/-- **`address_space_munmap`** takes the range out of all three structures and
keeps the pages outside, or does nothing. -/
theorem addressSpaceMunmap_keeps (h : Owned P m as t shared rest objs)
    (hap : as.areas.Pairwise VmArea.Apart) {start length : Nat} {res : Except Errno Nat}
    (hrun : addressSpaceMunmap as start length m = (res, as', m')) :
    ∃ t', Outcome P m m' as as' t shared rest objs res
      (fun _ => Unmapped start (pageUp (start + length)) as as' ∧
        Keeps (as'.physicals + rest) m m') t' := by
  unfold addressSpaceMunmap at hrun
  split at hrun
  · cases hrun
    exact ⟨t, Outcome.refused h _ _⟩
  next hbad =>
  simp only [not_or, not_le, not_lt, ne_eq, not_not] at hbad
  obtain ⟨hal, hlen, _, _⟩ := hbad
  have hlt : start < pageUp (start + length) := by
    rw [pageUp_eq]
    omega
  have hstop : pageUp (start + length) % 4096 = 0 := by
    rw [pageUp_eq]
    omega
  dsimp only at hrun
  generalize pageUp (start + length) = stop at *
  rcases hpre : munmapPreflight start stop as.areas 0 m with ⟨r, m1⟩
  obtain ⟨h1, hk1, herr, hok⟩ := munmapPreflight_spec hlt as.areas m hap h.tabled hpre
  rw [hpre] at hrun
  have hk1' := hk1.part
  cases r with
  | error e =>
    cases hrun
    exact ⟨t, .failed (h.of_areas h1 ((herr e rfl).trans h.live)) hk1 e _⟩
  | ok split =>
    obtain ⟨hl1, hflight⟩ := hok split rfl
    have hown1 : Owned P m1 as t shared rest (spare split + objs) :=
      h.of_areas h1 (by rw [hl1, h.live]; abel)
    rcases hrem : removePages as start stop m1 with ⟨as2, m2⟩
    obtain ⟨rfl, t2, h2, _, hk2⟩ := removePages_spec hown1 hrem
    rcases htrim : trimAreas start stop as.areas split m2 with ⟨kept, pushed, split', m3⟩
    have hl2 : liveBag m2.slabs = areaBag as.areas + spare split +
        (((as.pages.filter (outside start stop)).map UserPage.ptr : List Nat) + objs) := by
      rw [h2.live, AddressSpace.records, areaBag]
      abel
    obtain ⟨h3, hk3, hl3, hperm, hpush⟩ :=
      trimAreas_spec as.areas split m2 _ hap hflight.no_spare h2.tabled hl2 htrim
    have hagain : trimAreas start stop pushed split' m3 = (pushed, [], split', m3) :=
      trimAreas_beside fun b hb => .inr (hpush b hb)
    simp only [hrem, htrim, hagain, append_nil, Prod.mk.injEq] at hrun
    obtain ⟨rfl, rfl, rfl⟩ := hrun
    rw [add_comm (areaBag (kept ++ pushed)) (spare split'), add_assoc] at hl3
    obtain ⟨h4, hk4, hl4⟩ := h3.kfree_spare hl3
    refine ⟨t2, ?_, ?_, ?_, rfl, by simp, by simp⟩
    · refine h2.of_areas h4 ?_
      rw [hl4, AddressSpace.records, areaBag]
      abel
    · exact hk1'.trans (((hk2.trans hk3).trans hk4).part)
    · refine fun _ _ => ⟨⟨hal, hstop, hlt, rfl, ⟨split, hperm⟩, hflight.cuttable⟩, ?_⟩
      have hmono :
        ({ as with pages := as.pages.filter (outside start stop) } : AddressSpace).physicals ≤
        as.physicals := as.physicals_mono filter_sublist
      exact (hk1.mono (add_le_add_left hmono rest)).trans ((hk2.trans hk3).trans hk4)

end Munmap

/-! ## The break -/

section Brk

variable {requested : Nat}

/-- A mapped page needs a table. -/
theorem Owned.root_ne (h : Owned P m as t shared rest objs) {p : UserPage} (hp : p ∈ as.pages)
    (hm : mapped p.flags = true) : as.root ≠ 0 := by
  have hleaf := (h.isLeaf hp hm).ne_zero
  rw [← h.leaves.of_page p hp hm] at hleaf
  obtain ⟨q, hq⟩ := h.tabled.rep.wf.leaf_parent hleaf
  obtain ⟨r, hr⟩ := h.tabled.rep.wf.low_parent hq
  exact h.root_eq ▸ h.tabled.rep.wf.root_ne hr

theorem pageCount_eq {start : Nat} (hle : start ≤ stop) (hs : start % 4096 = 0)
    (he : stop % 4096 = 0) : start + 4096 * pageCount start stop = stop := by
  unfold pageCount pageMask pageSize
  omega

/-- What a successful `brk` leaves. -/
def BrkDone (as as' : AddressSpace) (_ : Nat) : Prop :=
  Laid as' ∧ (Agrees as.areas as.pages → Agrees as'.areas as'.pages)

/-- What it does to the ledger when the page-rounded end of the heap moves from
`old` to `stop`: new pages behind, or the pages in between gone. -/
inductive BrkLedger (rest : Multiset Nat) (old stop : Nat) (m m' : Machine)
    (as as' : AddressSpace) : Prop
  | grow (new : List UserPage) (lt : old < stop) (root : as'.root = as.root)
      (pages : as'.pages = as.pages ++ new) (run : Run old heapFlags new)
        (length : old + 4096 * new.length = stop)
      (keeps : Keeps (as.physicals + rest) m m')
  | shrink (le : stop ≤ old) (root : as'.root = as.root)
      (pages : as'.pages = as.pages.filter (outside stop old))
      (keeps : Keeps (as'.physicals + rest) m m')

/-- The areas with the heap area moved have the same records. -/
theorem AddressSpace.records_areas (as : AddressSpace) (areas : List VmArea)
    (h : areaBag areas = areaBag as.areas) :
    ({ as with areas := areas } : AddressSpace).records = as.records := by
  rw [records, records, ← areaBag, h]
  rfl

theorem erase_split {l1 l2 : List VmArea} {a : VmArea} (h : a ∉ l1) :
    (l1 ++ a :: l2).erase a = l1 ++ l2 := by
  rw [erase_append_right _ h, List.erase_cons_head]

/-- Cutting a range that only the area `a` meets. -/
theorem flatMap_cutArea_split {l1 l2 : List VmArea} {a : VmArea} {start ptr : Nat}
    (h : ∀ b ∈ l1 ++ l2, b.stop ≤ start ∨ stop ≤ b.start) :
    (l1 ++ a :: l2).flatMap (cutArea start stop ptr) = l1 ++ cutArea start stop ptr a ++ l2 := by
  rw [flatMap_append, flatMap_cons,
    flatMap_cutArea_of_beside fun b hb => h b (mem_append_left _ hb),
    flatMap_cutArea_of_beside fun b hb => h b (mem_append_right _ hb), append_assoc]

/-- What moving the break to `requested` leads to. -/
def BrkOutcome (P : PagePool) (m m' : Machine) (as as' : AddressSpace) (t : Radix)
    (shared : Nat → Nat) (rest objs : Multiset Nat) (requested : Nat) (res : Except Errno Nat) :
    Prop :=
  ∃ t', Outcome P m m' as as' t shared rest objs res (fun n => BrkDone as as' n ∧
    BrkLedger rest (pageUp as.brkEnd) (pageUp requested) m m' as as') t'

variable (h : Owned P m as t shared rest objs) (hl : Laid as) (hge : heapBase ≤ requested)
  (hle : requested ≤ heapBase + maxMapping)

include h hl hge hle

/-- Growing a heap that has an area moves the end of the area. -/
theorem brkGrow_heap {heap : VmArea} (hlt : pageUp as.brkEnd < pageUp requested)
    (hv : vacant as.areas (pageUp as.brkEnd) (pageUp requested) = true)
    (hheap : findHeap as.areas = some heap)
    (hrun : brkGrow as requested (pageUp as.brkEnd) (pageUp requested) m = (res, as', m')) :
    BrkOutcome P m m' as as' t shared rest objs requested res := by
  obtain ⟨hlo, hhi, hal⟩ := pageUp_brk hge hle
  obtain ⟨hlo', hhi', hal'⟩ := pageUp_brk hl.brk_ge hl.brk_le
  have hcount := pageCount_eq (Nat.le_of_lt hlt) hal' hal
  have h38 : pageUp requested ≤ 2 ^ 38 := Nat.le_trans hhi (by decide)
  obtain ⟨hin, hk⟩ := findHeap_some hheap
  have hat := hl.heap_at heap hin hk
  obtain ⟨l1, l2, hsplit, hnot⟩ := hl.areas_ok.split hin
  rcases hadd : addPages heapFlags loadNothing
      (pageCount (pageUp as.brkEnd) (pageUp requested)) (pageUp as.brkEnd) as m with ⟨b, as1, m1⟩
  rw [brkGrow, if_neg (by simp [hv])] at hrun
  simp only [hheap, hadd] at hrun
  rcases h.addRun fills_loadNothing h (Keeps.refl _ m) hv hcount hadd with
    ⟨rfl, t1, new, rfl, h1, hk1, hnew, hlen⟩ | ⟨rfl, t2, pages, m2, hrem, h2, hk2, hback⟩
  · cases hrun
    have hareas : as.areas.replace heap { heap with stop := pageUp requested } =
        l1 ++ { heap with stop := pageUp requested } :: l2 := by
      rw [hsplit]
      exact replace_split hnot
    rw [hareas]
    have hok := hl.areas_ok
    have hledger : BrkLedger rest (pageUp as.brkEnd) (pageUp requested) m m' as { as with
        pages := as.pages ++ new
        areas := l1 ++ { heap with stop := pageUp requested } :: l2
        brkEnd := requested } :=
      .grow new hlt rfl rfl hnew hlen hk1
    rw [← hat.2.2.1] at hv hnew
    rw [hsplit] at hv hok
    refine ⟨t1, ?_, hk1.part, ?_, rfl, by simp, by simp⟩
    · refine h1.of_areas h1.tabled ?_
      rw [AddressSpace.records_areas, h1.live]
      simp [areaBag, hsplit]
    intro n _
    refine ⟨⟨hl.brk_move ⟨rfl, rfl, rfl, hge, hle⟩ hsplit hk rfl
      (hok.grow hal h38 (by omega) hv), ?_⟩, hledger⟩
    intro hag
    rw [hsplit] at hag
    exact hag.grow hal h38 hv (hat.2.2.2 ▸ hnew) (by omega)
  · simp only [hrem] at hrun
    cases hrun
    exact ⟨t2, .undone h2 hk2 hback _ _⟩

/-- Growing an empty heap makes its area. -/
theorem brkGrow_first (hlt : pageUp as.brkEnd < pageUp requested)
    (hv : vacant as.areas (pageUp as.brkEnd) (pageUp requested) = true)
    (hheap : findHeap as.areas = none)
    (hrun : brkGrow as requested (pageUp as.brkEnd) (pageUp requested) m = (res, as', m')) :
    BrkOutcome P m m' as as' t shared rest objs requested res := by
  obtain ⟨hlo, hhi, hal⟩ := pageUp_brk hge hle
  obtain ⟨hlo', hhi', hal'⟩ := pageUp_brk hl.brk_ge hl.brk_le
  have hcount := pageCount_eq (Nat.le_of_lt hlt) hal' hal
  have hnone := findHeap_none hheap
  rcases hkm : kmalloc vmAreaSize m with ⟨fresh, m0⟩
  rw [brkGrow, if_neg (by simp [hv])] at hrun
  simp only [hheap, hkm] at hrun
  rcases h.newRecord hkm with ⟨rfl, hsame⟩ | ⟨hfresh, h0, hk0⟩
  · cases hrun
    exact ⟨t, .failed (h.of_same hsame) (Keeps.of_same hsame) _ _⟩
  rcases hadd : addPages heapFlags loadNothing
      (pageCount (pageUp as.brkEnd) (pageUp requested)) (pageUp as.brkEnd) as m0 with ⟨b, as1, m1⟩
  simp only [hadd] at hrun
  rcases h.addRun fills_loadNothing h0 hk0 hv hcount hadd with
    ⟨rfl, t1, new, rfl, h1, hk1, hnew, hlen⟩ | ⟨rfl, t2, pages, m2, hrem, h2, hk2, hback⟩
  · cases hrun
    -- the first heap page is mapped, so there is a table; the heap was empty
    obtain ⟨p, hp, hpv⟩ : ∃ p ∈ new, p.virtualAddress = pageUp as.brkEnd :=
      hnew.exists_page hal' hal' (Nat.le_refl _) (by omega)
    have hroot : as.root ≠ 0 := by
      refine h1.root_ne (mem_append_right _ hp) ?_
      rw [hnew.with_flags p hp]
      decide
    have hempty : pageUp as.brkEnd = as.brkBase := by
      by_contra hne
      have hbase := hl.brk_base
      obtain ⟨a, ha, hk⟩ := hl.heap_exists hroot (by omega)
      exact hnone a ha hk
    have hledger : BrkLedger rest (pageUp as.brkEnd) (pageUp requested) m m' as { as with
        pages := as.pages ++ new
        areas := as.areas ++ [⟨fresh, as.brkBase, pageUp requested, heapFlags, .heap⟩]
        brkEnd := requested } :=
      .grow new hlt rfl rfl hnew hlen hk1
    rw [hempty] at hv hnew hlen
    have harea : AreaOk ⟨fresh, as.brkBase, pageUp requested, heapFlags, .heap⟩ :=
      ⟨show as.brkBase < pageUp requested by omega, show as.brkBase % 4096 = 0 by omega, hal,
        Nat.le_trans hhi (by decide)⟩
    have hres := h1.reserve ⟨fresh, as.brkBase, pageUp requested, heapFlags, .heap⟩
    refine ⟨t1, hres.of_areas hres.tabled hres.live, hk1.part, ?_, rfl, by simp, by simp⟩
    intro n _
    exact ⟨⟨hl.brk_first ⟨rfl, rfl, rfl, hge, hle⟩ hnone hroot rfl
      (hl.areas_ok.extend harea flagsOk_heapFlags hv),
      fun hag => hag.extend harea flagsOk_heapFlags hv hnew hlen⟩, hledger⟩
  · simp only [hrem] at hrun
    cases hrun
    obtain ⟨h3, hk3⟩ := h2.freeRecord
    refine ⟨t2, .undone h3 (hk2.trans hk3.part) (fun hag => ?_) _ _⟩
    obtain ⟨rfl, rfl, hkk⟩ := hback hag
    exact ⟨rfl, rfl, hkk.trans hk3⟩

theorem brkGrow_spec (hlt : pageUp as.brkEnd < pageUp requested)
    (hrun : brkGrow as requested (pageUp as.brkEnd) (pageUp requested) m = (res, as', m')) :
    BrkOutcome P m m' as as' t shared rest objs requested res := by
  cases hv : vacant as.areas (pageUp as.brkEnd) (pageUp requested) with
  | false =>
    rw [brkGrow, if_pos hv] at hrun
    cases hrun
    exact ⟨t, Outcome.refused h _ _⟩
  | true =>
    cases hheap : findHeap as.areas with
    | some heap => exact brkGrow_heap h hl hge hle hlt hv hheap hrun
    | none => exact brkGrow_first h hl hge hle hlt hv hheap hrun

omit h in
/-- The areas without what is between the new end of the heap and the old one. -/
theorem Laid.shrunk {heap : VmArea} {l1 l2 : List VmArea}
    (hlt : pageUp requested < pageUp as.brkEnd) (hsplit : as.areas = l1 ++ heap :: l2)
    (hk : heap.kind = .heap) : as.areas.flatMap (cutArea (pageUp requested) (pageUp as.brkEnd) 0) =
      if pageUp requested = heap.start then l1 ++ l2
      else l1 ++ { heap with stop := pageUp requested } :: l2 := by
  obtain ⟨hlo, hhi, hal⟩ := pageUp_brk hge hle
  obtain ⟨hlo', hhi', hal'⟩ := pageUp_brk hl.brk_ge hl.brk_le
  have hbase := hl.brk_base
  have hat := hl.heap_at heap (by simp [hsplit]) hk
  rw [hsplit, flatMap_cutArea_split, cutArea, if_neg (by omega)]
  · split
    · next hempty => rw [if_pos (by omega), append_nil]
    · next hempty =>
      rw [if_neg (by omega), if_neg (by omega), if_neg (by omega), append_assoc, singleton_append]
  -- an area that is not the heap is away from the range
  intro b hb
  have := hl.window b (hsplit ▸ mem_of_mem_others heap hb) (hl.other_beside hsplit hk b hb)
  omega

theorem brkShrink_spec (hlt : pageUp requested < pageUp as.brkEnd)
    (hrun : brkShrink as requested (pageUp as.brkEnd) (pageUp requested) m = (res, as', m')) :
    BrkOutcome P m m' as as' t shared rest objs requested res := by
  obtain ⟨hlo, hhi, hal⟩ := pageUp_brk hge hle
  obtain ⟨hlo', hhi', hal'⟩ := pageUp_brk hl.brk_ge hl.brk_le
  have hbase := hl.brk_base
  rcases hrem : removePages as (pageUp requested) (pageUp as.brkEnd) m with ⟨as1, m1⟩
  obtain ⟨rfl, t1, h1, _, hk1⟩ := removePages_spec h hrem
  have hk1' := hk1.part
  simp only [brkShrink, hrem] at hrun
  cases hheap : findHeap as.areas with
  | none =>
    have hnone := findHeap_none hheap
    simp only [hheap] at hrun
    cases hrun
    have hperm : as.areas.Perm
        (as.areas.flatMap (cutArea (pageUp requested) (pageUp as.brkEnd) 0)) := by
      rw [flatMap_cutArea_of_beside fun a ha => ?_]
      have := hl.window a ha (hnone a ha)
      omega
    refine ⟨t1, h1.of_areas h1.tabled h1.live, hk1', ?_, rfl, by simp, by simp⟩
    intro n _
    refine ⟨⟨⟨hl.areas_ok, hbase, hge, hle, fun a ha hk => absurd hk (hnone a ha), ?_, hl.window⟩,
      fun hag => hag.cut hal hal' hlt hperm⟩, .shrink (Nat.le_of_lt hlt) rfl rfl hk1⟩
    -- without a heap area the struct has no table, or the break was at its base
    intro hr hlt'
    obtain ⟨a, ha, hk⟩ := hl.heap_exists hr (show as.brkBase < pageUp as.brkEnd by omega)
    exact absurd hk (hnone a ha)
  | some heap =>
    obtain ⟨hin, hk⟩ := findHeap_some hheap
    have hat := hl.heap_at heap hin hk
    obtain ⟨l1, l2, hsplit, hnot⟩ := hl.areas_ok.split hin
    have hcut := hl.shrunk hge hle hlt hsplit hk
    simp only [hheap] at hrun
    split at hrun
    · next hempty =>
      have hareas : as.areas.erase heap = l1 ++ l2 := by
        rw [hsplit]
        exact erase_split hnot
      cases hrun
      rw [hareas]
      rw [if_pos hempty] at hcut
      have hlive : liveBag m1.slabs = heap.ptr ::ₘ (({ as with
          pages := as.pages.filter (outside (pageUp requested) (pageUp as.brkEnd))
          areas := l1 ++ l2 } : AddressSpace).records + objs) := by
        rw [h1.live, ← cons_add, AddressSpace.records, AddressSpace.records]
        simp only [hsplit, map_append, List.map_cons, ← coe_add,
          ← cons_coe, add_cons, cons_add]
      obtain ⟨h2, hk2, hl2⟩ := h1.tabled.kfree hlive
      refine ⟨t1, h1.of_areas h2 hl2, hk1'.trans hk2.part, ?_, rfl, by simp, by simp⟩
      intro n _
      exact ⟨⟨hl.brk_last ⟨rfl, rfl, rfl, hge, hle⟩ hsplit hk rfl (hempty.trans hat.2.1)
        (hl.areas_ok.cut hal hal' hlt (.of_eq hcut.symm)),
        fun hag => hag.cut hal hal' hlt (.of_eq hcut.symm)⟩,
        .shrink (Nat.le_of_lt hlt) rfl rfl (hk1.trans hk2)⟩
    · next hempty =>
      have hareas : as.areas.replace heap { heap with stop := pageUp requested } =
          l1 ++ { heap with stop := pageUp requested } :: l2 := by
        rw [hsplit]
        exact replace_split hnot
      cases hrun
      rw [hareas]
      rw [if_neg hempty] at hcut
      refine ⟨t1, ?_, hk1', ?_, rfl, by simp, by simp⟩
      · refine h1.of_areas h1.tabled ?_
        rw [AddressSpace.records_areas, h1.live]
        simp [areaBag, hsplit]
      intro n _
      exact ⟨⟨hl.brk_move ⟨rfl, rfl, rfl, hge, hle⟩ hsplit hk rfl
        (hl.areas_ok.cut hal hal' hlt (.of_eq hcut.symm)),
        fun hag => hag.cut hal hal' hlt (.of_eq hcut.symm)⟩,
        .shrink (Nat.le_of_lt hlt) rfl rfl hk1⟩

omit hge hle

/-- **`address_space_brk`** moves the break with the heap area and its pages, or
does nothing. -/
theorem addressSpaceBrk_keeps (hrun : addressSpaceBrk as requested m = (res, as', m')) :
    ∃ t', Outcome P m m' as as' t shared rest objs res (fun n => BrkDone as as' n ∧
      (requested ≠ 0 → BrkLedger rest (pageUp as.brkEnd) (pageUp requested) m m' as as')) t' := by
  have hbase := hl.brk_base
  unfold addressSpaceBrk at hrun
  split at hrun
  · next hzero =>
    cases hrun
    exact ⟨t, h, Keeps.refl _ m, fun _ _ => ⟨⟨hl, id⟩, fun hne => absurd hzero hne⟩,
      rfl, by simp, by simp⟩
  split at hrun
  · cases hrun
    exact ⟨t, Outcome.refused h _ _⟩
  next hbad =>
  rw [not_or, not_lt, not_lt, hbase] at hbad
  dsimp only at hrun
  split at hrun
  · next hlt =>
    obtain ⟨t', hout⟩ := brkGrow_spec h hl hbad.1 hbad.2 hlt hrun
    exact ⟨t', hout.imp fun _ hdone => ⟨hdone.1, fun _ => hdone.2⟩⟩
  split at hrun
  · next hlt =>
    obtain ⟨t', hout⟩ := brkShrink_spec h hl hbad.1 hbad.2 hlt hrun
    exact ⟨t', hout.imp fun _ hdone => ⟨hdone.1, fun _ => hdone.2⟩⟩
  next hgrow hshrink =>
  have hsame : pageUp requested = pageUp as.brkEnd := by omega
  cases hrun
  refine ⟨t, h.of_areas h.tabled h.live, Keeps.refl _ m, ?_, rfl, by simp, by simp⟩
  refine fun _ _ => ⟨⟨hl.brk_same ⟨rfl, rfl, rfl, hbad.1, hbad.2⟩ rfl hsame, id⟩, fun _ => ?_⟩
  refine .shrink (Nat.le_of_eq hsame) rfl (List.filter_eq_self.mpr fun p _ => ?_).symm
    (Keeps.refl _ m)
  simp only [outside, hsame, Bool.or_eq_true, decide_eq_true_eq]
  exact Nat.lt_or_ge _ _

end Brk

/-! ## Cloning -/

section Clone

variable {source : AddressSpace} {ok : Bool}

/-- The loop over the areas of the source. -/
theorem cloneAreas_spec : ∀ (areas : List VmArea) (as : AddressSpace) (m : Machine),
    Owned P m as t shared rest objs → as.pages = [] →
    ∀ {ok as' m'}, cloneAreas areas as m = (ok, as', m') →
    Keeps rest m m' ∧ Owned P m' as' t shared rest objs ∧
      (∃ new, as' = { as with areas := as.areas ++ new } ∧
        (ok = true → new.map VmArea.shape = areas.map VmArea.shape))
  | [], as, m, h, _, ok, as', m', hrun => by
    cases hrun
    exact ⟨Keeps.refl _ _, h, [], by simp, fun _ => rfl⟩
  | a :: areas, as, m, h, hnil, ok, as', m', hrun => by
    rcases hres : addressSpaceReserve as a.start a.stop a.flags a.kind m with ⟨b, as1, m1⟩
    obtain ⟨hk1, h1, hcase⟩ := addressSpaceReserve_spec h hres
    have hk1' := hk1.part
    rw [cloneAreas, hres] at hrun
    rcases hcase with ⟨rfl, rfl⟩ | ⟨rfl, ⟨ptr, rfl⟩, _⟩
    · cases hrun
      exact ⟨hk1', h1, [], by simp, by simp⟩
    obtain ⟨hk2, h2, new, rfl, hnew⟩ := cloneAreas_spec areas _ m1 h1 hnil hrun
    refine ⟨hk1'.trans hk2, h2, ⟨ptr, a.start, a.stop, a.flags, a.kind⟩ :: new, ?_, ?_⟩
    · simp [AddressSpace.reserve]
    intro hok
    rw [List.map_cons, List.map_cons, hnew hok]
    rfl

/-- The loop over the ledger of the source. -/
theorem clonePages_spec : ∀ (pages : List UserPage) (as : AddressSpace) (m : Machine) (t : Radix),
    Owned P m as t shared rest objs →
    ∀ {ok as' m'}, clonePages pages as m = (ok, as', m') →
    Keeps rest m m' ∧ ∃ t' new, Owned P m' as' t' shared rest objs ∧
      as' = { as with pages := as.pages ++ new } ∧
        (ok = true → new.map UserPage.shape = pages.map UserPage.shape)
  | [], as, m, t, h, ok, as', m', hrun => by
    cases hrun
    exact ⟨Keeps.refl _ _, t, [], h, by simp, fun _ => rfl⟩
  | p :: pages, as, m, t, h, ok, as', m', hrun => by
    rcases hadd : addressSpaceAddPage as p.virtualAddress p.flags
        (some fun mem i => mem (p.physical + i)) pageSize m with ⟨b, as1, m1⟩
    obtain ⟨hk1, hcase⟩ := addressSpaceAddPage_spec h hadd
    have hk1' := hk1.part
    rw [clonePages, hadd] at hrun
    rcases hcase with ⟨rfl, rfl, h1⟩ | ⟨rfl, t1, page, h1, hadded, -⟩
    · cases hrun
      exact ⟨hk1', t, [], h1, by simp, by simp⟩
    obtain ⟨rfl, hat, hflags, _⟩ := hadded
    obtain ⟨hk2, t2, new, h2, rfl, hnew⟩ := clonePages_spec pages _ m1 t1 h1 hrun
    refine ⟨hk1'.trans hk2, t2, page :: new, h2, by simp [AddressSpace.push], ?_⟩
    intro hok
    rw [List.map_cons, List.map_cons, hnew hok, UserPage.shape, hat, hflags]
    rfl

/-- **`address_space_clone`** makes a space of the same shape, or leaves a dead
destination and nothing else. -/
theorem addressSpaceClone_spec (hst : Stocked P m rest) (hlive : liveBag m.slabs = objs)
    {kernelRoot : Nat} (hk : kernelRoot ∈ rest)
    (hrun : addressSpaceClone source kernelRoot m = (ok, as', m')) : Keeps rest m m' ∧
    ((ok = false ∧ as'.Dead ∧ Stocked P m' rest ∧ liveBag m'.slabs = objs ∧
        ((as'.brkBase = heapBase ∧ as'.brkEnd = heapBase) ∨
          (as'.brkBase = source.brkBase ∧ as'.brkEnd = source.brkEnd))) ∨
     (ok = true ∧ as'.root ≠ 0 ∧ SameShape source as' ∧
        ∃ t', Owned P m' as' t' (fun i => entry m.mem kernelRoot i) rest objs)) := by
  rcases hinit : addressSpaceInit kernelRoot m with ⟨b, as0, m0⟩
  obtain ⟨hk0, heq, hok, hfail, t0, h0⟩ := addressSpaceInit_spec hst hlive hk hinit
  rw [addressSpaceClone, hinit] at hrun
  cases b with
  | false =>
    cases hrun
    obtain ⟨hdead, hst', hlive'⟩ := hfail rfl
    exact ⟨hk0, .inl ⟨rfl, hdead, hst', hlive', .inl ⟨by rw [heq], by rw [heq]⟩⟩⟩
  | true =>
    have hroot : as0.root ≠ 0 := hok.mp rfl
    have hown : Owned P m0 { as0 with brkBase := source.brkBase, brkEnd := source.brkEnd } t0
        (fun i => entry m.mem kernelRoot i) rest objs :=
      h0.of_areas h0.tabled h0.live
    rcases hareas : cloneAreas source.areas
        { as0 with brkBase := source.brkBase, brkEnd := source.brkEnd } m0 with ⟨b, as1, m1⟩
    obtain ⟨hk1, h1, new, rfl, hnew⟩ := cloneAreas_spec source.areas _ m0 hown (by rw [heq]) hareas
    simp only [hareas] at hrun
    cases b with
    | false =>
      cases hrun
      obtain ⟨hdead, hb, he, hst', hl', hk'⟩ := addressSpaceDestroy_spec h1 rfl
      exact ⟨(hk0.trans hk1).trans hk', .inl ⟨rfl, hdead, hst', hl', .inr ⟨hb, he⟩⟩⟩
    | true =>
      rcases hpages : clonePages source.pages { as0 with
          areas := as0.areas ++ new, brkBase := source.brkBase, brkEnd :=
          source.brkEnd } m1 with ⟨b, as2, m2⟩
      obtain ⟨hk2, t2, new', h2, rfl, hnew'⟩ := clonePages_spec source.pages _ m1 t0 h1 hpages
      simp only [hpages] at hrun
      have hkeep := (hk0.trans hk1).trans hk2
      cases b with
      | false =>
        cases hrun
        obtain ⟨hdead, hb, he, hst', hl', hk'⟩ := addressSpaceDestroy_spec h2 rfl
        exact ⟨hkeep.trans hk', .inl ⟨rfl, hdead, hst', hl', .inr ⟨hb, he⟩⟩⟩
      | true =>
        cases hrun
        have hnoa : as0.areas = [] := by rw [heq]
        have hnop : as0.pages = [] := by rw [heq]
        refine ⟨hkeep, .inr ⟨rfl, hroot, ⟨?_, ?_, rfl, rfl⟩, t2, h2⟩⟩
        · rw [hnoa, nil_append]
          exact hnew rfl
        show (as0.pages ++ new').map UserPage.shape = _
        rw [hnop, nil_append]
        exact hnew' rfl

end Clone

end MiniCore
