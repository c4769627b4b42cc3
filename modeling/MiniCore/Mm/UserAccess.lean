import MiniCore.Mm.Ownership

/-!
# MiniCore.Mm.UserAccess

What the kernel reaches through a user address: translations read off the
ledger, and `address_space_copy` confined to it.

A query in the user half answers with a ledger page or not at all
(`Owned.vmQuery_page`, `Owned.vmQuery_some`).  A chunk of a copy lies in one
page, so every byte a copy moves is a byte of a ledger page
(`addressSpaceCopy_spec`), and its result depends on no other byte
(`addressSpaceCopy_congr`).
-/

namespace MiniCore

open Lib

variable {P : PagePool} {m m' : Machine} {as : AddressSpace} {t : Radix} {shared : Nat → Nat}
  {rest rest' objs objs' : Multiset Nat}

/-- The page of the ledger entry contains the address. -/
def UserPage.Covers (p : UserPage) (address : Nat) : Prop :=
  p.virtualAddress ≤ address ∧ address < p.virtualAddress + 4096

/-- A physical range inside one page of the ledger. -/
def AddressSpace.Holds (as : AddressSpace) (r : Nat × Nat) : Prop :=
  ∃ p ∈ as.pages, p.physical ≤ r.1 ∧ r.1 + r.2 ≤ p.physical + 4096

theorem IsPage.or_offset {p off : Nat} (hp : IsPage p) (h : off < 4096) : p ||| off = p + off :=
  or_offset_of_aligned hp.aligned h

section Query

variable {p : UserPage} {address : Nat}

variable (h : Owned P m as t shared rest objs)

include h

/-- The answer to a query in the user half is a function of the table. -/
theorem Owned.vmQuery_eq (ha : address < 2 ^ 38) : vmQuery as.root address m =
      if t.leaf (address / 4096) = 0 then none
      else some (ptePhysical (t.leaf (address / 4096)) ||| pageOffset address,
        t.leaf (address / 4096) &&& 0x3ff) := by
  have hw : vpn address / 512 / 512 < t.width := by
    rw [h.width]
    exact vpn_root_lt ha
  rw [← h.root_eq, vmQuery_spec h.tabled (canonical_of_lt ha) hw, vpn_of_lt ha]

theorem Owned.isPage (hp : p ∈ as.pages) : IsPage p.physical :=
  h.tabled.isPage_rest (Multiset.mem_add.mpr (.inl (List.mem_map_of_mem hp)))

/-- **A mapped ledger page answers the queries it covers.** -/
theorem Owned.vmQuery_page (hp : p ∈ as.pages)
    (hm : mapped p.flags = true) (hc : p.Covers address) : vmQuery as.root address m =
      some (p.physical + (address - p.virtualAddress), hardwareFlags p.flags) := by
  have hok := h.page_ok p hp
  have hlt := hok.lt
  have hal := hok.aligned
  obtain ⟨hlo, hhi⟩ := hc
  have hoff : pageOffset address = address - p.virtualAddress := by
    rw [pageOffset_eq]
    omega
  have hleaf : t.leaf (address / 4096) = leafPte p.physical p.flags := by
    have hdiv : address / 4096 = p.virtualAddress / 4096 := by omega
    rw [hdiv, h.leaves.of_page p hp hm]
  have hne := (h.isLeaf hp hm).ne_zero
  have hpage := h.isPage hp
  rw [h.vmQuery_eq (by omega), hleaf, if_neg hne,
    ptePhysical_leafPte hpage.aligned hpage.lt (hok.valid hm),
    leafPte_and_flags hpage.aligned hpage.lt (hok.valid hm), hoff, hpage.or_offset (by omega)]

/-- **Only ledger pages answer**: an address that translates is covered. -/
theorem Owned.vmQuery_some (ha : address < 2 ^ 38)
    {r : Nat × Nat} (hq : vmQuery as.root address m = some r) :
    ∃ p ∈ as.pages, mapped p.flags = true ∧ p.Covers address ∧
      r = (p.physical + (address - p.virtualAddress), hardwareFlags p.flags) := by
  have hleaf : t.leaf (address / 4096) ≠ 0 := by
    intro hz
    rw [h.vmQuery_eq ha, if_pos hz] at hq
    cases hq
  obtain ⟨p, hp, hm, hdiv⟩ := h.leaves.page_of _ hleaf
  have hal := (h.page_ok p hp).aligned
  have hc : p.Covers address := ⟨by omega, by omega⟩
  rw [h.vmQuery_page hp hm hc] at hq
  exact ⟨p, hp, hm, hc, (Option.some.inj hq).symm⟩

/-! ## Chunks -/

/-- A chunk that translates lies in a ledger page with the rights asked for. -/
theorem Owned.accessible_some (ha : address < 2 ^ 38)
    {write : Bool} {physical : Nat} (hacc : accessible as address write m = some physical) :
    ∃ p ∈ as.pages, p.Covers address ∧ physical = p.physical + (address - p.virtualAddress) ∧
      p.flags &&& pteU ≠ 0 ∧ p.flags &&& pteR ≠ 0 ∧ (write = true → p.flags &&& pteW ≠ 0) := by
  rw [accessible] at hacc
  cases hq : vmQuery as.root address m with
  | none => simp [hq] at hacc
  | some r =>
    obtain ⟨p, hp, hm, hc, rfl⟩ := h.vmQuery_some ha hq
    have hflags : ∀ f < 64, hardwareFlags f &&& (pteU ||| pteR) = pteU ||| pteR →
        f &&& pteU ≠ 0 ∧ f &&& pteR ≠ 0 := by decide
    have hwrite : ∀ f < 64, hardwareFlags f &&& pteW ≠ 0 → f &&& pteW ≠ 0 := by decide
    have hlt := validLeafFlags_lt ((h.page_ok p hp).valid hm)
    simp only [hq] at hacc
    split at hacc
    · cases hacc
    rename_i hgood
    simp only [not_or, not_not, not_and, ne_eq] at hgood
    have hur := hflags _ hlt hgood.1
    cases hacc
    exact ⟨p, hp, hc, rfl, hur.1, hur.2, fun hw => hwrite _ hlt (hgood.2 hw)⟩

/-- The bytes of such a chunk. -/
theorem Owned.holds_chunk (ha : address < 2 ^ 38)
    {write : Bool} {physical chunk : Nat} (hacc : accessible as address write m = some physical)
    (hin : address % 4096 + chunk ≤ 4096) : as.Holds (physical, chunk) := by
  obtain ⟨p, hp, ⟨hlo, hhi⟩, rfl, _⟩ := h.accessible_some ha hacc
  have hal := (h.page_ok p hp).aligned
  exact ⟨p, hp, Nat.le_add_right _ _, by simp only; omega⟩

/-- Two machines under the same table translate alike. -/
theorem Owned.vmQuery_congr (h' : Owned P m' as t shared rest' objs') (ha : address < 2 ^ 38) :
    vmQuery as.root address m' = vmQuery as.root address m := by
  rw [h.vmQuery_eq ha, h'.vmQuery_eq ha]

end Query

/-! ## Copies -/

/-- A copy that started on `m` and has only moved bytes of ledger pages. -/
structure Confined (as : AddressSpace) (m : Machine) (c : Copy) : Prop where
  holds : ∀ r ∈ c.touched, as.Holds r
  mem : ∀ b, (∀ p ∈ as.pages, b ∉ pageBytes p.physical) → c.machine.mem b = m.mem b
  freeList : c.machine.freeList = m.freeList
  slabs : c.machine.slabs = m.slabs
  frees : c.machine.frees = m.frees

/-- The chunks of a user range: each starts in the user half and stays in a page. -/
def UserChunk (c : Nat × Nat) : Prop := c.1 < 2 ^ 38 ∧ c.1 % 4096 + c.2 ≤ 4096

theorem userChunk_of_mem {address size : Nat} (hle : address + size ≤ 2 ^ 38) :
    ∀ c ∈ chunks pageSize address size, UserChunk c := by
  intro c hc
  obtain ⟨hpos, hin, hlo, hhi⟩ := (chunked (by decide) _ _).inside c hc
  exact ⟨by omega, hin⟩

section Copies

theorem Confined.start (as : AddressSpace) (m : Machine) (buffer : Nat → UInt8) :
    Confined as m ⟨m, buffer, 0, []⟩ :=
  ⟨by simp, fun _ _ => rfl, rfl, rfl, rfl⟩

/-- One chunk. -/
theorem Confined.move {c : Copy} {physical chunk : Nat} (h : Confined as m c)
    (hr : as.Holds (physical, chunk)) (toUser : Bool) :
    Confined as m (c.move physical chunk toUser) := by
  have htouched : ∀ r ∈ (physical, chunk) :: c.touched, as.Holds r := by
    simpa using ⟨hr, fun a b hab => h.holds (a, b) hab⟩
  cases toUser with
  | false => exact ⟨htouched, h.mem, h.freeList, h.slabs, h.frees⟩
  | true =>
    refine ⟨htouched, fun b hb => ?_, h.freeList, h.slabs, h.frees⟩
    obtain ⟨p, hp, hlo, hhi⟩ := hr
    have hout : b < physical ∨ physical + chunk ≤ b := by
      have hnot : ¬ (p.physical ≤ b ∧ b < p.physical + 4096) := hb p hp
      simp only at hlo hhi
      omega
    simp only [Copy.move, if_true, Machine.write]
    rw [fill_of_not_mem hout, h.mem b hb]

theorem Owned.move {c : Copy} {physical chunk : Nat}
    (h : Owned P c.machine as t shared rest objs) (hr : as.Holds (physical, chunk))
    (toUser : Bool) : Owned P (c.move physical chunk toUser).machine as t shared rest objs ∧
      Keeps rest c.machine (c.move physical chunk toUser).machine := by
  cases toUser with
  | false => exact ⟨h, Keeps.refl _ _⟩
  | true =>
    obtain ⟨p, hp, hlo, hhi⟩ := hr
    obtain ⟨h', hk⟩ := h.write hp hlo hhi
    exact ⟨h', hk.part⟩

theorem copyLoop_spec (toUser : Bool) : ∀ (cs : List (Nat × Nat)) (c : Copy),
    (∀ x ∈ cs, UserChunk x) → Owned P c.machine as t shared rest objs → Confined as m c →
    Owned P (copyLoop as toUser cs c).2.machine as t shared rest objs ∧
      Confined as m (copyLoop as toUser cs c).2 ∧
      Keeps rest c.machine (copyLoop as toUser cs c).2.machine := by
  intro cs
  induction cs with
  | nil => exact fun c _ h hc => ⟨h, hc, Keeps.refl _ _⟩
  | cons x cs ih =>
    intro c hcs h hc
    obtain ⟨address, chunk⟩ := x
    obtain ⟨hlt, hin⟩ := hcs _ List.mem_cons_self
    rw [copyLoop]
    cases hacc : accessible as address toUser c.machine with
    | none => exact ⟨h, hc, Keeps.refl _ _⟩
    | some physical =>
      have hr := h.holds_chunk hlt hacc hin
      obtain ⟨h', hk⟩ := h.move hr toUser
      obtain ⟨h'', hc'', hk'⟩ := ih (c.move physical chunk toUser)
        (fun x hx => hcs x (List.mem_cons_of_mem _ hx)) h' (hc.move hr toUser)
      exact ⟨h'', hc'', hk.trans hk'⟩

/-- **`address_space_copy`** moves bytes of ledger pages only, and writes
nowhere else. -/
theorem addressSpaceCopy_spec (h : Owned P m as t shared rest objs)
    (buffer : Option (Nat → UInt8)) (address size : Nat) (toUser : Bool) :
    Owned P (addressSpaceCopy as buffer address size toUser m).2.machine as t shared rest objs ∧
      Confined as m (addressSpaceCopy as buffer address size toUser m).2 ∧
      Keeps rest m (addressSpaceCopy as buffer address size toUser m).2.machine := by
  unfold addressSpaceCopy
  split
  · exact ⟨h, Confined.start _ _ _, Keeps.refl _ _⟩
  split
  · exact ⟨h, Confined.start _ _ _, Keeps.refl _ _⟩
  rename_i hbad
  simp only [not_or, not_le, not_lt, userEnd] at hbad
  exact copyLoop_spec toUser _ _ (userChunk_of_mem (by omega)) h (Confined.start _ _ _)

/-! ## What a copy depends on -/

/-- Two copies in step on two machines with the same ledger bytes. -/
structure InStep (as : AddressSpace) (c c' : Copy) : Prop where
  buffer : c'.buffer = c.buffer
  done : c'.done = c.done
  bytes : ∀ p ∈ as.pages, Set.EqOn c'.machine.mem c.machine.mem (pageBytes p.physical)

theorem InStep.move {c c' : Copy} (h : InStep as c c') {physical chunk : Nat}
    (hr : as.Holds (physical, chunk)) (toUser : Bool) :
    InStep as (c.move physical chunk toUser) (c'.move physical chunk toUser) := by
  obtain ⟨p, hp, hlo, hhi⟩ := hr
  simp only at hlo hhi
  cases toUser with
  | false =>
    refine ⟨?_, congrArg (· + chunk) h.done, h.bytes⟩
    funext b
    simp only [Copy.move, Bool.false_eq_true, if_false, h.buffer, h.done, fill]
    split
    · rename_i hb
      exact h.bytes p hp ⟨by omega, by omega⟩
    · rfl
  | true =>
    refine ⟨h.buffer, congrArg (· + chunk) h.done, fun q hq b hb => ?_⟩
    simp only [Copy.move, if_true, Machine.write, h.buffer, h.done, fill]
    split
    · rfl
    · exact h.bytes q hq hb

theorem copyLoop_congr (toUser : Bool) : ∀ (cs : List (Nat × Nat)) (c c' : Copy),
    (∀ x ∈ cs, UserChunk x) → Owned P c.machine as t shared rest objs →
    Owned P c'.machine as t shared rest' objs' → InStep as c c' →
    (copyLoop as toUser cs c').1 = (copyLoop as toUser cs c).1 ∧
      InStep as (copyLoop as toUser cs c).2 (copyLoop as toUser cs c').2 := by
  intro cs
  induction cs with
  | nil => exact fun c c' _ _ _ hs => ⟨rfl, hs⟩
  | cons x cs ih =>
    intro c c' hcs h h' hs
    obtain ⟨address, chunk⟩ := x
    obtain ⟨hlt, hin⟩ := hcs _ List.mem_cons_self
    have hsame : accessible as address toUser c'.machine =
        accessible as address toUser c.machine := by
      rw [accessible, accessible, h.vmQuery_congr h' hlt]
    rw [copyLoop, copyLoop, hsame]
    cases hacc : accessible as address toUser c.machine with
    | none => exact ⟨rfl, hs⟩
    | some physical =>
      have hr := h.holds_chunk hlt hacc hin
      exact ih _ _ (fun x hx => hcs x (List.mem_cons_of_mem _ hx)) (h.move hr toUser).1
        (h'.move hr toUser).1 (hs.move hr toUser)

variable (h : Owned P m as t shared rest objs)

include h

/-- **A copy depends on the space's own pages only**: change any other byte and
it returns the same result and the same buffer. -/
theorem addressSpaceCopy_congr (h' : Owned P m' as t shared rest' objs')
    (hbytes : ∀ p ∈ as.pages, Set.EqOn m'.mem m.mem (pageBytes p.physical))
    (buffer : Option (Nat → UInt8)) (address size : Nat) (toUser : Bool) :
    (addressSpaceCopy as buffer address size toUser m').1 =
        (addressSpaceCopy as buffer address size toUser m).1 ∧
      InStep as (addressSpaceCopy as buffer address size toUser m).2
        (addressSpaceCopy as buffer address size toUser m').2 := by
  have hstart : InStep as ⟨m, buffer.getD fun _ => 0, 0, []⟩ ⟨m', buffer.getD fun _ => 0, 0, []⟩ :=
    ⟨rfl, rfl, hbytes⟩
  unfold addressSpaceCopy
  split
  · exact ⟨rfl, hstart⟩
  split
  · exact ⟨rfl, hstart⟩
  rename_i hbad
  simp only [not_or, not_le, not_lt, userEnd] at hbad
  exact copyLoop_congr toUser _ _ _ (userChunk_of_mem (by omega)) h h' hstart

end Copies

end MiniCore
