import MiniCore.Mm.Mapping

/-!
# MiniCore.Mm.Allocations

Which allocations a call makes, and that it fails exactly if one of them does.

`…Allocs` follows the control flow of the function it belongs to and lists the
outcomes of the calls of `page_alloc` and `kmalloc` on its way, `true` for
success.  A call whose arguments pass the checks, and that has room in table and
reservations, succeeds if and only if `false` is not among them.
-/

namespace MiniCore

open Lib

variable {P : PagePool} {m : Machine} {t : Radix} {shared : Nat → Nat} {rest : Multiset Nat}

/-- The outcome of an allocation that returned `address`. -/
def outcome (address : Nat) : Bool := address != 0

/-! ## What is allocated -/

def walkStepAllocs (entries i : Nat) (m : Machine) : List Bool :=
  if entry m.mem entries i &&& pteV = 0 then [outcome (pageAlloc m).1] else []

def walkFromAllocs (address : Nat) : Nat → Nat → Machine → List Bool
  | 0, _, _ => []
  | level + 1, entries, m =>
    walkStepAllocs entries (vpnIndex address (level + 1)) m ++
      match walkStep true entries (vpnIndex address (level + 1)) m with
      | (none, _) => []
      | (some next, m) => walkFromAllocs address level next m

def vmMapAllocs (root address physical flags : Nat) (m : Machine) : List Bool :=
  if pageOffset address ≠ 0 ∨ pageOffset physical ≠ 0 ∨ validLeafFlags flags = false then []
  else if root = 0 ∨ canonical address = false then []
  else walkFromAllocs address 2 root m

def addPageAllocs (as : AddressSpace) (address flags : Nat) (data : Option (Memory → Nat → UInt8))
    (size : Nat) (m : Machine) : List Bool :=
  if userEnd ≤ address ∨ pageOffset address ≠ 0 ∨ flags &&& pteU = 0 ∨ pageSize < size ∨
      (size ≠ 0 ∧ data.isNone) then []
  else
    match kmalloc userPageSize m with
    | (0, _) => [false]
    | (_, m) =>
      match pageAlloc m with
      | (0, _) => [true, false]
      | (physical, m) =>
        true :: true ::
          if mapped flags then vmMapAllocs as.root address physical flags
            (m.initPage physical size data)
          else []

def addPagesAllocs (flags : Nat) (load : Nat → UserPage → Machine → Option Machine) :
    Nat → Nat → AddressSpace → Machine → List Bool
  | 0, _, _, _ => []
  | count + 1, address, as, m =>
    addPageAllocs as address flags none 0 m ++
      match addressSpaceAddPage as address flags none 0 m with
      | (false, _, _) => []
      | (true, as, m) =>
        match as.pages.getLast?.bind fun page => load address page m with
        | none => []
        | some m => addPagesAllocs flags load count (address + pageSize) as m

def reserveAllocs (as : AddressSpace) (start stop : Nat) (m : Machine) : List Bool :=
  if stop ≤ start ∨ pageOffset start ≠ 0 ∨ pageOffset stop ≠ 0 ∨ userEnd < stop ∨
      vacant as.areas start stop = false then []
  else [outcome (kmalloc vmAreaSize m).1]

def mmapAllocs (as : AddressSpace) (address length prot mapflags : Nat) (file : Option File)
    (offset : Nat) (m : Machine) : List Bool :=
  if mmapInvalid length prot mapflags offset then []
  else if mapflags &&& mapAnonymous = 0 ∧ mappable file = false then []
  else
    let length := pageUp length
    if 2 ^ 64 - 1 - length < offset then []
    else if pageOffset address ≠ 0 then []
    else
      match mmapPlace as.areas address length mapflags with
      | .error _ => []
      | .ok address =>
        let flags := protFlags prot
        let kind := if mapflags &&& mapAnonymous ≠ 0 then AreaKind.anon else .file
        reserveAllocs as address (address + length) m ++
          match addressSpaceReserve as address (address + length) flags kind m with
          | (false, _, _) => []
          | (true, as, m) =>
            addPagesAllocs flags (mmapLoad mapflags file offset address)
              (pageCount address (address + length)) address as m

def preflightAllocs (start stop : Nat) : List VmArea → Machine → List Bool
  | [], _ => []
  | a :: rest, m =>
    if a.stop ≤ start ∨ stop ≤ a.start then preflightAllocs start stop rest m
    else if a.kind ≠ .anon ∧ a.kind ≠ .file then []
    else if a.start < start ∧ stop < a.stop then
      match kmalloc vmAreaSize m with
      | (0, _) => [false]
      | (_, m) => true :: preflightAllocs start stop rest m
    else preflightAllocs start stop rest m

def munmapAllocs (as : AddressSpace) (start length : Nat) (m : Machine) : List Bool :=
  if pageOffset start ≠ 0 ∨ length = 0 ∨ userEnd ≤ start ∨ userEnd - start < length then []
  else preflightAllocs start (pageUp (start + length)) as.areas m

def brkGrowAllocs (as : AddressSpace) (old stop : Nat) (m : Machine) : List Bool :=
  if vacant as.areas old stop = false then []
  else
    match findHeap as.areas with
    | some _ => addPagesAllocs heapFlags loadNothing (pageCount old stop) old as m
    | none =>
      match kmalloc vmAreaSize m with
      | (0, _) => [false]
      | (_, m) => true :: addPagesAllocs heapFlags loadNothing (pageCount old stop) old as m

def brkAllocs (as : AddressSpace) (requested : Nat) (m : Machine) : List Bool :=
  if requested = 0 then []
  else if requested < as.brkBase ∨ as.brkBase + maxMapping < requested then []
  else if pageUp as.brkEnd < pageUp requested then
    brkGrowAllocs as (pageUp as.brkEnd) (pageUp requested) m
  else []

/-! ## Tables -/

/-- Where a slot of a table holds a pointer or nothing, a round of the walk stops
only for want of a page. -/
theorem walkStep_none_iff {entries i : Nat} {o : Option Nat}
    (he : entry m.mem entries i = tableWord o) (ho : ∀ p, o = some p → IsPage p) :
    (walkStep true entries i m).1 = none ↔ false ∈ walkStepAllocs entries i m := by
  cases o with
  | none =>
    rw [tableWord] at he
    obtain ⟨page, m₁, heq⟩ : ∃ page m₁, pageAlloc m = (page, m₁) := ⟨_, _, rfl⟩
    cases page with
    | zero => simp [walkStep, walkStepAllocs, he, heq, outcome]
    | succ n => simp [walkStep, walkStepAllocs, he, heq, outcome]
  | some p =>
    obtain ⟨hvalid, hptr⟩ := isTable_iff.mp (isTable_makeTablePte (ho p rfl))
    rw [tableWord] at he
    simp [walkStep, walkStepAllocs, he, hvalid, hptr]

theorem walkFrom_none_iff (h : Tabled P m t shared rest) (hroot : t.root ≠ 0) {address : Nat}
    (hv : vpn address / 512 / 512 < t.width) :
    (walkFrom true address 2 t.root m).1 = none ↔ false ∈ walkFromAllocs address 2 t.root m := by
  have hfirst := walkStep_none_iff (h.rep.root_entry hroot _ hv)
    fun p hp => h.isPage (h.rep.mem_mid hp)
  obtain ⟨t1, hg1, -, hres1⟩ := walkStep_root h hroot hv
  rw [walkFrom, walkFromAllocs, vpnIndex_two, List.mem_append, ← hfirst]
  obtain ⟨r, m₁, heq⟩ : ∃ r m₁, walkStep true t.root (vpn address / 512 / 512) m = (r, m₁) :=
    ⟨_, _, rfl⟩
  rw [heq] at hg1 hres1 ⊢
  cases r with
  | none => simp
  | some q =>
    have hmid := hg1.tabled.rep.mid_entry (hres1 q rfl) (vpn address / 512 % 512)
      (Nat.mod_lt _ (by decide))
    have hsecond := walkStep_none_iff hmid fun p hp => hg1.tabled.isPage (hg1.tabled.rep.mem_low hp)
    dsimp only
    rw [walkFrom, walkFromAllocs, vpnIndex_one, List.mem_append, ← hsecond]
    obtain ⟨r', m₂, heq'⟩ : ∃ r' m₂, walkStep true q (vpn address / 512 % 512) m₁ = (r', m₂) :=
      ⟨_, _, rfl⟩
    rw [heq']
    cases r' with
    | none => simp
    | some p => simp [walkFrom, walkFromAllocs]

/-- **`vm_map` into a free slot** fails only for want of pages. -/
theorem vmMap_true_iff (h : Tabled P m t shared rest) (hroot : t.root ≠ 0)
    {address physical flags : Nat} (hv : vpn address / 512 / 512 < t.width)
    (hc : canonical address = true) (hal : pageOffset address = 0) (hp : pageOffset physical = 0)
    (hf : validLeafFlags flags = true) (hfree : t.leaf (vpn address) = 0) :
    (vmMap t.root address physical flags m).1 = true ↔
      false ∉ vmMapAllocs t.root address physical flags m := by
  have hbad : ¬(pageOffset address ≠ 0 ∨ pageOffset physical ≠ 0 ∨
      validLeafFlags flags = false) := by
    simp [hal, hp, hf]
  have hbad' : ¬(t.root = 0 ∨ canonical address = false) := by simp [hroot, hc]
  have hwalk : walk true t.root address m = walkFrom true address 2 t.root m := by
    rw [walk, if_neg hbad']
  rw [vmMap, if_neg hbad, vmMapAllocs, if_neg hbad, if_neg hbad', ← walkFrom_none_iff h hroot hv]
  obtain ⟨t1, hg, hres⟩ := walk_create h hv
  rw [← hwalk]
  obtain ⟨r, m₁, heq⟩ : ∃ r m₁, walk true t.root address m = (r, m₁) := ⟨_, _, rfl⟩
  rw [heq] at hg hres ⊢
  cases r with
  | none => simp
  | some slot =>
    obtain ⟨p, i⟩ := slot
    obtain ⟨hlow, rfl⟩ := hres p i rfl
    have hentry := hg.tabled.rep.low_entry hlow (vpn address % 512) (Nat.mod_lt _ (by decide))
    rw [Nat.div_add_mod, hg.grows.leaf, hfree] at hentry
    simp [hentry]

/-! ## Pages -/

section Pages

variable {m' m₁ m₂ : Machine} {as as' : AddressSpace} {objs : Multiset Nat} {ok : Bool}
  {ptr physical : Nat}

/-- A page can be added at the address with these flags, given the memory. -/
structure Addable (as : AddressSpace) (t : Radix) (address flags : Nat) : Prop where
  lt : address < 2 ^ 38
  aligned : address % 4096 = 0
  user : flags &&& pteU ≠ 0
  slot : mapped flags = true → as.root ≠ 0 ∧ validLeafFlags flags = true ∧
    t.leaf (address / 4096) = 0

/-- **`address_space_add_page`** where there is room fails only for want of memory. -/
theorem addPage_true_iff (h : Owned P m as t shared rest objs) {address flags : Nat}
    (hroom : Addable as t address flags) :
    (addressSpaceAddPage as address flags none 0 m).1 = true ↔
      false ∉ addPageAllocs as address flags none 0 m := by
  have hbad : ¬(userEnd ≤ address ∨ pageOffset address ≠ 0 ∨ flags &&& pteU = 0 ∨ pageSize < 0 ∨
      (0 ≠ 0 ∧ (none : Option (Memory → Nat → UInt8)).isNone)) := by
    simp only [not_or, not_le, not_lt, ne_eq, not_not, userEnd, pageSize]
    exact ⟨hroom.lt, hroom.aligned, hroom.user, Nat.zero_le _, by simp⟩
  rw [addressSpaceAddPage, if_neg hbad, addPageAllocs, if_neg hbad]
  obtain ⟨ptr, m₁, hk⟩ : ∃ ptr m₁, kmalloc userPageSize m = (ptr, m₁) := ⟨_, _, rfl⟩
  rcases h.newRecord hk with ⟨rfl, -⟩ | ⟨hptr, h1, -⟩
  · simp [hk]
  obtain ⟨n, rfl⟩ := Nat.exists_eq_succ_of_ne_zero hptr
  obtain ⟨physical, m₂, hpa⟩ : ∃ physical m₂, pageAlloc m₁ = (physical, m₂) := ⟨_, _, rfl⟩
  rcases h1.tabled.pageAlloc hpa with ⟨rfl, -⟩ | ⟨hphys, h2, -, hslabs⟩
  · simp [hk, hpa]
  obtain ⟨k, rfl⟩ := Nat.exists_eq_succ_of_ne_zero hphys.ne_zero
  have hin : InHand P m₂ as t shared rest objs (n + 1) (k + 1) :=
    ⟨h2, by rw [hslabs, h1.live, Multiset.add_cons]⟩
  obtain ⟨hin', -⟩ := hin.fill none (Nat.zero_le 4096)
  simp only [hk, hpa]
  cases hm : mapped flags with
  | false => simp
  | true =>
    obtain ⟨hroot, hvalid, hfree⟩ := hroom.slot hm
    have hv : vpn address / 512 / 512 < t.width := by
      rw [h.width]
      exact vpn_root_lt hroom.lt
    have hiff := vmMap_true_iff hin'.tabled (h.root_eq ▸ hroot) hv (canonical_of_lt hroom.lt)
      hroom.aligned hphys.aligned hvalid (vpn_of_lt hroom.lt ▸ hfree)
    rw [h.root_eq] at hiff
    simp only [if_true, List.mem_cons, Bool.false_eq_true, false_or]
    rw [← hiff]
    split <;> simp_all

end Pages

end MiniCore
