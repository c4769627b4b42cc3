import MiniCore.Mm.Peek

/-!
# MiniCore.Mm.UserCopy

The laws of `address_space_copy` and `address_space_validate`
(`src/mm/address_space.c`).

Both loops look at one page after the other, and both succeed if and only if
every page of the range may be accessed (`UserRange`).  A copy to the program
stores a prefix of the buffer, all of it if it succeeds, at the frames behind the
range and nowhere else (`Stores`); what it stored can be read back.
-/

namespace MiniCore

open Lib

/-- The page of an address is mapped for the user, readable, and writable if asked. -/
def PageOpen (as : AddressSpace) (m : Machine) (write : Bool) (a : Nat) : Prop :=
  ∃ r, vmQuery as.root a m = some r ∧ Grants write r.2

/-- The range is empty, or ends in the user half with every page it touches open. -/
def UserRange (as : AddressSpace) (m : Machine) (a n : Nat) (write : Bool) : Prop :=
  n = 0 ∨ a + n ≤ 2 ^ 38 ∧ ∀ q, q % 4096 = 0 → a < q + 4096 → q < a + n → PageOpen as m write q

/-- The bytes `f 0, …, f (k - 1)` are behind the addresses from `a` on; no other
byte of the machine and no translation has changed. -/
structure Stores (as : AddressSpace) (m m' : Machine) (a k : Nat) (f : Nat → UInt8) : Prop where
  query : ∀ b < 2 ^ 38, vmQuery as.root b m' = vmQuery as.root b m
  inside : ∀ i < k, ∀ r, vmQuery as.root (a + i) m = some r → m'.mem r.1 = f i
  outside : ∀ x, (∀ i < k, ∀ r, vmQuery as.root (a + i) m = some r → r.1 ≠ x) → m'.mem x = m.mem x

section

variable {P : PagePool} {m m' : Machine} {as : AddressSpace} {t : Radix} {shared : Nat → Nat}
  {rest objs : Multiset Nat} {a b k n : Nat} {write : Bool}

/-! ## Ranges -/

theorem accessible_isSome : (accessible as a write m).isSome = true ↔ PageOpen as m write a := by
  rw [Option.isSome_iff_exists]
  constructor
  · rintro ⟨physical, hacc⟩
    obtain ⟨flags, hq, hg⟩ := accessible_eq_some.mp hacc
    exact ⟨_, hq, hg⟩
  · rintro ⟨⟨physical, flags⟩, hq, hg⟩
    exact ⟨physical, accessible_eq_some.mpr ⟨flags, hq, hg⟩⟩

variable (h : Owned P m as t shared rest objs)

include h

theorem Owned.pageOpen_same (ha : a < 2 ^ 38)
    (hpage : a / 4096 = b / 4096) (hopen : PageOpen as m write a) : PageOpen as m write b := by
  obtain ⟨⟨physical, flags⟩, hq, hg⟩ := hopen
  exact ⟨_, h.vmQuery_same ha hpage hq, hg⟩

/-- Page by page is byte by byte. -/
theorem Owned.userRange_iff :
    UserRange as m a n write ↔ n = 0 ∨ a + n ≤ 2 ^ 38 ∧ ∀ i < n, PageOpen as m write (a + i) := by
  by_cases hn : n = 0
  · simp [UserRange, hn]
  simp only [UserRange, hn, false_or]
  refine and_congr_right fun hle => ⟨fun hall i hi => ?_, fun hall q hq hlo hhi => ?_⟩
  · have hopen := hall ((a + i) / 4096 * 4096) (Nat.mul_mod_left _ _) (by omega) (by omega)
    exact h.pageOpen_same (by omega) (by omega) hopen
  · have hopen := hall (max a q - a) (by omega)
    exact h.pageOpen_same (by omega) (by omega) hopen

/-- **`address_space_validate`** -/
theorem Owned.validate_iff :
    addressSpaceValidate as a n write m = true ↔ UserRange as m a n write := by
  rw [h.userRange_iff, addressSpaceValidate]
  split
  · next hn => simp [hn]
  next hn =>
  split
  · next hbad =>
    unfold userEnd at hbad
    simp only [Bool.false_eq_true, false_iff, not_or, not_and]
    exact ⟨hn, fun hle => by omega⟩
  next hgood =>
  unfold userEnd at hgood
  have hle : a + n ≤ 2 ^ 38 := by omega
  simp only [List.all_eq_true, accessible_isSome, hn, false_or, hle, true_and]
  constructor
  · intro hall i hi
    obtain ⟨c, hc, hlo, hhi⟩ := (chunked pageSize_pos _ _).cover (a + i) (Nat.le_add_right _ _)
      (Nat.add_lt_add_left hi a)
    obtain ⟨hlt, hin⟩ := userChunk_of_mem hle c hc
    exact h.pageOpen_same hlt (by omega) (hall c hc)
  · intro hall c hc
    obtain ⟨hpos, -, hlo, hhi⟩ := (chunked pageSize_pos _ _).inside c hc
    have hopen := hall (c.1 - a) (by omega)
    rwa [Nat.add_sub_cancel' hlo] at hopen

/-- A validated range is covered by ledger pages with the rights asked for. -/
theorem Owned.validate_covers (hv : addressSpaceValidate as a n write m = true) (hlo : a ≤ b)
    (hhi : b < a + n) : ∃ p ∈ as.pages, p.Covers b ∧
      p.flags &&& pteU ≠ 0 ∧ p.flags &&& pteR ≠ 0 ∧ (write = true → p.flags &&& pteW ≠ 0) := by
  rcases h.userRange_iff.mp (h.validate_iff.mp hv) with rfl | ⟨hle, hall⟩
  · omega
  have hopen := hall (b - a) (by omega)
  rw [Nat.add_sub_cancel' hlo] at hopen
  obtain ⟨physical, hacc⟩ := Option.isSome_iff_exists.mp (accessible_isSome.mpr hopen)
  obtain ⟨p, hp, hc, -, hrights⟩ := h.accessible_some (by omega) hacc
  exact ⟨p, hp, hc, hrights⟩

omit h in
/-- What may be accessed depends on the translations only. -/
theorem UserRange.congr (h : ∀ b < 2 ^ 38, vmQuery as.root b m' = vmQuery as.root b m) :
    UserRange as m' a n write ↔ UserRange as m a n write := by
  refine or_congr_right (and_congr_right fun hle => forall_congr' fun q => ?_)
  refine imp_congr_right fun _ => imp_congr_right fun _ => imp_congr_right fun hlt => ?_
  rw [PageOpen, PageOpen, h q (by omega)]

/-- Two machines under the same table validate the same ranges. -/
theorem Owned.validate_congr {rest' objs' : Multiset Nat}
    (h' : Owned P m' as t shared rest' objs') (a n : Nat) (write : Bool) :
    addressSpaceValidate as a n write m' = addressSpaceValidate as a n write m := by
  rw [Bool.eq_iff_iff, h.validate_iff, h'.validate_iff]
  exact UserRange.congr fun b hb => h.vmQuery_congr h' hb

/-! ## Copies to the program -/

theorem Owned.vmQuery_inj (ha : a < 2 ^ 38) (hb : b < 2 ^ 38)
    {r s : Nat × Nat} (hqa : vmQuery as.root a m = some r) (hqb : vmQuery as.root b m = some s)
    (heq : r.1 = s.1) : a = b := by
  obtain ⟨hra, hsb, hpage⟩ := h.vmQuery_apart ha hb hqa hqb
  have := hpage (by rw [heq])
  omega

omit h in
theorem Stores.zero (as : AddressSpace) (m : Machine) (a : Nat) (f : Nat → UInt8) :
    Stores as m m a 0 f :=
  ⟨fun _ _ => rfl, fun i hi => absurd hi (Nat.not_lt_zero i), fun _ _ => rfl⟩

/-- One chunk. -/
theorem Owned.stores_write {f : Nat → UInt8} {physical flags : Nat}
    (ha : a < 2 ^ 38) (hin : a % 4096 + n ≤ 4096)
    (hq : vmQuery as.root a m = some (physical, flags)) :
    Stores as m (m.write physical n f) a n f := by
  obtain ⟨h', -, -⟩ := h.peek_write (f := f) ha hin hq
  have hphys := (h.vmQuery_apart ha ha hq hq).1
  have hat : ∀ i < n, vmQuery as.root (a + i) m = some (physical + i, flags) := by
    intro i hi
    rw [h.vmQuery_same ha (b := a + i) (by omega) hq]
    simp only at hphys
    have hoff : physical - a % 4096 + (a + i) % 4096 = physical + i := by omega
    rw [hoff]
  refine ⟨fun b hb => h.vmQuery_congr h' hb, fun i hi r hr => ?_, fun x hx => ?_⟩
  · rw [hat i hi] at hr
    cases hr
    exact fill_of_mem hi
  refine fill_of_not_mem ?_
  by_contra hno
  refine hx (x - physical) (by omega) _ (hat _ (by omega)) ?_
  simp only
  omega

/-- Two ranges, one behind the other. -/
theorem Stores.append {m1 : Machine} {k : Nat} {f : Nat → UInt8}
    (hle : a + (n + k) ≤ 2 ^ 38) (h1 : Stores as m m1 a n f)
    (h2 : Stores as m1 m' (a + n) k fun i => f (n + i)) : Stores as m m' a (n + k) f := by
  have hquery : ∀ i < k, vmQuery as.root (a + n + i) m1 = vmQuery as.root (a + (n + i)) m := by
    intro i hi
    rw [h1.query _ (by omega), Nat.add_assoc]
  refine ⟨fun b hb => (h2.query b hb).trans (h1.query b hb), fun i hi r hr => ?_, fun x hx => ?_⟩
  · by_cases hlt : i < n
    · rw [h2.outside r.1 ?_, h1.inside i hlt r hr]
      intro j hj s hs heq
      rw [hquery j hj] at hs
      have := h.vmQuery_inj (by omega) (by omega) hs hr heq
      omega
    · have hr' : vmQuery as.root (a + n + (i - n)) m1 = some r := by
        rw [hquery _ (by omega), ← hr]
        congr 1
        omega
      rw [h2.inside (i - n) (by omega) r hr']
      congr 1
      omega
  · rw [h2.outside x ?_, h1.outside x fun i hi => hx i (by omega)]
    intro j hj s hs
    rw [hquery j hj] at hs
    exact hx (n + j) (by omega) s hs

omit h in
/-- **The loop of a copy to the program** stores the bytes up to the first page
that is not open. -/
theorem copyLoop_stores (address size : Nat) : ∀ c : Copy, Owned P c.machine as t shared rest objs →
    address + size ≤ 2 ^ 38 →
    ∃ k ≤ size, (∀ i < k, PageOpen as c.machine true (address + i)) ∧
      Stores as c.machine (copyLoop as true (chunks pageSize address size) c).2.machine address k
        (fun i => c.buffer (c.done + i)) ∧
      ((copyLoop as true (chunks pageSize address size) c).1 = true ∧ k = size ∨
        (copyLoop as true (chunks pageSize address size) c).1 = false ∧ k < size ∧
          ¬PageOpen as c.machine true (address + k)) := by
  have hl := chunked pageSize_pos address size
  generalize chunks pageSize address size = l at hl ⊢
  induction hl with
  | nil => exact fun c _ _ => ⟨0, Nat.le_refl _, by simp, Stores.zero _ _ _ _, .inl ⟨rfl, rfl⟩⟩
  | cons address chunk size l hpos hin _ ih =>
  intro c h hle
  have hin' : address % 4096 + chunk ≤ 4096 := hin
  have hlt : address < 2 ^ 38 := by omega
  rw [copyLoop]
  cases hacc : accessible as address true c.machine with
  | none =>
    refine ⟨0, Nat.zero_le _, by simp, Stores.zero _ _ _ _, .inr ⟨rfl, by omega, fun hopen => ?_⟩⟩
    have hsome := accessible_isSome.mpr hopen
    rw [Nat.add_zero, hacc] at hsome
    cases hsome
  | some physical =>
    obtain ⟨flags, hq, hg⟩ := accessible_eq_some.mp hacc
    have hstores : Stores as c.machine (c.move physical chunk true).machine address chunk
        fun i => c.buffer (c.done + i) := h.stores_write hlt hin' hq
    have h' : Owned P (c.move physical chunk true).machine as t shared rest objs :=
      (h.peek_write hlt hin' hq).1
    have hopen : ∀ {b}, b < 2 ^ 38 →
        (PageOpen as (c.move physical chunk true).machine true b ↔
          PageOpen as c.machine true b) := by
      intro b hb
      simp only [PageOpen, hstores.query b hb]
    obtain ⟨k, hk, hall, hrest, hend⟩ := ih (c.move physical chunk true) h' (by omega)
    have hbuf :
      (fun i => (c.move physical chunk true).buffer ((c.move physical chunk true).done + i)) =
        fun i => c.buffer (c.done + (chunk + i)) := by
      funext i
      simp only [Copy.move, if_true, Nat.add_assoc]
    rw [hbuf] at hrest
    refine ⟨chunk + k, by omega, fun i hi => ?_, Stores.append h (by omega) hstores hrest, ?_⟩
    · by_cases hi' : i < chunk
      · exact h.pageOpen_same hlt (by omega) ⟨_, hq, hg⟩
      · have := (hopen (by omega)).mp (hall (i - chunk) (by omega))
        rwa [Nat.add_assoc, Nat.add_sub_cancel' (by omega)] at this
    · rcases hend with ⟨hok, rfl⟩ | ⟨hfail, hk', hclosed⟩
      · exact .inl ⟨hok, rfl⟩
      · refine .inr ⟨hfail, by omega, ?_⟩
        rwa [hopen (by omega), Nat.add_assoc] at hclosed

/-- **`address_space_copy`** to the program. -/
theorem Owned.copyOut (buffer : Nat → UInt8) (a n : Nat) :
    ∃ k ≤ n, (∀ i < k, PageOpen as m true (a + i)) ∧
      Stores as m (addressSpaceCopy as (some buffer) a n true m).2.machine a k buffer ∧
      ((addressSpaceCopy as (some buffer) a n true m).1 = true ∧ k = n ∧
          (n = 0 ∨ a + n ≤ 2 ^ 38) ∨
        (addressSpaceCopy as (some buffer) a n true m).1 = false ∧
          k < n ∧ (2 ^ 38 < a + n ∧ k = 0 ∨ ¬PageOpen as m true (a + k))) := by
  unfold addressSpaceCopy
  by_cases hn : n = 0
  · rw [if_pos hn]
    exact ⟨0, Nat.zero_le _, by simp, Stores.zero _ _ _ _, .inl ⟨rfl, hn.symm, .inl hn⟩⟩
  rw [if_neg hn]
  by_cases hbad : (some buffer).isNone = true ∨ userEnd ≤ a ∨ userEnd - a < n
  · rw [if_pos hbad]
    refine ⟨0, Nat.zero_le _, by simp, Stores.zero _ _ _ _,
      .inr ⟨rfl, Nat.pos_of_ne_zero hn, .inl ⟨?_, rfl⟩⟩⟩
    simp only [Option.isNone_some, Bool.false_eq_true, false_or, userEnd] at hbad
    omega
  rw [if_neg hbad]
  simp only [Option.isNone_some, Bool.false_eq_true, false_or, userEnd] at hbad
  obtain ⟨k, hk, hopen, hstores, hend⟩ :=
    copyLoop_stores a n ⟨m, (some buffer).getD fun _ => 0, 0, []⟩ h (by omega)
  simp only [Option.getD_some, Nat.zero_add] at hstores
  exact ⟨k, hk, hopen, hstores, hend.imp (fun hok => ⟨hok.1, hok.2, .inr (by omega)⟩)
    fun hfail => ⟨hfail.1, hfail.2.1, .inr hfail.2.2⟩⟩

/-- What was stored is shown in its range and nowhere else. -/
theorem Stores.overlay {f : Nat → UInt8} (hs : Stores as m m' a k f)
    (hle : a + k ≤ 2 ^ 38) : SameUser (peek as m') (overlay (peek as m) a k f) := by
  intro b hb
  simp only [peek, MiniCore.overlay, hs.query b hb]
  cases hq : vmQuery as.root b m with
  | none => simp
  | some r =>
    simp only [Option.map_some]
    split
    · next hin =>
      rw [hs.inside (b - a) (by omega) r (by rw [Nat.add_sub_cancel' hin.1, hq])]
    next hout =>
    rw [hs.outside r.1 fun i hi s hqs heq => hout ?_]
    have := h.vmQuery_inj (by omega) hb hqs hq heq
    omega

/-! ## Copies from the program -/

omit h in
theorem userByte_ne_none : userByte as m write a ≠ none ↔ a < 2 ^ 38 ∧ PageOpen as m write a := by
  rw [Option.ne_none_iff_exists']
  constructor
  · rintro ⟨x, hx⟩
    obtain ⟨hlt, flags, hpeek, hg⟩ := userByte_eq_some.mp hx
    obtain ⟨r, hq, heq⟩ := Option.map_eq_some_iff.mp hpeek
    cases heq
    exact ⟨hlt, r, hq, hg⟩
  · rintro ⟨hlt, r, hq, hg⟩
    exact ⟨m.mem r.1, userByte_eq_some.mpr ⟨hlt, r.2, by rw [peek, hq]; rfl, hg⟩⟩

omit h in
theorem copyLoop_false_machine : ∀ (cs : List (Nat × Nat)) (c : Copy),
    (copyLoop as false cs c).2.machine = c.machine := by
  intro cs
  induction cs with
  | nil => exact fun c => rfl
  | cons x cs ih =>
    intro c
    rw [copyLoop]
    split
    · rfl
    · exact ih _

omit h in
theorem addressSpaceCopy_false_machine (buffer : Option (Nat → UInt8)) :
    (addressSpaceCopy as buffer a n false m).2.machine = m := by
  unfold addressSpaceCopy
  split
  · rfl
  split
  · rfl
  · exact copyLoop_false_machine _ _

/-- Both directions succeed on the same ranges. -/
theorem Owned.copy_iff (buffer : Nat → UInt8) :
    (addressSpaceCopy as (some buffer) a n write m).1 = true ↔ UserRange as m a n write := by
  rw [h.userRange_iff]
  cases write with
  | false =>
    rw [(addressSpaceCopy_read h buffer a n).1]
    simp only [userByte_ne_none]
    constructor
    · intro hall
      rcases Nat.eq_zero_or_pos n with hn | hn
      · exact .inl hn
      · have hlast := (hall (n - 1) (by omega)).1
        exact .inr ⟨by omega, fun i hi => (hall i hi).2⟩
    · rintro (rfl | ⟨hle, hall⟩) i hi
      · exact absurd hi (Nat.not_lt_zero i)
      · exact ⟨by omega, hall i hi⟩
  | true =>
    obtain ⟨k, hk, hopen, -, ⟨hok, rfl, hin⟩ | ⟨hfail, hlt, hwhy⟩⟩ := h.copyOut buffer a n
    · rw [hok]
      exact ⟨fun _ => hin.imp id fun hle => ⟨hle, hopen⟩, fun _ => rfl⟩
    rw [hfail]
    refine ⟨fun hno => absurd hno Bool.false_ne_true, ?_⟩
    rintro (rfl | ⟨hle, hall⟩)
    · exact absurd hlt (Nat.not_lt_zero k)
    rcases hwhy with ⟨hover, -⟩ | hno
    · omega
    · exact absurd (hall k hlt) hno

omit h in
theorem UserRange.part (h : UserRange as m a n write) (hlo : a ≤ b) (hhi : b + k ≤ a + n) :
    UserRange as m b k write := by
  rcases h with rfl | ⟨hle, hall⟩
  · exact .inl (by omega)
  · exact .inr ⟨by omega, fun q hq hbq hqk => hall q hq (by omega) (by omega)⟩

omit h in
theorem UserRange.readable (h : UserRange as m a n write) : UserRange as m a n false := by
  refine h.imp id (And.imp id fun hall q hq hlo hhi => ?_)
  obtain ⟨r, hquery, hg⟩ := hall q hq hlo hhi
  exact ⟨r, hquery, hg.1, fun hno => absurd hno Bool.false_ne_true⟩

/-! ## The laws -/

/-- What the two functions promise in one state of the machine. -/
structure CopyLaws (as : AddressSpace) (m : Machine) : Prop where
  validate : ∀ a n write, addressSpaceValidate as a n write m = true ↔ UserRange as m a n write
  copy : ∀ buffer a n write,
    (addressSpaceCopy as (some buffer) a n write m).1 = true ↔ UserRange as m a n write
  /-- a validated range can be copied in any parts -/
  part : ∀ a n write, addressSpaceValidate as a n write m = true → ∀ buffer b k, a ≤ b →
    b + k ≤ a + n →
    (addressSpaceCopy as (some buffer) b k write m).1 = true
  copyIn : ∀ buffer a n, (addressSpaceCopy as (some buffer) a n false m).1 = true → ∀ i < n,
    ∃ r, vmQuery as.root (a + i) m = some r ∧
      (addressSpaceCopy as (some buffer) a n false m).2.buffer i = m.mem r.1
  copyIn_machine : ∀ buffer a n, (addressSpaceCopy as (some buffer) a n false m).2.machine = m
  copyOut : ∀ buffer a n, (addressSpaceCopy as (some buffer) a n true m).1 = true →
    Stores as m (addressSpaceCopy as (some buffer) a n true m).2.machine a n buffer
  /-- what was written is read back -/
  readBack : ∀ buffer a n c, addressSpaceCopy as (some buffer) a n true m = (true, c) →
    ∀ buffer', (addressSpaceCopy as (some buffer') a n false c.machine).1 = true ∧
      ∀ i < n, (addressSpaceCopy as (some buffer') a n false c.machine).2.buffer i = buffer i
  /-- a failing copy has written what lies before the first page that is not open,
  and nothing if the range leaves the user half -/
  failed : ∀ buffer a n, (addressSpaceCopy as (some buffer) a n true m).1 = false →
    ∃ k < n, (∀ i < k, PageOpen as m true (a + i)) ∧
      (2 ^ 38 < a + n ∧ k = 0 ∨ ¬PageOpen as m true (a + k)) ∧
      Stores as m (addressSpaceCopy as (some buffer) a n true m).2.machine a k buffer

theorem Owned.copyIn (buffer : Nat → UInt8)
    (hok : (addressSpaceCopy as (some buffer) a n false m).1 = true) (i : Nat) (hi : i < n) :
    ∃ r, vmQuery as.root (a + i) m = some r ∧
      (addressSpaceCopy as (some buffer) a n false m).2.buffer i = m.mem r.1 := by
  have hbyte := (addressSpaceCopy_read h buffer a n).2 hok i hi
  obtain ⟨-, flags, hpeek, -⟩ := userByte_eq_some.mp hbyte.symm
  obtain ⟨r, hq, heq⟩ := Option.map_eq_some_iff.mp hpeek
  exact ⟨r, hq, (congrArg Prod.snd heq).symm⟩

theorem Owned.copyOut_true (buffer : Nat → UInt8)
    (hok : (addressSpaceCopy as (some buffer) a n true m).1 = true) :
    Stores as m (addressSpaceCopy as (some buffer) a n true m).2.machine a n buffer := by
  obtain ⟨k, -, -, hstores, ⟨-, rfl, -⟩ | ⟨hfail, -⟩⟩ := h.copyOut buffer a n
  · exact hstores
  · rw [hok] at hfail
    cases hfail

theorem Owned.copyOut_false (buffer : Nat → UInt8)
    (hfail : (addressSpaceCopy as (some buffer) a n true m).1 = false) :
    ∃ k < n, (∀ i < k, PageOpen as m true (a + i)) ∧
      (2 ^ 38 < a + n ∧ k = 0 ∨ ¬PageOpen as m true (a + k)) ∧
      Stores as m (addressSpaceCopy as (some buffer) a n true m).2.machine a k buffer := by
  obtain ⟨k, -, hopen, hstores, ⟨hok, -⟩ | ⟨-, hlt, hwhy⟩⟩ := h.copyOut buffer a n
  · rw [hok] at hfail
    cases hfail
  · exact ⟨k, hlt, hopen, hwhy, hstores⟩

/-- **`address_space_copy`** to a program, where it may be written. -/
theorem addressSpaceCopy_write {v : Picture}
    (hv : SameUser (peek as m) v) (buffer : Nat → UInt8) (hle : a + n ≤ 2 ^ 38)
    (hw : Writable v a (a + n)) : (addressSpaceCopy as (some buffer) a n true m).1 = true ∧
      SameUser (peek as (addressSpaceCopy as (some buffer) a n true m).2.machine)
      (overlay v a n buffer) := by
  have hopen : ∀ i < n, PageOpen as m true (a + i) := by
    intro i hi
    obtain ⟨x, hx, hg⟩ := hw (a + i) (by omega) (by omega)
    obtain ⟨r, hq, rfl⟩ := Option.map_eq_some_iff.mp ((hv _ (by omega)).trans hx)
    exact ⟨r, hq, hg⟩
  have hok := (h.copy_iff buffer).mpr (h.userRange_iff.mpr (.inr ⟨hle, hopen⟩))
  exact ⟨hok, ((h.copyOut_true buffer hok).overlay h hle).trans (hv.overlay _ _ _)⟩

/-- What was written is read back, through the tables of the machine after the copy. -/
theorem Owned.copyIn_copyOut (buffer : Nat → UInt8) {c : Copy}
    (hout : addressSpaceCopy as (some buffer) a n true m = (true, c)) (buffer' : Nat → UInt8) :
    (addressSpaceCopy as (some buffer') a n false c.machine).1 = true ∧
      ∀ i < n, (addressSpaceCopy as (some buffer') a n false c.machine).2.buffer i = buffer i := by
  have hok : (addressSpaceCopy as (some buffer) a n true m).1 = true := by rw [hout]
  have h' := (addressSpaceCopy_spec h (some buffer) a n true).1
  have hstores := h.copyOut_true buffer hok
  have hrange := (h.copy_iff buffer).mp hok
  rw [hout] at h' hstores
  have hin := (h'.copy_iff buffer').mpr ((UserRange.congr hstores.query).mpr hrange.readable)
  refine ⟨hin, fun i hi => ?_⟩
  obtain ⟨r, hq, hbyte⟩ := h'.copyIn buffer' hin i hi
  have hlt : a + i < 2 ^ 38 := by
    rcases hrange with rfl | ⟨hle, -⟩
    · exact absurd hi (Nat.not_lt_zero i)
    · omega
  rw [hstores.query _ hlt] at hq
  rw [hbyte, hstores.inside i hi r hq]

theorem Owned.lawful_copies : CopyLaws as m where
  validate _ _ _ := h.validate_iff
  copy buffer _ _ _ := h.copy_iff buffer
  part _ _ _ hv buffer _ _ hlo hhi := (h.copy_iff buffer).mpr ((h.validate_iff.mp hv).part hlo hhi)
  copyIn buffer _ _ hok := h.copyIn buffer hok
  copyIn_machine _ _ _ := addressSpaceCopy_false_machine _
  copyOut buffer _ _ hok := h.copyOut_true buffer hok
  readBack buffer _ _ _ hout := h.copyIn_copyOut buffer hout
  failed buffer _ _ hfail := h.copyOut_false buffer hfail

end

end MiniCore
