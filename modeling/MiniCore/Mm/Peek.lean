import MiniCore.Mm.ViewCalls

/-!
# MiniCore.Mm.Peek

What an address space shows at each user address: the flags of the translation
and the byte behind it.

`peek` asks the page table, as a load of the program does.  It is a function of
the view (`Owned.peek_eq_lookup`), so new pages show zeros in their range and
change nothing elsewhere (`addPages_peek`); a write through one translation
changes what is shown at the addresses of the chunk and nowhere else
(`Owned.peek_write`), because no frame is on the ledger twice.  On that level
`address_space_copy` is exact in both directions: it succeeds if and only if every
byte of the range may be accessed, and then moves every byte.
-/

namespace MiniCore

open Lib List

variable {a : Nat} {P : PagePool} {m m' : Machine} {as as' : AddressSpace} {t : Radix}
  {shared : Nat → Nat} {rest objs : Multiset Nat}

/-- What is shown at each address: flags and byte, or nothing. -/
abbrev Picture := Nat → Option (Nat × UInt8)

def peek (as : AddressSpace) (m : Machine) : Picture := fun address =>
  (vmQuery as.root address m).map fun r => (r.2, m.mem r.1)

variable {n : Nat} {f : Nat → UInt8} {v : Picture}

/-- What the pages of a view show. -/
def lookup (pages : List PageImage) : Picture := fun address =>
  (pages.find? fun p => mapped p.flags && (p.address ≤ address && address < p.address + 4096)).map
    fun p => (hardwareFlags p.flags,
      p.bytes ⟨(address - p.address) % 4096, Nat.mod_lt _ (by decide)⟩)

/-- Other bytes in a range, under the same flags. -/
def overlay (v : Picture) (a n : Nat) (f : Nat → UInt8) : Picture := fun b =>
  if a ≤ b ∧ b < a + n then (v b).map fun x => (x.1, f (b - a)) else v b

/-- A range that shows the same everywhere. -/
def showRange (v : Picture) (a n flags : Nat) : Picture := fun b =>
  if a ≤ b ∧ b < a + n then some (hardwareFlags flags, 0) else v b

/-- Two pictures of the user half. -/
def SameUser (v w : Picture) : Prop := ∀ a < 2 ^ 38, v a = w a

theorem SameUser.trans {u w : Picture} (h : SameUser u v) (h' : SameUser v w) : SameUser u w :=
  fun a ha => (h a ha).trans (h' a ha)

theorem SameUser.overlay {w : Picture} (h : SameUser v w) (a n : Nat) (f : Nat → UInt8) :
    SameUser (overlay v a n f) (overlay w a n f) := by
  intro b hb
  rw [MiniCore.overlay, MiniCore.overlay, h b hb]

theorem overlay_zero (v : Picture) (a : Nat) (f : Nat → UInt8) : overlay v a 0 f = v := by
  funext b
  exact if_neg (by omega)

/-- Two chunks one behind the other are one chunk. -/
theorem overlay_overlay (v : Picture) (a n k : Nat) (f : Nat → UInt8) :
    overlay (overlay v a n f) (a + n) k (fun i => f (n + i)) = overlay v a (n + k) f := by
  funext b
  unfold overlay
  by_cases h1 : a ≤ b ∧ b < a + n
  · have h2 : ¬(a + n ≤ b ∧ b < a + n + k) := by omega
    have h3 : a ≤ b ∧ b < a + (n + k) := by omega
    rw [if_neg h2, if_pos h1, if_pos h3]
  by_cases h2 : a + n ≤ b ∧ b < a + n + k
  · have h3 : a ≤ b ∧ b < a + (n + k) := by omega
    have hoff : n + (b - (a + n)) = b - a := by omega
    simp only [if_pos h2, if_neg h1, if_pos h3, hoff]
  · have h3 : ¬(a ≤ b ∧ b < a + (n + k)) := by omega
    rw [if_neg h2, if_neg h1, if_neg h3]

theorem overlay_congr {g : Nat → UInt8} (h : ∀ i < n, f i = g i) :
    overlay v a n f = overlay v a n g := by
  funext b
  unfold overlay
  split
  · rw [h (b - a) (by omega)]
  · rfl

theorem overlay_of_not_mem {b : Nat} (h : b < a ∨ a + n ≤ b) : overlay v a n f b = v b :=
  if_neg (by omega)

theorem overlay_some {b : Nat} {x : Nat × UInt8} (h : v b = some x) :
    ∃ y, overlay v a n f b = some (x.1, y) := by
  unfold overlay
  split
  · rw [h]
    exact ⟨_, rfl⟩
  · exact ⟨x.2, h⟩

/-- The flags let the kernel access a user's byte. -/
def Grants (write : Bool) (flags : Nat) : Prop :=
  flags &&& (pteU ||| pteR) = pteU ||| pteR ∧ (write = true → flags &&& pteW ≠ 0)

instance (write : Bool) (flags : Nat) : Decidable (Grants write flags) :=
  inferInstanceAs (Decidable (_ ∧ _))

/-- Every byte of a range is shown, and the kernel may write it. -/
def Writable (v : Picture) (lo hi : Nat) : Prop :=
  ∀ a, lo ≤ a → a < hi → ∃ x, v a = some x ∧ Grants true x.1

theorem Writable.overlay {lo hi : Nat} (h : Writable v lo hi) (a n : Nat) (f : Nat → UInt8) :
    Writable (overlay v a n f) lo hi := by
  intro b hlo hhi
  obtain ⟨x, hx, hg⟩ := h b hlo hhi
  obtain ⟨y, hy⟩ := overlay_some (a := a) (n := n) (f := f) hx
  exact ⟨_, hy, hg⟩

/-! ## Translations and pages -/

section Pages

variable {b : Nat}

variable (h : Owned P m as t shared rest objs)

include h

/-- **What is shown is a function of the view.** -/
theorem Owned.peek_eq_lookup (ha : a < 2 ^ 38) :
    peek as m a = lookup (as.pages.map (UserPage.image m.mem)) a := by
  rw [peek, lookup, find?_map, Option.map_map]
  cases hfind : as.pages.find? ((fun p : PageImage => mapped p.flags &&
      (p.address ≤ a && a < p.address + 4096)) ∘ UserPage.image m.mem) with
  | none =>
    rw [Option.map_none, Option.map_eq_none_iff]
    cases hq : vmQuery as.root a m with
    | none => rfl
    | some r =>
      obtain ⟨p, hp, hm, ⟨hlo, hhi⟩, -⟩ := h.vmQuery_some ha hq
      have hno := List.find?_eq_none.mp hfind p hp
      simp [UserPage.image, hm, hlo, hhi] at hno
  | some p =>
    have hp := mem_of_find?_eq_some hfind
    have hyes := find?_some hfind
    simp only [Function.comp_apply, UserPage.image, Bool.and_eq_true] at hyes
    have hlo := of_decide_eq_true hyes.2.1
    have hhi := of_decide_eq_true hyes.2.2
    have hoff : (a - p.virtualAddress) % 4096 = a - p.virtualAddress :=
      Nat.mod_eq_of_lt (by omega)
    rw [h.vmQuery_page hp hyes.1 ⟨hlo, hhi⟩]
    simp only [Option.map_some, Function.comp_apply, UserPage.image, hoff]

/-- A frame is on the ledger once. -/
theorem Owned.page_unique {p q : UserPage} (hp : p ∈ as.pages)
    (hq : q ∈ as.pages) (heq : p.physical = q.physical) : p = q := by
  have hnd : (as.pages.map UserPage.physical).Nodup :=
    Multiset.coe_nodup.mp
      (Multiset.nodup_add.mp (Multiset.nodup_add.mp h.tabled.stock.nodup_rest).2.1).1
  exact inj_on_of_nodup_map hnd hp hq heq

/-- Two addresses of one page translate alike. -/
theorem Owned.vmQuery_same (ha : a < 2 ^ 38) (hpage : a / 4096 = b / 4096) {physical flags : Nat}
    (hq : vmQuery as.root a m = some (physical, flags)) :
    vmQuery as.root b m = some (physical - a % 4096 + b % 4096, flags) := by
  obtain ⟨p, hp, hm, ⟨hlo, hhi⟩, hr⟩ := h.vmQuery_some ha hq
  have hal := (h.page_ok p hp).aligned
  obtain ⟨rfl, rfl⟩ := Prod.mk.inj hr
  rw [h.vmQuery_page hp hm ⟨by omega, by omega⟩]
  have hphys : p.physical + (b - p.virtualAddress) =
      p.physical + (a - p.virtualAddress) - a % 4096 + b % 4096 := by omega
  rw [hphys]

/-- Addresses of different pages have different frames behind them. -/
theorem Owned.vmQuery_apart (ha : a < 2 ^ 38) (hb : b < 2 ^ 38)
    {r s : Nat × Nat} (hqa : vmQuery as.root a m = some r) (hqb : vmQuery as.root b m = some s) :
    r.1 % 4096 = a % 4096 ∧ s.1 % 4096 = b % 4096 ∧
    (r.1 / 4096 = s.1 / 4096 → a / 4096 = b / 4096) := by
  obtain ⟨p, hp, -, ⟨hlo, hhi⟩, rfl⟩ := h.vmQuery_some ha hqa
  obtain ⟨q, hq, -, ⟨hlo', hhi'⟩, rfl⟩ := h.vmQuery_some hb hqb
  have hal := (h.page_ok p hp).aligned
  have hal' := (h.page_ok q hq).aligned
  have hpage := (h.isPage hp).aligned
  have hpage' := (h.isPage hq).aligned
  simp only
  refine ⟨by omega, by omega, fun heq => ?_⟩
  have hframe : p.physical = q.physical := by omega
  obtain rfl := h.page_unique hp hq hframe
  omega

/-- **A write through one translation** shows at the addresses of the chunk only. -/
theorem Owned.peek_write (ha : a < 2 ^ 38) {n physical flags : Nat}
    {f : Nat → UInt8} (hin : a % 4096 + n ≤ 4096)
    (hq : vmQuery as.root a m = some (physical, flags)) :
    Owned P (m.write physical n f) as t shared rest objs ∧ Keeps rest m (m.write physical n f) ∧
      SameUser (peek as (m.write physical n f)) (overlay (peek as m) a n f) := by
  obtain ⟨p, hp, hm, ⟨hlo, hhi⟩, hr⟩ := h.vmQuery_some ha hq
  have hal := (h.page_ok p hp).aligned
  have hphys : physical = p.physical + (a - p.virtualAddress) := (Prod.mk.inj hr).1
  obtain ⟨h', hk⟩ := h.write hp (f := f) (show p.physical ≤ physical by omega)
    (show physical + n ≤ p.physical + 4096 by omega)
  refine ⟨h', hk.part, fun b hb => ?_⟩
  simp only [peek, overlay, h.vmQuery_congr h' hb]
  cases hqb : vmQuery as.root b m with
  | none => simp
  | some s =>
    obtain ⟨hra, hsb, hframe⟩ := h.vmQuery_apart ha hb hq hqb
    simp only [Option.map_some, Machine.write]
    split
    · next hmem =>
      -- inside the chunk: the same page, at the distance from its start
      have hq' := h.vmQuery_same ha (show a / 4096 = b / 4096 by omega) hq
      rw [hqb] at hq'
      have hs : s.1 = physical + (b - a) := by
        rw [Option.some.inj hq']
        simp only at hra ⊢
        omega
      rw [hs, fill_of_mem (by omega)]
    · next hmem =>
      rw [fill_of_not_mem]
      by_contra hno
      have := hframe (by simp only at hra ⊢; omega)
      simp only at hra
      omega

theorem peek_congr {rest' objs' : Multiset Nat} (h' : Owned P m' as' t shared rest' objs')
    (hk : ∀ p ∈ as.pages, Set.EqOn m'.mem m.mem (pageBytes p.physical)) :
    SameUser (peek as' m') (peek as m) := by
  intro a ha
  have hsame : vmQuery as'.root a m' = vmQuery as.root a m := by
    rw [h.vmQuery_eq ha, h'.vmQuery_eq ha]
  rw [peek, peek, hsame]
  cases hq : vmQuery as.root a m with
  | none => rfl
  | some r =>
    obtain ⟨p, hp, -, ⟨hlo, hhi⟩, rfl⟩ := h.vmQuery_some ha hq
    simp only [Option.map_some]
    rw [hk p hp ⟨by omega, by omega⟩]

end Pages

/-! ## New pages -/

section New

variable {flags : Nat}

/-- A page of a run of zero pages, or the pages before it. -/
theorem lookup_append_run {pages : List PageImage} {address count : Nat} (hm : mapped flags = true)
    (hal : address % 4096 = 0)
    (hout : ∀ p ∈ pages, p.address + 4096 ≤ address ∨ address + 4096 * count ≤ p.address) :
    lookup (pages ++ (range count).map fun i => ⟨address + 4096 * i, flags, zeroPage⟩) =
      showRange (lookup pages) address (4096 * count) flags := by
  funext a
  unfold lookup showRange
  rw [find?_append, find?_map]
  split
  · next hin =>
    have hold : pages.find? (fun p => mapped p.flags && (p.address ≤ a && a < p.address + 4096)) =
        none := by
      refine List.find?_eq_none.mpr fun p hp => ?_
      have := hout p hp
      simp only [Bool.and_eq_true, decide_eq_true_eq, not_and]
      omega
    have hmem : (a - address) / 4096 ∈ range count := List.mem_range.mpr (by omega)
    obtain ⟨i, hi⟩ := Option.isSome_iff_exists.mp (List.find?_isSome.mpr
      ⟨_, hmem, show ((fun p : PageImage => mapped p.flags &&
      (p.address ≤ a && a < p.address + 4096)) ∘
        fun i => (⟨address + 4096 * i, flags, zeroPage⟩ : PageImage))
        ((a - address) / 4096) = true by
          simp only [Function.comp_apply, hm, Bool.true_and, Bool.and_eq_true, decide_eq_true_eq]
          omega⟩)
    rw [hold, hi]
    simp [zeroPage]
  · next hin =>
    have hnew : (range count).find? ((fun p : PageImage => mapped p.flags &&
        (p.address ≤ a && a < p.address + 4096)) ∘
          fun i => (⟨address + 4096 * i, flags, zeroPage⟩ : PageImage)) = none := by
      refine List.find?_eq_none.mpr fun i hi => ?_
      have := List.mem_range.mp hi
      simp only [Function.comp_apply, Bool.and_eq_true, decide_eq_true_eq, not_and]
      omega
    rw [hnew]
    simp

/-- **Fresh pages** succeed if they get their memory, and show zeros. -/
theorem addPages_peek (huser : flags &&& pteU ≠ 0) (hm : mapped flags = true)
    (hvalid : validLeafFlags flags = true) {count address : Nat}
    (h : Owned P m as t shared rest objs) (hroot : as.root ≠ 0) (hal : address % 4096 = 0)
    (hle : address + 4096 * count ≤ 2 ^ 38) (hout : ∀ p ∈ as.pages, p.virtualAddress < address ∨
      address + 4096 * count ≤ p.virtualAddress)
    (hallocs : false ∉ addPagesAllocs flags loadNothing count address as m) {ok : Bool}
    (hrun : addPages flags loadNothing count address as m = (ok, as', m')) :
    ok = true ∧ SameUser (peek as' m') (showRange (peek as m) address (4096 * count) flags) := by
  obtain ⟨-, hview⟩ :=
    addPages_view (loadsAs_loadNothing fun _ => True) (fun _ h => h) huser (fun _ => hvalid)
    count address as m t h hroot trivial hal hle hout hrun
  obtain ⟨hok, hpages⟩ := hview _ hallocs (newPages_zero flags count address)
  obtain ⟨t', new, -, h', -⟩ := addPages_spec fills_loadNothing count address as m t h hrun
  refine ⟨hok, fun a ha => ?_⟩
  have himages : ∀ p ∈ as.pages.map (UserPage.image m.mem),
      p.address + 4096 ≤ address ∨ address + 4096 * count ≤ p.address := by
    intro p hp
    obtain ⟨q, hq, rfl⟩ := List.mem_map.mp hp
    have := hout q hq
    have := (h.page_ok q hq).aligned
    simp only [UserPage.image]
    omega
  rw [h'.peek_eq_lookup ha, hpages, lookup_append_run hm hal himages, showRange, showRange,
    h.peek_eq_lookup ha]

end New

/-! ## Copies -/

theorem pageSize_pos : 0 < pageSize := by decide

/-- The byte at a user address, if it may be accessed. -/
def userByte (as : AddressSpace) (m : Machine) (write : Bool) (address : Nat) : Option UInt8 :=
  if address < userEnd then
    (peek as m address).bind fun x => if Grants write x.1 then some x.2 else none
  else none

section Copies

variable {write : Bool}

theorem accessible_eq_some {physical : Nat} : accessible as a write m = some physical ↔
      ∃ flags, vmQuery as.root a m = some (physical, flags) ∧ Grants write flags := by
  rw [accessible]
  cases vmQuery as.root a m with
  | none => simp
  | some r =>
    obtain ⟨p, flags⟩ := r
    dsimp only
    split
    · next hbad =>
      simp only [reduceCtorEq, Option.some.injEq, Prod.mk.injEq, false_iff, not_exists, not_and,
        Grants]
      rintro f ⟨-, rfl⟩ hgood
      rcases hbad with hbad | ⟨hw, hbad⟩
      · exact absurd hgood hbad
      · exact fun hw' => hw' hw hbad
    · next hgood =>
      simp only [not_or, not_not, not_and, ne_eq] at hgood
      constructor
      · intro heq
        exact ⟨flags, by rw [Option.some.inj heq], hgood.1, hgood.2⟩
      · rintro ⟨f, heq, -⟩
        rw [(Prod.mk.inj (Option.some.inj heq)).1]

theorem userByte_eq_some {x : UInt8} : userByte as m write a = some x ↔
      a < 2 ^ 38 ∧ ∃ flags, peek as m a = some (flags, x) ∧ Grants write flags := by
  rw [userByte]
  split
  · next hlt =>
    rw [Option.bind_eq_some_iff]
    refine ⟨?_, ?_⟩
    · rintro ⟨⟨flags, y⟩, hpeek, hy⟩
      split at hy
      · next hg =>
        cases hy
        exact ⟨hlt, flags, hpeek, hg⟩
      · cases hy
    · rintro ⟨-, flags, hpeek, hg⟩
      exact ⟨(flags, x), hpeek, if_pos hg⟩
  · next hlt =>
    constructor
    · intro h
      cases h
    · rintro ⟨hlt', -⟩
      exact absurd hlt' hlt

variable (h : Owned P m as t shared rest objs)

include h

/-- What may be accessed at one address of a page may be at every other. -/
theorem Owned.accessible_userByte {b physical : Nat}
    (ha : a < 2 ^ 38) (hb : b < 2 ^ 38) (hpage : a / 4096 = b / 4096) (hle : a ≤ b)
    (hacc : accessible as a write m = some physical) :
    userByte as m write b = some (m.mem (physical + (b - a))) := by
  obtain ⟨flags, hq, hg⟩ := accessible_eq_some.mp hacc
  have hq' := h.vmQuery_same ha hpage hq
  have hphys := (h.vmQuery_apart ha ha hq hq).1
  refine userByte_eq_some.mpr ⟨hb, flags, ?_, hg⟩
  have hat : physical - a % 4096 + b % 4096 = physical + (b - a) := by
    simp only at hphys
    omega
  rw [peek, hq', Option.map_some, hat]

omit h in
theorem accessible_of_userByte {x : UInt8} (h : userByte as m write a = some x) :
    ∃ physical, accessible as a write m = some physical := by
  obtain ⟨-, flags, hpeek, hg⟩ := userByte_eq_some.mp h
  obtain ⟨⟨physical, flags'⟩, hq, heq⟩ := Option.map_eq_some_iff.mp hpeek
  obtain rfl : flags' = flags := congrArg Prod.fst heq
  exact ⟨physical, accessible_eq_some.mpr ⟨_, hq, hg⟩⟩

/-- The bytes a copy leaves in the buffer. -/
def bytesFrom (as : AddressSpace) (m : Machine) (address i : Nat) : UInt8 :=
  (userByte as m false (address + i)).getD 0

/-- **A copy from a program** succeeds if and only if every byte may be read, and
then has read every byte. -/
theorem copyLoop_read (address size : Nat) : ∀ c : Copy, c.machine = m → address + size ≤ 2 ^ 38 →
    ((copyLoop as false (chunks pageSize address size) c).1 = true ↔
      ∀ i < size, userByte as m false (address + i) ≠ none) ∧
    ((copyLoop as false (chunks pageSize address size) c).1 = true →
      (copyLoop as false (chunks pageSize address size) c).2.buffer =
        fill c.buffer c.done size (bytesFrom as m address)) := by
  have hl := chunked pageSize_pos address size
  generalize chunks pageSize address size = l at hl ⊢
  induction hl with
  | nil address =>
    intro c _ _
    refine ⟨by simp [copyLoop], fun _ => ?_⟩
    funext b
    exact (fill_of_not_mem (by omega)).symm
  | cons address chunk size l hpos hin _ ih =>
  intro c hc hle
  have hin' : address % 4096 + chunk ≤ 4096 := hin
  have hlt : address < 2 ^ 38 := by omega
  rw [copyLoop, hc]
  cases hacc : accessible as address false m with
  | none =>
    refine ⟨?_, fun hfalse => by cases hfalse⟩
    simp only [Bool.false_eq_true, ne_eq, false_iff, not_forall]
    refine ⟨0, by omega, ?_⟩
    rw [not_not]
    cases hbyte : userByte as m false (address + 0) with
    | none => rfl
    | some x =>
      obtain ⟨physical, hsome⟩ := accessible_of_userByte hbyte
      rw [Nat.add_zero, hacc] at hsome
      cases hsome
  | some physical =>
    have hbytes : ∀ i < chunk, userByte as m false (address + i) = some (m.mem (physical + i)) := by
      intro i hi
      have := h.accessible_userByte (b := address + i) hlt (by omega) (by omega) (by omega) hacc
      rwa [Nat.add_sub_cancel_left] at this
    obtain ⟨hiff, hbuf⟩ := ih (c.move physical chunk false) hc (by omega)
    dsimp only
    rw [hiff]
    refine ⟨⟨fun hall i hi => ?_, fun hall i hi => ?_⟩, fun hall => ?_⟩
    · by_cases hlt' : i < chunk
      · rw [hbytes i hlt']
        simp
      · have hnext := hall (i - chunk) (by omega)
        rwa [Nat.add_assoc, Nat.add_sub_cancel' (by omega)] at hnext
    · rw [Nat.add_assoc]
      exact hall (chunk + i) (by omega)
    rw [hbuf (hiff.mpr hall)]
    funext b
    simp only [Copy.move, Bool.false_eq_true, if_false, fill, hc, bytesFrom]
    by_cases h1 : c.done + chunk ≤ b ∧ b < c.done + chunk + size
    · have h2 : c.done ≤ b ∧ b < c.done + (chunk + size) := by omega
      have hoff : address + chunk + (b - (c.done + chunk)) = address + (b - c.done) := by omega
      rw [if_pos h1, if_pos h2, hoff]
    rw [if_neg h1]
    by_cases h2 : c.done ≤ b ∧ b < c.done + chunk
    · have h3 : c.done ≤ b ∧ b < c.done + (chunk + size) := by omega
      rw [if_pos h2, if_pos h3, hbytes (b - c.done) (by omega)]
      rfl
    · have h3 : ¬(c.done ≤ b ∧ b < c.done + (chunk + size)) := by omega
      rw [if_neg h2, if_neg h3]

/-- **`address_space_copy`** from a program. -/
theorem addressSpaceCopy_read (buffer : Nat → UInt8) (address size : Nat) :
    ((addressSpaceCopy as (some buffer) address size false m).1 = true ↔
      ∀ i < size, userByte as m false (address + i) ≠ none) ∧
    ((addressSpaceCopy as (some buffer) address size false m).1 = true →
      ∀ i < size, some ((addressSpaceCopy as (some buffer) address size false m).2.buffer i) =
        userByte as m false (address + i)) := by
  unfold addressSpaceCopy
  by_cases hs : size = 0
  · simp [hs]
  rw [if_neg hs]
  split
  · next hbad =>
    simp only [Option.isNone_some, Bool.false_eq_true, false_or, userEnd] at hbad
    refine ⟨?_, fun hfalse => by cases hfalse⟩
    simp only [Bool.false_eq_true, false_iff, not_forall, ne_eq, not_not]
    refine ⟨size - 1, by omega, ?_⟩
    rw [userByte, if_neg]
    unfold userEnd
    omega
  next hgood =>
  simp only [Option.isNone_some, Bool.false_eq_true, false_or, not_or, not_le, not_lt, userEnd]
    at hgood
  obtain ⟨hiff, hbuf⟩ := copyLoop_read h address size ⟨m, (some buffer).getD fun _ => 0, 0, []⟩ rfl
    (by omega)
  refine ⟨hiff, fun hok i hi => ?_⟩
  obtain ⟨x, hx⟩ := Option.ne_none_iff_exists'.mp (hiff.mp hok i hi)
  have hfill : fill ((some buffer).getD fun _ => 0) 0 size (bytesFrom as m address) (0 + i) =
      bytesFrom as m address i := fill_of_mem hi
  rw [Nat.zero_add] at hfill
  rw [hbuf hok, hfill, bytesFrom, hx]
  rfl

end Copies

end MiniCore
