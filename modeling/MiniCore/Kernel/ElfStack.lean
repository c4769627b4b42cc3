import MiniCore.Kernel.Elf
import MiniCore.Mm.UserCopy

/-!
# MiniCore.Kernel.ElfStack

What `build_stack` builds.

`initialStack` says it on pictures: four writable pages, the strings from the top
downwards, then the words.  If its allocations succeed, `build_stack` succeeds on
every space in which the stack's range is free, and shows exactly that
(`buildStack_exact`): the bounds of `struct exec_arguments` keep everything inside
the four pages.
-/

namespace MiniCore

open Lib

variable {P : PagePool} {m m' : Machine} {as as' : AddressSpace} {t : Radix} {shared : Nat → Nat}
  {rest objs : Multiset Nat}

/-! ## Areas with their pages -/

/-- The allocations of a reservation followed by its pages. -/
def mapAreaAllocs (as : AddressSpace) (start stop flags : Nat) (kind : AreaKind)
    (count address : Nat) (m : Machine) : List Bool :=
  reserveAllocs as start stop m ++
    match addressSpaceReserve as start stop flags kind m with
    | (false, _, _) => []
    | (true, as, m) => addPagesAllocs flags loadNothing count address as m

section Areas

variable {m₁ m₂ : Machine} {as₁ as₂ : AddressSpace} {ok : Bool}

variable {kind : AreaKind} {flags start stop : Nat}

/-- **`address_space_reserve`** of a page range that gets its record succeeds if
and only if the range is vacant. -/
theorem reserve_true_iff (hlt : start < stop) (hstart : start % 4096 = 0)
    (hstop : stop % 4096 = 0) (hend : stop ≤ 2 ^ 38)
    (hallocs : false ∉ reserveAllocs as start stop m) :
    (addressSpaceReserve as start stop flags kind m).1 = true ↔
      vacant as.areas start stop = true := by
  cases hv : vacant as.areas start stop with
  | false => simp [addressSpaceReserve, hv]
  | true =>
    have hgood : ¬(stop ≤ start ∨ pageOffset start ≠ 0 ∨ pageOffset stop ≠ 0 ∨ userEnd < stop ∨
        vacant as.areas start stop = false) := by
      simp only [pageOffset_eq, hv, userEnd, hstart, hstop, ne_eq, not_true_eq_false,
        Bool.true_eq_false, false_or, or_false]
      omega
    rw [reserveAllocs, if_neg hgood] at hallocs
    rw [addressSpaceReserve, if_neg hgood]
    obtain ⟨ptr, m₁, hk⟩ : ∃ ptr m₁, kmalloc vmAreaSize m = (ptr, m₁) := ⟨_, _, rfl⟩
    rw [hk] at hallocs ⊢
    cases ptr with
    | zero => simp [outcome] at hallocs
    | succ n => simp

/-- A reservation shows nothing. -/
theorem reserve_peek (h : Owned P m as t shared rest objs)
    (hrun : addressSpaceReserve as start stop flags kind m = (ok, as', m')) :
    SameUser (peek as' m') (peek as m) := by
  obtain ⟨hk, h', -⟩ := addressSpaceReserve_spec h hrun
  exact peek_congr h h' fun p hp => hk.page hp

/-- **An area in a vacant range** gets its pages, which show zeros. -/
theorem mapArea_peek (h : Owned P m as t shared rest objs) (hr : Reserved as)
    (hroot : as.root ≠ 0) {address count : Nat} (huser : flags &&& pteU ≠ 0)
    (hm : mapped flags = true) (hvalid : validLeafFlags flags = true) (hback : start ≤ address)
    (hal : address % 4096 = 0) (hcount : address + 4096 * count = stop)
    (hallocs : false ∉ mapAreaAllocs as start stop flags kind count address m)
    (hres : addressSpaceReserve as start stop flags kind m = (true, as₁, m₁))
    (hadd : addPages flags loadNothing count address as₁ m₁ = (ok, as₂, m₂)) :
    ok = true ∧ SameUser (peek as₂ m₂) (showRange (peek as m) address (4096 * count) flags) := by
  obtain ⟨-, h1, ⟨hfalse, -⟩ | ⟨-, ⟨ptr, rfl⟩, -, -, -, hend, hvac⟩⟩ :=
    addressSpaceReserve_spec h hres
  · cases hfalse
  rw [mapAreaAllocs, hres, List.mem_append, not_or] at hallocs
  unfold userEnd at hend
  have hout : ∀ p ∈ as.pages, p.virtualAddress < address ∨
      address + 4096 * count ≤ p.virtualAddress := by
    intro p hp
    have := hr.agrees.outside_of_vacant hvac hp
    omega
  obtain ⟨hok, hpeek⟩ := addPages_peek huser hm hvalid h1 hroot hal (by omega) hout hallocs.2 hadd
  refine ⟨hok, hpeek.trans fun a ha => ?_⟩
  rw [showRange, showRange, reserve_peek h hres a ha]

end Areas

/-! ## The stack on pictures -/

def stackFlags : Nat := pteU ||| pteR ||| pteW

/-- The lowest address of the stack pages. -/
def stackBottom : Nat := userStackTop - userStackPages * pageSize

/-- The strings one below the other. -/
def placeStrings : List (List UInt8) → List Nat → Nat → Picture → List Nat × Nat × Picture
  | [], ptrs, cursor, v => (ptrs, cursor, v)
  | s :: rest, ptrs, cursor, v =>
    let cursor := cursor - (s.length + 1)
    placeStrings rest (cursor :: ptrs) cursor (overlay v cursor (s.length + 1) fun i => s.getD i 0)

/-- The words below the strings. -/
def stackWords (arguments : ExecArguments) (argv envp : List Nat) : List Nat :=
  arguments.argv.length :: argv ++ 0 :: envp ++ [0]

/-- The stack pointer and what the stack shows. -/
def initialStack (arguments : ExecArguments) (v : Picture) : Nat × Picture :=
  let env := placeStrings arguments.envp.reverse [] userStackTop
    (showRange v stackBottom (4096 * userStackPages) stackFlags)
  let arg := placeStrings arguments.argv.reverse [] env.2.1 env.2.2
  let words := stackWords arguments arg.1 env.1
  let sp := (arg.2.1 - words.length * 8) / 16 * 16
  (sp, overlay arg.2.2 sp (words.length * 8) (wordBytes words))

/-- The room the strings take. -/
def stringsSize (strings : List (List UInt8)) : Nat := (strings.map fun s => s.length + 1).sum

theorem stringsSize_cons (s : List UInt8) (strings : List (List UInt8)) :
    stringsSize (s :: strings) = s.length + 1 + stringsSize strings := rfl

theorem stringsSize_le {strings : List (List UInt8)} (h : ∀ s ∈ strings, s.length < 64) :
    stringsSize strings ≤ 64 * strings.length := by
  induction strings with
  | nil => exact Nat.le_refl 0
  | cons s strings ih =>
    have hs := h s List.mem_cons_self
    have hrest := ih fun s hs => h s (List.mem_cons_of_mem _ hs)
    rw [stringsSize_cons, List.length_cons]
    omega

theorem stringsSize_reverse (strings : List (List UInt8)) :
    stringsSize strings.reverse = stringsSize strings := by
  rw [stringsSize, stringsSize, List.map_reverse, List.sum_reverse]

theorem placeStrings_cursor : ∀ (strings : List (List UInt8)) (ptrs : List Nat) (cursor : Nat)
    (v : Picture), (placeStrings strings ptrs cursor v).2.1 = cursor - stringsSize strings
  | [], _, _, _ => rfl
  | s :: strings, ptrs, cursor, v => by
    rw [placeStrings, placeStrings_cursor strings, stringsSize_cons, Nat.sub_sub]

theorem placeStrings_length : ∀ (strings : List (List UInt8)) (ptrs : List Nat) (cursor : Nat)
    (v : Picture), (placeStrings strings ptrs cursor v).1.length = strings.length + ptrs.length
  | [], _, _, _ => by simp [placeStrings]
  | s :: strings, ptrs, cursor, v => by
    rw [placeStrings, placeStrings_length strings, List.length_cons, List.length_cons]
    omega

/-- Placing strings keeps what is writable so. -/
theorem placeStrings_writable {lo hi : Nat} : ∀ (strings : List (List UInt8)) (ptrs : List Nat)
    (cursor : Nat) (v : Picture), Writable v lo hi →
    Writable (placeStrings strings ptrs cursor v).2.2 lo hi
  | [], _, _, _, h => h
  | s :: strings, ptrs, cursor, v, h => by
    rw [placeStrings]
    exact placeStrings_writable strings _ _ _ (h.overlay _ _ _)

/-- Strings change nothing above where they start nor below where they end. -/
theorem placeStrings_outside {b : Nat} : ∀ (strings : List (List UInt8)) (ptrs : List Nat)
    (cursor : Nat) (v : Picture), stringsSize strings ≤ cursor →
    b < cursor - stringsSize strings ∨ cursor ≤ b → (placeStrings strings ptrs cursor v).2.2 b = v b
  | [], _, _, _, _, _ => rfl
  | s :: strings, ptrs, cursor, v, hle, hb => by
    rw [stringsSize_cons] at hle hb
    rw [placeStrings, placeStrings_outside strings _ _ _ (by omega) (by omega),
      overlay_of_not_mem (by omega)]

/-- Strings change no flags. -/
theorem placeStrings_some {b flags : Nat} : ∀ (strings : List (List UInt8)) (ptrs : List Nat)
    (cursor : Nat) (v : Picture) (x : UInt8), v b = some (flags, x) →
    ∃ y, (placeStrings strings ptrs cursor v).2.2 b = some (flags, y)
  | [], _, _, _, x, h => ⟨x, h⟩
  | s :: strings, ptrs, cursor, v, _, h => by
    obtain ⟨y, hy⟩ := overlay_some (a := cursor - (s.length + 1)) (n := s.length + 1)
      (f := fun i => s.getD i 0) h
    exact placeStrings_some strings _ _ _ y hy

section Build

variable {v : Picture}

/-- **The loops over the strings** write what `placeStrings` says. -/
theorem pushStrings_exact {lo hi : Nat} (hhi : hi ≤ 2 ^ 38) : ∀ (strings : List (List UInt8))
    (ptrs : List Nat) (cursor : Nat) (m : Machine) (v : Picture),
    Owned P m as t shared rest objs → SameUser (peek as m) v → Writable v lo hi → cursor ≤ hi →
    lo + stringsSize strings ≤ cursor →
    ∃ m', pushStrings as strings ptrs cursor m = (true, (placeStrings strings ptrs cursor v).1,
        (placeStrings strings ptrs cursor v).2.1, m') ∧
      Owned P m' as t shared rest objs ∧ SameUser (peek as m')
      (placeStrings strings ptrs cursor v).2.2 := by
  intro strings
  induction strings with
  | nil => exact fun ptrs cursor m v h hv _ _ _ => ⟨m, rfl, h, hv⟩
  | cons s strings ih =>
    intro ptrs cursor m v h hv hw hle hlo
    rw [stringsSize_cons] at hlo
    have hw' : Writable v (cursor - (s.length + 1)) (cursor - (s.length + 1) + (s.length + 1)) :=
      fun a ha ha' => hw a (by omega) (by omega)
    obtain ⟨hok, hpeek⟩ := addressSpaceCopy_write h hv (fun i => s.getD i 0) (by omega) hw'
    obtain ⟨h1, -, -⟩ := addressSpaceCopy_spec h (some fun i => s.getD i 0)
      (cursor - (s.length + 1)) (s.length + 1) true
    rcases hcopy : addressSpaceCopy as (some fun i => s.getD i 0)
      (cursor - (s.length + 1)) (s.length + 1) true m with ⟨b, c⟩
    rw [hcopy] at hok hpeek h1
    cases hok
    obtain ⟨m', hrun, h', hpeek'⟩ :=
      ih ((cursor - (s.length + 1)) :: ptrs) (cursor - (s.length + 1))
      c.machine _ h1 hpeek (hw.overlay _ _ _) (by omega) (by omega)
    refine ⟨m', ?_, h', hpeek'⟩
    rw [pushStrings]
    simp only [hcopy]
    exact hrun

/-- The allocations of `build_stack`. -/
def buildStackAllocs (as : AddressSpace) (m : Machine) : List Bool :=
  mapAreaAllocs as (userStackTop - (userStackPages + 1) * pageSize) userStackTop
    (pteU ||| pteR ||| pteW) .stack userStackPages (userStackTop - userStackPages * pageSize) m

theorem ExecArguments.sizes (arguments : ExecArguments) :
    stringsSize arguments.envp.reverse ≤ 512 ∧ stringsSize arguments.argv.reverse ≤ 512 := by
  have henv := stringsSize_le fun s hs => arguments.fits s (List.mem_append_right _ hs)
  have harg := stringsSize_le fun s hs => arguments.fits s (List.mem_append_left _ hs)
  have := arguments.argc_le
  have := arguments.envc_le
  rw [stringsSize_reverse, stringsSize_reverse]
  omega

theorem writable_stack (v : Picture) :
    Writable (showRange v stackBottom (4096 * userStackPages) stackFlags) stackBottom
      userStackTop := by
  intro a hlo hhi
  have hin : stackBottom ≤ a ∧ a < stackBottom + 4096 * userStackPages := ⟨hlo, hhi⟩
  exact ⟨(hardwareFlags stackFlags, 0), if_pos hin, by decide⟩

/-- Where the words end up: aligned, below the strings, and inside the pages. -/
theorem initialStack_pointer (arguments : ExecArguments) (v : Picture) :
    (initialStack arguments v).1 = (userStackTop - stringsSize arguments.envp -
        stringsSize arguments.argv - (arguments.argv.length + arguments.envp.length + 3) * 8) /
        16 * 16 ∧
      stackBottom + 1024 ≤ (initialStack arguments v).1 := by
  have hsp : (initialStack arguments v).1 = (userStackTop - stringsSize arguments.envp -
      stringsSize arguments.argv - (arguments.argv.length + arguments.envp.length + 3) * 8) /
      16 * 16 := by
    simp only [initialStack, placeStrings_cursor, stackWords, List.length_append, List.length_cons,
      List.length_nil, placeStrings_length, List.length_reverse, stringsSize_reverse, Nat.add_zero,
      Nat.zero_add]
    congr 4
    omega
  refine ⟨hsp, ?_⟩
  have hsizes := arguments.sizes
  rw [stringsSize_reverse, stringsSize_reverse] at hsizes
  have := arguments.argc_le
  have := arguments.envc_le
  have hbottom : stackBottom = 4177920 := rfl
  have htop : userStackTop = 4194304 := rfl
  omega

/-- Outside its pages the stack changes nothing. -/
theorem initialStack_outside (arguments : ExecArguments) (v : Picture) {a : Nat}
    (ha : a < stackBottom ∨ userStackTop ≤ a) : (initialStack arguments v).2 a = v a := by
  have hsizes := arguments.sizes
  have hbottom : stackBottom = 4177920 := rfl
  have htop : userStackTop = 4194304 := rfl
  have hroom := (initialStack_pointer arguments v).2
  have hrange : ¬(stackBottom ≤ a ∧ a < stackBottom + 4096 * userStackPages) := by
    unfold userStackPages
    omega
  simp only [initialStack, placeStrings_cursor] at hroom ⊢
  rw [overlay_of_not_mem (by omega), placeStrings_outside _ _ _ _ (by omega) (by omega),
    placeStrings_outside _ _ _ _ (by omega) (by omega), showRange, if_neg hrange]

/-- The stack pages can be read and written. -/
theorem initialStack_inside (arguments : ExecArguments) (v : Picture) {a : Nat}
    (hlo : stackBottom ≤ a) (hhi : a < userStackTop) :
    ∃ x, (initialStack arguments v).2 a = some (hardwareFlags stackFlags, x) := by
  have hin : stackBottom ≤ a ∧ a < stackBottom + 4096 * userStackPages := ⟨hlo, hhi⟩
  have hrange : showRange v stackBottom (4096 * userStackPages) stackFlags a =
      some (hardwareFlags stackFlags, 0) := if_pos hin
  obtain ⟨x, hx⟩ := placeStrings_some arguments.envp.reverse [] userStackTop _ _ hrange
  obtain ⟨y, hy⟩ :=
    placeStrings_some arguments.argv.reverse [] (placeStrings arguments.envp.reverse [] userStackTop
      (showRange v stackBottom (4096 * userStackPages) stackFlags)).2.1 _ _ hx
  exact overlay_some hy

/-- **`build_stack`**, given its memory, builds the stack it is meant to. -/
theorem buildStack_exact (h : Owned P m as t shared rest objs) (hr : Reserved as)
    (hroot : as.root ≠ 0)
    (hvac : vacant as.areas (userStackTop - (userStackPages + 1) * pageSize) userStackTop = true)
    (arguments : ExecArguments) (hallocs : false ∉ buildStackAllocs as m) :
    ∃ as' m', buildStack as arguments m = (some (initialStack arguments (peek as m)).1, as', m') ∧
      SameUser (peek as' m') (initialStack arguments (peek as m)).2 := by
  rcases hres : addressSpaceReserve as
      (userStackTop - (userStackPages + 1) * pageSize) userStackTop (pteU ||| pteR ||| pteW) .stack
      m with ⟨b, as₁, m₁⟩
  have hallocs' := hallocs
  rw [buildStackAllocs, mapAreaAllocs, List.mem_append, not_or] at hallocs'
  have hok : (addressSpaceReserve as (userStackTop - (userStackPages + 1) * pageSize) userStackTop
      (pteU ||| pteR ||| pteW) .stack m).1 = true :=
    (reserve_true_iff (by decide) (by decide) (by decide) (by decide) hallocs'.1).mpr hvac
  rw [hres] at hok
  cases hok
  rcases hadd : addPages (pteU ||| pteR ||| pteW) loadNothing userStackPages
      (userStackTop - userStackPages * pageSize) as₁ m₁ with ⟨b, as₂, m₂⟩
  obtain ⟨hok, hpeek2⟩ := mapArea_peek h hr hroot (by decide) (by decide) (by decide) (by decide)
    (by decide) (by decide) hallocs hres hadd
  cases hok
  obtain ⟨t2, h2, -⟩ := mapArea_spec h hres hadd ⟨by decide, by decide, by decide⟩ (by decide)
    (by decide) (by decide) (by decide)
  have hsizes := arguments.sizes
  have hbottom : stackBottom = 4177920 := rfl
  have htop : userStackTop = 4194304 := rfl
  have hroom := (initialStack_pointer arguments (peek as m)).2
  have hw2 := writable_stack (peek as m)
  -- from here on only bytes of writable stack pages change
  rcases henv : placeStrings arguments.envp.reverse [] userStackTop
      (showRange (peek as m) stackBottom (4096 * userStackPages) stackFlags) with ⟨envp, cursor, v3⟩
  have hw3 := placeStrings_writable arguments.envp.reverse [] userStackTop _ hw2
  have hcursor := placeStrings_cursor arguments.envp.reverse [] userStackTop
    (showRange (peek as m) stackBottom (4096 * userStackPages) stackFlags)
  obtain ⟨m3, hpush3, h3, hpeek3⟩ := pushStrings_exact (by decide) arguments.envp.reverse []
    userStackTop m₂ _ h2 hpeek2 hw2 (Nat.le_refl _) (by omega)
  rw [henv] at hw3 hcursor
  rw [show showRange (peek as m) (userStackTop - userStackPages * pageSize) (4096 * userStackPages)
    (pteU ||| pteR ||| pteW) = showRange (peek as m) stackBottom (4096 * userStackPages) stackFlags
    from rfl, henv] at hpush3 hpeek3
  simp only at hw3 hcursor hpush3 hpeek3
  rcases harg : placeStrings arguments.argv.reverse [] cursor v3 with ⟨argv, cursor', v4⟩
  have hw4 := placeStrings_writable arguments.argv.reverse [] cursor v3 hw3
  obtain ⟨m4, hpush4, h4, hpeek4⟩ :=
    pushStrings_exact (by decide) arguments.argv.reverse [] cursor m3
    v3 h3 hpeek3 hw3 (by omega) (by omega)
  have hcursor' := placeStrings_cursor arguments.argv.reverse [] cursor v3
  rw [harg] at hw4 hpush4 hpeek4 hcursor'
  simp only at hw4 hpush4 hpeek4 hcursor'
  -- the words
  obtain ⟨words, hwords⟩ : ∃ words, stackWords arguments argv envp = words := ⟨_, rfl⟩
  have hstack : initialStack arguments (peek as m) = ((cursor' - words.length * 8) / 16 * 16,
      overlay v4 ((cursor' - words.length * 8) / 16 * 16) (words.length * 8)
      (wordBytes words)) := by
    rw [initialStack, henv]
    simp only
    rw [harg]
    simp only [hwords]
  rw [hstack] at hroom ⊢
  simp only at hroom
  have hbelow : (cursor' - words.length * 8) / 16 * 16 + words.length * 8 ≤ userStackTop := by omega
  have hw5 : Writable v4 ((cursor' - words.length * 8) / 16 * 16)
      ((cursor' - words.length * 8) / 16 * 16 + words.length * 8) := fun a hlo hhi =>
    hw4 a (Nat.le_trans (Nat.le_trans (Nat.le_add_right _ _) hroom) hlo)
      (Nat.lt_of_lt_of_le hhi hbelow)
  obtain ⟨hok, hpeek5⟩ := addressSpaceCopy_write h4 hpeek4 (wordBytes words)
    (Nat.le_trans hbelow (by decide)) hw5
  rcases hcopy : addressSpaceCopy as₂ (some (wordBytes words))
    ((cursor' - words.length * 8) / 16 * 16) (words.length * 8) true m4 with ⟨b, c⟩
  rw [hcopy] at hok hpeek5
  cases hok
  refine ⟨as₂, c.machine, ?_, hpeek5⟩
  have hfits :
      ¬((cursor' - words.length * 8) / 16 * 16 < userStackTop - userStackPages * pageSize) := by
    have : userStackTop - userStackPages * pageSize = stackBottom := rfl
    omega
  unfold stackWords at hwords
  unfold buildStack
  simp only [hres, hadd, hpush3, hpush4, hwords, hfits, if_false, hcopy]

end Build

end MiniCore
