import MiniCore.Kernel.Agreement
import MiniCore.Kernel.ExecRequest

/-!
# MiniCore.Kernel.ExecStack

What a new program finds on its stack.

`_start` (`user/crt.S`) takes `argc` from the stack pointer and works out where
the two vectors are.  `StackDecodes` says that what it passes to `main` are the
arguments: both vectors in order and null-terminated, an aligned stack pointer,
and no two pieces of the stack on top of each other.  With the copies of
`MiniCore.Kernel.ExecRequest` in front, the caller's strings arrive as they were
(`exec_arguments_survive`).
-/

namespace MiniCore

open Lib List

/-! ## Decoding -/

/-- What `_start` passes to `main`. -/
structure MainArguments where
  argc : Nat
  argv : Nat
  envp : Nat
deriving DecidableEq, Repr

/-- `_start`: a load at the stack pointer, then `addi`, `slli`, `add` and `addi`. -/
def crtStart (as : AddressSpace) (m : Machine) (sp : Nat) : Option MainArguments :=
  (userWord as m sp).map fun argc =>
    let argv := (sp + 8) % 2 ^ 64
    ⟨argc, argv, ((argv + (argc <<< 3) % 2 ^ 64) % 2 ^ 64 + 8) % 2 ^ 64⟩

/-- Where the strings of a vector are, with their terminators. -/
def vectorRanges (as : AddressSpace) (m : Machine) (vector : Nat) (strings : List (List UInt8)) :
    List (Nat × Nat) :=
  (range strings.length).map fun i =>
    ((userWord as m (vector + 8 * i)).getD 0, (strings.getD i []).length + 1)

/-- The pieces of a stack: the words and the strings. -/
def stackRanges (as : AddressSpace) (m : Machine) (sp : Nat) (arguments : ExecArguments) :
    List (Nat × Nat) :=
  (sp, 8 * (arguments.argv.length + arguments.envp.length + 3)) ::
    (vectorRanges as m (sp + 8) arguments.argv ++
      vectorRanges as m (sp + 8 * (arguments.argv.length + 2)) arguments.envp)

structure StackDecodes (as : AddressSpace) (m : Machine) (sp : Nat) (arguments : ExecArguments) :
    Prop where
  start : crtStart as m sp = some ⟨arguments.argv.length, sp + 8,
    sp + 8 * (arguments.argv.length + 2)⟩
  argv : UserVector as m (sp + 8) arguments.argv
  envp : UserVector as m (sp + 8 * (arguments.argv.length + 2)) arguments.envp
  aligned : sp % 16 = 0
  inside : ∀ r ∈ stackRanges as m sp arguments, 0x3fc000 ≤ r.1 ∧ r.1 + r.2 ≤ 0x400000
  apart : (stackRanges as m sp arguments).Pairwise fun r s => r.1 + r.2 ≤ s.1 ∨ s.1 + s.2 ≤ r.1

/-! ## Strings on pictures -/

/-- A string with its terminator, shown under the given flags. -/
def ShowsString (v : Picture) (flags : Nat) (x : Nat × List UInt8) : Prop :=
  ∀ i ≤ x.2.length, v (x.1 + i) = some (flags, x.2.getD i 0)

/-- One string ends where the next begins, or before. -/
def Below (x y : Nat × List UInt8) : Prop := x.1 + x.2.length + 1 ≤ y.1

/-- **Where the strings end up**: in order, one above the other, and all of them shown. -/
theorem placeStrings_placed {flags : Nat} : ∀ (strings : List (List UInt8)) (ptrs : List Nat)
    (cursor : Nat) (v : Picture), stringsSize strings ≤ cursor →
    (∀ b, cursor - stringsSize strings ≤ b → b < cursor → ∃ x, v b = some (flags, x)) →
    ∃ placed : List (Nat × List UInt8),
      (placeStrings strings ptrs cursor v).1 = placed.map Prod.fst ++ ptrs ∧
      placed.map Prod.snd = strings.reverse ∧
      (∀ x ∈ placed, cursor - stringsSize strings ≤ x.1 ∧ x.1 + x.2.length + 1 ≤ cursor ∧
        ShowsString (placeStrings strings ptrs cursor v).2.2 flags x) ∧
      placed.Pairwise Below := by
  intro strings
  induction strings with
  | nil => exact fun ptrs cursor v _ _ => ⟨[], rfl, rfl, by simp, List.Pairwise.nil⟩
  | cons s strings ih =>
    intro ptrs cursor v hle hshown
    rw [stringsSize_cons] at hle
    have hshown' : ∀ b, cursor - (s.length + 1) - stringsSize strings ≤ b →
      b < cursor - (s.length + 1) →
        ∃ x, overlay v (cursor - (s.length + 1)) (s.length + 1) (fun i => s.getD i 0) b =
          some (flags, x) := by
      intro b hlo hhi
      rw [overlay_of_not_mem (by omega)]
      exact hshown b (by rw [stringsSize_cons]; omega) (by omega)
    obtain ⟨placed, hptrs, hstrings, hplaced, hpair⟩ := ih ((cursor - (s.length + 1)) :: ptrs)
      (cursor - (s.length + 1)) _ (by omega) hshown'
    rw [placeStrings]
    refine ⟨placed ++ [(cursor - (s.length + 1), s)], ?_, ?_, fun x hx => ?_, ?_⟩
    · rw [hptrs]
      simp
    · rw [map_append, hstrings, reverse_cons]
      rfl
    · rw [stringsSize_cons]
      rcases List.mem_append.mp hx with hx | hx
      · obtain ⟨hlo, hhi, hs⟩ := hplaced x hx
        exact ⟨by omega, by omega, hs⟩
      rw [List.mem_singleton.mp hx]
      refine ⟨by simp only; omega, by simp only; omega, fun i hi => ?_⟩
      -- later strings are further down
      simp only at hi ⊢
      rw [placeStrings_outside _ _ _ _ (by omega) (by omega)]
      obtain ⟨y, hy⟩ :=
        hshown (cursor - (s.length + 1) + i) (by rw [stringsSize_cons]; omega) (by omega)
      have hin : cursor - (s.length + 1) ≤ cursor - (s.length + 1) + i ∧
          cursor - (s.length + 1) + i < cursor - (s.length + 1) + (s.length + 1) := by omega
      rw [overlay, if_pos hin, hy, Option.map_some, Nat.add_sub_cancel_left]
    · rw [pairwise_append]
      refine ⟨hpair, pairwise_singleton _ _, fun x hx y hy => ?_⟩
      rw [List.mem_singleton.mp hy]
      exact (hplaced x hx).2.1

/-! ## The stack on pictures -/

/-- What `initialStack` shows: the words, the strings of both vectors, and where
they are. -/
structure StackLaid (arguments : ExecArguments) (sp : Nat) (v : Picture)
    (argv envp : List (Nat × List UInt8)) : Prop where
  argvStrings : argv.map Prod.snd = arguments.argv
  envpStrings : envp.map Prod.snd = arguments.envp
  words : ∀ k < arguments.argv.length + arguments.envp.length + 3, ∀ i < 8,
    v (sp + 8 * k + i) = some (hardwareFlags stackFlags, UInt8.ofNat
      ((stackWords arguments (argv.map Prod.fst) (envp.map Prod.fst)).getD k 0 / 256 ^ i))
  strings : ∀ x ∈ argv ++ envp, sp + 8 * (arguments.argv.length + arguments.envp.length + 3) ≤ x.1 ∧
    x.1 + x.2.length + 1 ≤ userStackTop ∧ ShowsString v (hardwareFlags stackFlags) x
  below : (argv ++ envp).Pairwise Below
  aligned : sp % 16 = 0
  bottom : stackBottom ≤ sp

theorem length_stackWords (arguments : ExecArguments) (argv envp : List Nat) :
    (stackWords arguments argv envp).length = argv.length + envp.length + 3 := by
  simp only [stackWords, length_append, length_cons, length_nil]
  omega

/-- The words by their places: the count, the pointers of each vector, and a null
pointer behind each. -/
theorem stackWords_getD (arguments : ExecArguments) (argv envp : List Nat) :
    (stackWords arguments argv envp).getD 0 0 = arguments.argv.length ∧
      (∀ i < argv.length, (stackWords arguments argv envp).getD (1 + i) 0 = argv.getD i 0) ∧
      (stackWords arguments argv envp).getD (1 + argv.length) 0 = 0 ∧
      (∀ i < envp.length,
        (stackWords arguments argv envp).getD (argv.length + 2 + i) 0 = envp.getD i 0) ∧
      (stackWords arguments argv envp).getD (argv.length + 2 + envp.length) 0 = 0 := by
  have hwords : stackWords arguments argv envp =
      arguments.argv.length :: (argv ++ (0 :: (envp ++ [0]))) := by
    simp [stackWords]
  simp only [hwords, getD_eq_getElem?_getD]
  refine ⟨rfl, fun i hi => ?_, ?_, fun i hi => ?_, ?_⟩
  · rw [Nat.add_comm 1 i, getElem?_cons_succ, getElem?_append_left hi]
  · rw [Nat.add_comm 1, getElem?_cons_succ, getElem?_append_right (Nat.le_refl _), Nat.sub_self]
    rfl
  · rw [show argv.length + 2 + i = argv.length + (i + 1) + 1 by omega, getElem?_cons_succ,
      getElem?_append_right (Nat.le_add_right _ _), Nat.add_sub_cancel_left, getElem?_cons_succ,
      getElem?_append_left hi]
  · rw [show argv.length + 2 + envp.length = argv.length + (envp.length + 1) + 1 by omega,
      getElem?_cons_succ, getElem?_append_right (Nat.le_add_right _ _), Nat.add_sub_cancel_left,
      getElem?_cons_succ, getElem?_append_right (Nat.le_refl _), Nat.sub_self]
    rfl

theorem initialStack_laid (arguments : ExecArguments) (v : Picture) : ∃ argv envp,
    StackLaid arguments (initialStack arguments v).1 (initialStack arguments v).2 argv envp := by
  have hsizes := arguments.sizes
  have hargc := arguments.argc_le
  have henvc := arguments.envc_le
  have hbottom : stackBottom = 4177920 := rfl
  have htop : userStackTop = 4194304 := rfl
  have hshown : ∀ b, stackBottom ≤ b → b < userStackTop →
      ∃ x, showRange v stackBottom (4096 * userStackPages) stackFlags b =
        some (hardwareFlags stackFlags, x) := fun b hlo hhi => ⟨0, if_pos ⟨hlo, hhi⟩⟩
  rw [initialStack]
  generalize showRange v stackBottom (4096 * userStackPages) stackFlags = v0 at hshown
  obtain ⟨envp, heptrs, hestrs, heplaced, hepair⟩ := placeStrings_placed arguments.envp.reverse []
    userStackTop v0 (by omega) fun b hlo hhi => hshown b (by omega) hhi
  have hecursor := placeStrings_cursor arguments.envp.reverse [] userStackTop v0
  have heshown : ∀ b, stackBottom ≤ b → b < userStackTop →
      ∃ x, (placeStrings arguments.envp.reverse [] userStackTop v0).2.2 b =
        some (hardwareFlags stackFlags, x) := fun b hlo hhi => by
    obtain ⟨x, hx⟩ := hshown b hlo hhi
    exact placeStrings_some _ _ _ _ x hx
  generalize placeStrings arguments.envp.reverse [] userStackTop v0 = env
    at heptrs heplaced hecursor heshown
  obtain ⟨argv, haptrs, hastrs, haplaced, hapair⟩ := placeStrings_placed arguments.argv.reverse []
    env.2.1 env.2.2 (by omega) fun b hlo hhi => heshown b (by omega) (by omega)
  have hacursor := placeStrings_cursor arguments.argv.reverse [] env.2.1 env.2.2
  have hashown : ∀ b, stackBottom ≤ b → b < userStackTop →
      ∃ x, (placeStrings arguments.argv.reverse [] env.2.1 env.2.2).2.2 b =
        some (hardwareFlags stackFlags, x) := fun b hlo hhi => by
    obtain ⟨x, hx⟩ := heshown b hlo hhi
    exact placeStrings_some _ _ _ _ x hx
  have hkept : ∀ b, env.2.1 ≤ b →
      (placeStrings arguments.argv.reverse [] env.2.1 env.2.2).2.2 b = env.2.2 b := fun b hb =>
    placeStrings_outside _ _ _ _ (by omega) (.inr hb)
  generalize placeStrings arguments.argv.reverse [] env.2.1 env.2.2 = arg
    at haptrs haplaced hacursor hashown hkept
  rw [append_nil] at heptrs haptrs
  rw [reverse_reverse] at hestrs hastrs
  have hcount : (stackWords arguments arg.1 env.1).length =
      arguments.argv.length + arguments.envp.length + 3 := by
    rw [length_stackWords, haptrs, heptrs, length_map, length_map, ← hastrs, ← hestrs,
      length_map, length_map]
  dsimp only
  rw [hcount]
  refine ⟨argv, envp, hastrs, hestrs, fun k hk i hi => ?_, fun x hx => ?_, ?_, by omega, by omega⟩
  · obtain ⟨y, hy⟩ :=
      hashown ((arg.2.1 - (arguments.argv.length + arguments.envp.length + 3) * 8) / 16 * 16 + 8 *
        k + i) (by omega) (by omega)
    rw [overlay, if_pos ⟨by omega, by omega⟩, hy, Option.map_some, wordBytes, haptrs, heptrs]
    have hdiv : ((arg.2.1 - (arguments.argv.length + arguments.envp.length + 3) * 8) / 16 * 16 +
        8 * k + i - (arg.2.1 - (arguments.argv.length + arguments.envp.length + 3) * 8) / 16 * 16) =
        8 * k + i := by omega
    have hk' : (8 * k + i) / 8 = k := by omega
    have hi' : (8 * k + i) % 8 = i := by omega
    rw [hdiv, hk', hi']
  · rcases List.mem_append.mp hx with hx | hx
    · obtain ⟨hlo, hhi, hs⟩ := haplaced x hx
      refine ⟨by omega, by omega, fun i hi => ?_⟩
      rw [overlay_of_not_mem (by omega)]
      exact hs i hi
    · obtain ⟨hlo, hhi, hs⟩ := heplaced x hx
      refine ⟨by omega, by omega, fun i hi => ?_⟩
      rw [overlay_of_not_mem (by omega), hkept _ (by omega)]
      exact hs i hi
  · rw [pairwise_append]
    refine ⟨hapair, hepair, fun x hx y hy => ?_⟩
    have hxhi := (haplaced x hx).2.1
    have hylo := (heplaced y hy).1
    unfold Below
    omega

/-! ## The stack of a space -/

section Decode

variable {as : AddressSpace} {m : Machine} {sp : Nat} {v : Picture} {arguments : ExecArguments}
  {argv envp : List (Nat × List UInt8)}

/-- A byte of the stack can be read. -/
theorem userByte_of_stack (hv : SameUser (peek as m) v) {a : Nat} {x : UInt8} (ha : a < 2 ^ 38)
    (hx : v a = some (hardwareFlags stackFlags, x)) : userByte as m false a = some x :=
  userByte_eq_some.mpr ⟨ha, hardwareFlags stackFlags, (hv a ha).trans hx, by decide⟩

namespace StackLaid

theorem word (h : StackLaid arguments sp v argv envp) (hv : SameUser (peek as m) v)
    (hsp : sp + 8 * (arguments.argv.length + arguments.envp.length + 3) ≤ userStackTop) {k w : Nat}
    (hk : k < arguments.argv.length + arguments.envp.length + 3) (hw : w < 2 ^ 64)
    (hget : (stackWords arguments (argv.map Prod.fst) (envp.map Prod.fst)).getD k 0 = w) :
    userWord as m (sp + 8 * k) = some w := by
  have htop : userStackTop = 4194304 := rfl
  refine userWord_eq_some.mpr ⟨fun i => UInt8.ofNat (w / 256 ^ i), fun i hi => ?_, ?_⟩
  · refine userByte_of_stack hv (by omega) ?_
    rw [h.words k hk i hi, hget]
  · rw [loadLE_of_digits (v := w) fun i _ => by rw [Nat.zero_add]]
    exact (Nat.mod_eq_of_lt hw).symm

theorem string (h : StackLaid arguments sp v argv envp) (hv : SameUser (peek as m) v)
    {x : Nat × List UInt8} (hx : x ∈ argv ++ envp) (hshort : x.2.length < 64)
    (hne : ∀ b ∈ x.2, b ≠ 0) : UserString as m x.1 x.2 := by
  have htop : userStackTop = 4194304 := rfl
  obtain ⟨-, hhi, hs⟩ := h.strings x hx
  refine ⟨by omega, hne, fun i hi => ?_, ?_⟩
  · exact userByte_of_stack hv (by omega) (hs i (by omega))
  have hlast := hs x.2.length (Nat.le_refl _)
  have hend : x.2.getD x.2.length 0 = 0 := by simp [getD_eq_getElem?_getD]
  rw [hend] at hlast
  exact userByte_of_stack hv (by omega) hlast

end StackLaid

/-- A vector whose words point to its strings. -/
theorem userVector_of_placed (vector : Nat) (placed : List (Nat × List UInt8))
    (hlen : placed.length ≤ 8) (hwords : ∀ i < placed.length, userWord as m (vector + 8 * i) = some
      ((placed.map Prod.fst).getD i 0)) (hstrings : ∀ x ∈ placed, x.1 ≠ 0 ∧ UserString as m x.1 x.2)
    (hterm : userWord as m (vector + 8 * placed.length) = some 0) :
    UserVector as m vector (placed.map Prod.snd) ∧
      vectorRanges as m vector (placed.map Prod.snd) = placed.map fun x =>
      (x.1, x.2.length + 1) := by
  have hfst : ∀ i (hi : i < placed.length), (placed.map Prod.fst).getD i 0 = placed[i].1 :=
    fun i hi => by
    simp [getD_eq_getElem?_getD, hi]
  have hsnd : ∀ i (hi : i < placed.length), (placed.map Prod.snd).getD i [] = placed[i].2 :=
    fun i hi => by
    simp [getD_eq_getElem?_getD, hi]
  refine ⟨⟨by simpa using hlen, fun i hi => ?_, by simpa using hterm⟩, ?_⟩
  · rw [length_map] at hi
    obtain ⟨hne, hs⟩ := hstrings placed[i] (getElem_mem hi)
    rw [hsnd i hi]
    exact ⟨placed[i].1, by rw [hwords i hi, hfst i hi], hne, hs⟩
  · refine ext_getElem (by simp [vectorRanges]) fun i hi hi' => ?_
    have hi : i < placed.length := by simpa using hi'
    simp only [vectorRanges, getElem_map, getElem_range, hwords i hi, hfst i hi, hsnd i hi,
      Option.getD_some]

/-- **The stack decodes to the arguments.** -/
theorem StackLaid.decodes (h : StackLaid arguments sp v argv envp) (hv : SameUser (peek as m) v)
    (hne : ∀ s ∈ arguments.argv ++ arguments.envp, ∀ b ∈ s, b ≠ 0)
    (hsp : sp + 8 * (arguments.argv.length + arguments.envp.length + 3) ≤ userStackTop) :
    StackDecodes as m sp arguments := by
  have htop : userStackTop = 4194304 := rfl
  have hbottom : stackBottom = 4177920 := rfl
  have hargc := arguments.argc_le
  have henvc := arguments.envc_le
  have hlow := h.bottom
  have hargs : argv.length = arguments.argv.length := by rw [← h.argvStrings, length_map]
  have henvs : envp.length = arguments.envp.length := by rw [← h.envpStrings, length_map]
  have hmem : ∀ x ∈ argv ++ envp, x.2 ∈ arguments.argv ++ arguments.envp := fun x hx => by
    rw [← h.argvStrings, ← h.envpStrings, ← map_append]
    exact mem_map_of_mem hx
  have hstring : ∀ x ∈ argv ++ envp, x.1 ≠ 0 ∧ UserString as m x.1 x.2 := fun x hx => by
    have := (h.strings x hx).1
    exact ⟨by omega, h.string hv hx (arguments.fits _ (hmem x hx)) (hne _ (hmem x hx))⟩
  have hsmall : ∀ (l : List (Nat × List UInt8)), (∀ x ∈ l, x ∈ argv ++ envp) → ∀ i < l.length,
      (l.map Prod.fst).getD i 0 < 2 ^ 64 := fun l hl i hi => by
    have := (h.strings _ (hl _ (getElem_mem hi))).2.1
    have hget : (l.map Prod.fst).getD i 0 = l[i].1 := by simp [getD_eq_getElem?_getD, hi]
    omega
  obtain ⟨hcount, hargw, hargz, henvw, henvz⟩ :=
    stackWords_getD arguments (argv.map Prod.fst) (envp.map Prod.fst)
  rw [length_map] at hargw hargz henvw henvz
  rw [length_map] at henvw henvz
  have hword : ∀ k w, k < arguments.argv.length + arguments.envp.length + 3 → w < 2 ^ 64 →
      (stackWords arguments (argv.map Prod.fst) (envp.map Prod.fst)).getD k 0 = w →
      userWord as m (sp + 8 * k) = some w := fun k w hk hw hget => h.word hv hsp hk hw hget
  obtain ⟨hvecA, hrangeA⟩ := userVector_of_placed (sp + 8) argv (by omega)
    (fun i hi => by
      rw [← hword (1 + i) _ (by omega) (hsmall argv (fun x hx => mem_append_left _ hx) i hi)
        (hargw i hi)]
      congr 1
      omega)
    (fun x hx => hstring x (mem_append_left _ hx))
    (by
      rw [← hword (1 + argv.length) 0 (by omega) (by decide) hargz]
      congr 1
      omega)
  obtain ⟨hvecE, hrangeE⟩ := userVector_of_placed (sp + 8 * (arguments.argv.length + 2)) envp
    (by omega)
    (fun i hi => by
      rw [← hword (argv.length + 2 + i) _ (by omega)
        (hsmall envp (fun x hx => mem_append_right _ hx) i hi) (henvw i hi)]
      congr 1
      omega)
    (fun x hx => hstring x (mem_append_right _ hx))
    (by
      rw [← hword (argv.length + 2 + envp.length) 0 (by omega) (by decide) henvz]
      congr 1
      omega)
  rw [h.argvStrings] at hvecA hrangeA
  rw [h.envpStrings] at hvecE hrangeE
  have hranges : stackRanges as m sp arguments =
      (sp, 8 * (arguments.argv.length + arguments.envp.length + 3)) ::
        (argv ++ envp).map fun x => (x.1, x.2.length + 1) := by
    rw [stackRanges, hrangeA, hrangeE, map_append]
  refine ⟨?_, hvecA, hvecE, h.aligned, ?_, ?_⟩
  · rw [crtStart, ← Nat.add_zero sp, ← Nat.mul_zero 8,
      hword 0 arguments.argv.length (by omega) (by omega) hcount, Option.map_some, Nat.mul_zero,
      Nat.add_zero]
    have hshift : arguments.argv.length <<< 3 = arguments.argv.length * 8 := Nat.shiftLeft_eq _ _
    simp only [hshift, Option.some.injEq, MainArguments.mk.injEq, true_and]
    omega
  · rw [hranges]
    refine List.forall_mem_cons.mpr ⟨by simp only; omega, fun r hr => ?_⟩
    obtain ⟨x, hx, rfl⟩ := List.mem_map.mp hr
    have := h.strings x hx
    simp only
    omega
  · rw [hranges, pairwise_cons]
    refine ⟨fun r hr => ?_, ?_⟩
    · obtain ⟨x, hx, rfl⟩ := List.mem_map.mp hr
      exact .inl (h.strings x hx).1
    · rw [pairwise_map]
      exact h.below.imp fun hxy => .inl hxy

end Decode

/-! ## End to end -/

section EndToEnd

variable {P : PagePool} {m : Machine} {as : AddressSpace} {t : Radix} {shared : Nat → Nat}
  {rest objs : Multiset Nat}

/-- **`build_stack`** puts the arguments where `_start` finds them. -/
theorem buildStack_decodes (h : Owned P m as t shared rest objs) (hr : Reserved as)
    (hroot : as.root ≠ 0) (hvac : vacant as.areas 0x3fb000 0x400000 = true)
    {arguments : ExecArguments} (hne : ∀ s ∈ arguments.argv ++ arguments.envp, ∀ b ∈ s, b ≠ 0)
    (hallocs : false ∉ buildStackAllocs as m) :
    ∃ sp as' m', buildStack as arguments m = (some sp, as', m') ∧
      StackDecodes as' m' sp arguments := by
  obtain ⟨as', m', hrun, hv⟩ := buildStack_exact h hr hroot hvac arguments hallocs
  obtain ⟨argv, envp, hlaid⟩ := initialStack_laid arguments (peek as m)
  have hsp := (initialStack_pointer arguments (peek as m)).1
  have htop : userStackTop = 4194304 := rfl
  have hsizes := arguments.sizes
  rw [stringsSize_reverse, stringsSize_reverse] at hsizes
  have hargc := arguments.argc_le
  have henvc := arguments.envc_le
  exact ⟨_, as', m', hrun, hlaid.decodes hv hne (by omega)⟩

/-- **Exec arguments survive end to end**: the request is copied if and only if
the caller has a path and two vectors to copy, and then the stack of the new
program decodes to the caller's strings. -/
theorem exec_arguments_survive (h : Owned P m as t shared rest objs) (path argv envp : Nat) :
    ((copyExecRequest as path argv envp m).isSome ↔
      path ≠ 0 ∧ (∃ s, UserString as m path s) ∧ (∃ l, OptionalVector as m argv l) ∧
        ∃ l, OptionalVector as m envp l) ∧
    ∀ p arguments, copyExecRequest as path argv envp m = some (p, arguments) →
      UserString as m path p ∧ OptionalVector as m argv arguments.argv ∧
      OptionalVector as m envp arguments.envp ∧
      ∀ {P' m' as' t' shared' rest' objs'}, Owned P' m' as' t' shared' rest' objs' → Reserved as' →
        as'.root ≠ 0 → vacant as'.areas 0x3fb000 0x400000 = true → false ∉ buildStackAllocs as' m' →
        ∃ sp as'' m'', buildStack as' arguments m' = (some sp, as'', m'') ∧
          StackDecodes as'' m'' sp arguments := by
  refine ⟨copyExecRequest_isSome h, fun p arguments hrun => ?_⟩
  obtain ⟨⟨-, hp⟩, hargv, henvp⟩ := (copyExecRequest_iff h).mp hrun
  refine ⟨hp, hargv, henvp, fun h' hr hroot hvac hallocs => ?_⟩
  refine buildStack_decodes h' hr hroot hvac (fun s hs => ?_) hallocs
  rcases List.mem_append.mp hs with hs | hs
  · exact (hargv.bounds.2 s hs).2
  · exact (henvp.bounds.2 s hs).2

end EndToEnd

/-- A caller with two strings and two vectors that point to them on its heap, and a
fresh space for the new program. -/
def callerRun : List Op :=
  [.init, .brk 0 (heapBase + 4096),
    .copy 0 (some (wordBytes [0x6261, 0x3d78, heapBase, heapBase + 8, 0, heapBase + 8, 0]))
      heapBase 56 true,
    .init]

theorem callerRun_survives : ∃ w caller fresh arguments sp as' m',
    runSteps (step 4096) ⟨smallMachine, []⟩ callerRun = some w ∧ w.spaces = [caller, fresh] ∧
      copyExecRequest caller heapBase (heapBase + 16) (heapBase + 40) w.machine =
        some (bytesOf "ab", arguments) ∧
      arguments.argv = [bytesOf "ab", bytesOf "x="] ∧ arguments.envp = [bytesOf "x="] ∧
      buildStack fresh arguments w.machine = (some sp, as', m') ∧
      StackDecodes as' m' sp arguments := by
  have hrun : ((runSteps (step 4096) ⟨smallMachine, []⟩ callerRun).map fun w => w.spaces.length) =
      some 2 := by decide +kernel
  obtain ⟨w, hw, hlen⟩ := Option.map_eq_some_iff.mp hrun
  obtain ⟨caller, fresh, hspaces⟩ := List.length_eq_two.mp hlen
  have hcopy : ((runSteps (step 4096) ⟨smallMachine, []⟩ callerRun).bind fun w =>
      w.spaces[0]?.bind fun as =>
        (copyExecRequest as heapBase (heapBase + 16) (heapBase + 40) w.machine).map
          fun r => (r.1, r.2.argv, r.2.envp)) =
      some (bytesOf "ab", [bytesOf "ab", bytesOf "x="], [bytesOf "x="]) := by decide +kernel
  have hroom : ((runSteps (step 4096) ⟨smallMachine, []⟩ callerRun).bind fun w =>
      w.spaces[1]?.map fun as => (as.root != 0 && vacant as.areas 0x3fb000 0x400000 &&
        !(buildStackAllocs as w.machine).contains false)) = some true := by decide +kernel
  rw [hw, Option.bind_some, hspaces] at hcopy hroom
  have hreach : Reach (step 4096) (fun _ op => op.raw = false) ⟨smallMachine, []⟩ w :=
    Reach.of_runSteps hw (by simp [callerRun, Op.raw])
  obtain ⟨l, t, -, hx, -, hs⟩ := smallMachine_boot.focus hreach (show w.spaces[0]? = some caller by
    rw [hspaces]; rfl)
  obtain ⟨l', t', -, hx', hres, hs'⟩ :=
    smallMachine_boot.focus hreach (show w.spaces[1]? = some fresh by
    rw [hspaces]; rfl)
  obtain ⟨⟨p, arguments⟩, hrequest, heq⟩ := Option.map_eq_some_iff.mp hcopy
  obtain ⟨hp, hargs⟩ := Prod.mk.inj heq
  obtain ⟨hargv, henvp⟩ := Prod.mk.inj hargs
  simp only at hp hargv henvp
  have hready := Option.some.inj hroom
  simp only [Bool.and_eq_true, bne_iff_ne, Bool.not_eq_true', contains_eq_mem] at hready
  obtain ⟨⟨hroot, hvac⟩, hallocs⟩ := hready
  obtain ⟨-, hsurvive⟩ := exec_arguments_survive (hs.focus hx) heapBase (heapBase + 16)
    (heapBase + 40)
  obtain ⟨-, -, -, hstack⟩ := hsurvive p arguments hrequest
  obtain ⟨sp, as', m', hbuild, hdecodes⟩ := hstack (hs'.focus hx') hres hroot hvac
    (of_decide_eq_false hallocs)
  exact ⟨w, caller, fresh, arguments, sp, as', m', hw, hspaces, hp ▸ hrequest, hargv, henvp, hbuild,
    hdecodes⟩

end MiniCore
