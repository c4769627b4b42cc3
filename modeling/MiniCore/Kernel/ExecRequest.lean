import MiniCore.Kernel.ElfStack

/-!
# MiniCore.Kernel.ExecRequest

What `exec` takes from its caller (`copy_exec_request` and the functions below it
in `src/kernel/user.c`).

The path and the two vectors are copied byte by byte and word by word out of an
address space that may map anything anywhere.  `UserString` and `UserVector` say
what is there to be copied, in terms of the bytes the caller may read; the copy
succeeds if and only if all of it is there, and returns exactly that
(`copyExecRequest_iff`).
-/

namespace MiniCore

open Lib List

variable {as : AddressSpace} {m : Machine} {P : PagePool} {t : Radix} {shared : Nat → Nat}
  {rest objs : Multiset Nat}

/-! ## The copies -/

/-- `EXEC_STRING_SIZE` -/
def execStringSize : Nat := 64

/-- `EXEC_MAX_ARGS` and `EXEC_MAX_ENVS` -/
def execMaxArgs : Nat := 8
def execMaxEnvs : Nat := 8

/-- `copy_from_user` of at least one byte; the destination, if it succeeds. -/
def copyFromUser (as : AddressSpace) (source size : Nat) (m : Machine) : Option (Nat → UInt8) :=
  match addressSpaceCopy as (some fun _ => 0) source size false m with
  | (false, _) => none
  | (true, c) => some c.buffer

/-- The loop of `copy_user_string`, with `n` bytes of the destination left: what it
stores before the terminator. -/
def copyUserStringFrom (as : AddressSpace) (source : Nat) (m : Machine) :
    Nat → Nat → Option (List UInt8)
  | 0, _ => none
  | n + 1, i =>
    if 2 ^ 64 - 1 - i < source then none
    else
      match copyFromUser as (source + i) 1 m with
      | none => none
      | some byte =>
        if byte 0 = 0 then some []
        else (copyUserStringFrom as source m n (i + 1)).map (byte 0 :: ·)

def copyUserString (as : AddressSpace) (capacity source : Nat) (m : Machine) :
    Option (List UInt8) :=
  if source = 0 ∨ capacity = 0 then none else copyUserStringFrom as source m capacity 0

/-- A 64-bit word of the caller. -/
def copyUserWord (as : AddressSpace) (source : Nat) (m : Machine) : Option Nat :=
  (copyFromUser as source 8 m).map fun bytes => loadLE bytes 0 8

/-- The loop of `copy_user_vector`, with room for `n` more strings, and the check
of the terminator behind it. -/
def copyUserVectorFrom (as : AddressSpace) (vector : Nat) (m : Machine) :
    Nat → Nat → Option (List (List UInt8))
  | 0, count =>
    match copyUserWord as (vector + count * 8) m with
    | none => none
    | some terminator => if terminator = 0 then some [] else none
  | n + 1, count =>
    match copyUserWord as (vector + count * 8) m with
    | none => none
    | some pointer =>
      if pointer = 0 then some []
      else
        match copyUserString as execStringSize pointer m with
        | none => none
        | some s => (copyUserVectorFrom as vector m n (count + 1)).map (s :: ·)

def copyUserVector (as : AddressSpace) (vector maximum : Nat) (m : Machine) :
    Option (List (List UInt8)) :=
  if vector = 0 then some []
  else if 2 ^ 64 - 1 - (maximum + 1) * 8 < vector then none
  else copyUserVectorFrom as vector m maximum 0

/-! ## What there is to copy -/

/-- The caller has the string `s`, terminated, at the address. -/
structure UserString (as : AddressSpace) (m : Machine) (address : Nat) (s : List UInt8) : Prop where
  short : s.length ≤ 63
  nonzero : ∀ x ∈ s, x ≠ 0
  bytes : ∀ i < s.length, userByte as m false (address + i) = some (s.getD i 0)
  terminated : userByte as m false (address + s.length) = some 0

/-- The word the caller may read at the address. -/
def userWord (as : AddressSpace) (m : Machine) (address : Nat) : Option Nat :=
  if (range 8).all fun i => (userByte as m false (address + i)).isSome then
    some (loadLE (bytesFrom as m address) 0 8)
  else none

/-- The caller has the strings at the address: pointers to them, then a null pointer. -/
structure UserVector (as : AddressSpace) (m : Machine) (address : Nat)
    (strings : List (List UInt8)) :
    Prop where
  short : strings.length ≤ 8
  entries : ∀ i < strings.length, ∃ pointer, userWord as m (address + 8 * i) = some pointer ∧
    pointer ≠ 0 ∧ UserString as m pointer (strings.getD i [])
  terminated : userWord as m (address + 8 * strings.length) = some 0

/-- A vector that may be left out. -/
def OptionalVector (as : AddressSpace) (m : Machine) (address : Nat) (strings : List (List UInt8)) :
    Prop :=
  (address = 0 ∧ strings = []) ∨ (address ≠ 0 ∧ UserVector as m address strings)

theorem userWord_eq_some {a w : Nat} : userWord as m a = some w ↔ ∃ bytes : Nat → UInt8,
      (∀ i < 8, userByte as m false (a + i) = some (bytes i)) ∧ w = loadLE bytes 0 8 := by
  rw [userWord]
  constructor
  · intro h
    split at h
    · next hall =>
      refine ⟨bytesFrom as m a, fun i hi => ?_, (Option.some.inj h).symm⟩
      obtain ⟨x, hx⟩ := Option.isSome_iff_exists.mp
        (List.all_eq_true.mp hall i (List.mem_range.mpr hi))
      rw [bytesFrom, hx]
      rfl
    · cases h
  · rintro ⟨bytes, hbytes, rfl⟩
    have hall : (range 8).all (fun i => (userByte as m false (a + i)).isSome) = true :=
      List.all_eq_true.mpr fun i hi => by
        rw [hbytes i (List.mem_range.mp hi)]
        rfl
    rw [if_pos hall, Option.some.injEq]
    refine loadLE_congr fun i hi => ?_
    rw [Nat.zero_add, bytesFrom, hbytes i hi]
    rfl

section

variable (h : Owned P m as t shared rest objs)

include h

/-- **`copy_from_user`** -/
theorem copyFromUser_iff (source size : Nat) :
    (∃ bytes, copyFromUser as source size m = some bytes ∧
      ∀ i < size, userByte as m false (source + i) = some (bytes i)) ∨
    (copyFromUser as source size m = none ∧ ∃ i < size,
      userByte as m false (source + i) = none) := by
  obtain ⟨hiff, hbytes⟩ := addressSpaceCopy_read h (fun _ => 0) source size
  rw [copyFromUser]
  rcases hcopy : addressSpaceCopy as (some fun _ => 0) source size false m with ⟨b, c⟩
  rw [hcopy] at hiff hbytes
  cases b with
  | true => exact .inl ⟨c.buffer, rfl, fun i hi => (hbytes rfl i hi).symm⟩
  | false =>
    have hno := hiff.not.mp (by simp)
    simp only [not_forall, not_not, ne_eq] at hno
    obtain ⟨i, hi, hnone⟩ := hno
    exact .inr ⟨rfl, i, hi, hnone⟩

omit h in
theorem userByte_lt {write : Bool} {a : Nat} {x : UInt8} (h : userByte as m write a = some x) :
    a < 2 ^ 38 := (userByte_eq_some.mp h).1

/-- **The loop of `copy_user_string`** copies what comes before the first zero. -/
theorem copyUserStringFrom_iff (source : Nat) :
    ∀ (n i : Nat) (s : List UInt8), copyUserStringFrom as source m n i = some s ↔
      s.length < n ∧ (∀ x ∈ s, x ≠ 0) ∧
        (∀ k < s.length, userByte as m false (source + i + k) = some (s.getD k 0)) ∧
        userByte as m false (source + i + s.length) = some 0 := by
  intro n
  induction n with
  | zero => simp [copyUserStringFrom]
  | succ n ih =>
    intro i s
    rw [copyUserStringFrom]
    -- the first byte decides, and is there in either case
    have hfirst : ∀ x : UInt8, userByte as m false (source + i) = some x →
        ¬ 2 ^ 64 - 1 - i < source ∧ ∃ bytes, copyFromUser as (source + i) 1 m = some bytes ∧
          bytes 0 = x := by
      intro x hx
      have := userByte_lt hx
      rcases copyFromUser_iff h (source + i) 1 with ⟨bytes, hsome, hb⟩ | ⟨-, k, hk, hnone⟩
      · have hb0 := hb 0 (by decide)
        rw [Nat.add_zero, hx] at hb0
        exact ⟨by omega, bytes, hsome, (Option.some.inj hb0).symm⟩
      · obtain rfl : k = 0 := by omega
        rw [Nat.add_zero, hx] at hnone
        cases hnone
    constructor
    · intro hrun
      split at hrun
      · cases hrun
      rcases copyFromUser_iff h (source + i) 1 with ⟨bytes, hsome, hb⟩ | ⟨hnone, -⟩
      · have hb0 := hb 0 (by decide)
        rw [Nat.add_zero] at hb0
        rw [hsome] at hrun
        dsimp only at hrun
        split at hrun
        · next hz =>
          cases hrun
          refine ⟨by simp, by simp, by simp, ?_⟩
          rw [length_nil, Nat.add_zero, hb0, hz]
        next hnz =>
        obtain ⟨tail, htail, rfl⟩ := Option.map_eq_some_iff.mp hrun
        obtain ⟨hlen, hne, hbytes, hterm⟩ := (ih (i + 1) tail).mp htail
        refine ⟨by simpa using hlen, List.forall_mem_cons.mpr ⟨hnz, hne⟩, fun k hk => ?_, ?_⟩
        · cases k with
          | zero => exact hb0
          | succ k =>
            rw [getD_cons_succ, ← hbytes k (by simpa using hk)]
            congr 1
            omega
        · rw [length_cons, ← hterm]
          congr 1
          omega
      · rw [hnone] at hrun
        cases hrun
    · rintro ⟨hlen, hne, hbytes, hterm⟩
      cases s with
      | nil =>
        obtain ⟨hle, bytes, hsome, hz⟩ := hfirst 0 (by simpa using hterm)
        rw [if_neg hle, hsome]
        simp [hz]
      | cons x tail =>
        obtain ⟨hle, bytes, hsome, hx⟩ := hfirst x (by simpa using hbytes 0 (by simp))
        have htail : copyUserStringFrom as source m n (i + 1) = some tail := by
          rw [ih (i + 1) tail]
          refine ⟨by simpa using hlen, fun y hy => hne y (mem_cons_of_mem _ hy), fun k hk => ?_, ?_⟩
          · have hk := hbytes (k + 1) (by simpa using hk)
            rw [getD_cons_succ] at hk
            rw [← hk]
            congr 1
            omega
          · rw [← hterm, length_cons]
            congr 1
            omega
        have hxne : x ≠ 0 := hne x mem_cons_self
        rw [if_neg hle, hsome]
        simp [hx, hxne, htail]

/-- **`copy_user_string`** -/
theorem copyUserString_iff {source : Nat} {s : List UInt8} :
    copyUserString as execStringSize source m = some s ↔ source ≠ 0 ∧ UserString as m source s := by
  have hcap : execStringSize ≠ 0 := by decide
  rw [copyUserString]
  by_cases hz : source = 0
  · simp [hz]
  rw [if_neg (by simp [hz, hcap]), copyUserStringFrom_iff h, Nat.add_zero]
  unfold execStringSize
  constructor
  · rintro ⟨hlen, hne, hbytes, hterm⟩
    exact ⟨hz, by omega, hne, hbytes, hterm⟩
  · rintro ⟨-, hlen, hne, hbytes, hterm⟩
    exact ⟨by omega, hne, hbytes, hterm⟩

theorem copyUserWord_eq (source : Nat) : copyUserWord as source m = userWord as m source := by
  rw [copyUserWord]
  rcases copyFromUser_iff h source 8 with ⟨bytes, hsome, hb⟩ | ⟨hnone, i, hi, hno⟩
  · rw [hsome]
    exact (userWord_eq_some.mpr ⟨bytes, hb, rfl⟩).symm
  rw [hnone]
  cases hw : userWord as m source with
  | none => rfl
  | some w =>
    obtain ⟨bytes, hb, -⟩ := userWord_eq_some.mp hw
    rw [hb i hi] at hno
    cases hno

omit h in
theorem userWord_lt {a w : Nat} (h : userWord as m a = some w) : a + 7 < 2 ^ 38 := by
  obtain ⟨bytes, hb, -⟩ := userWord_eq_some.mp h
  exact userByte_lt (hb 7 (by decide))

/-- **The loop of `copy_user_vector`.** -/
theorem copyUserVectorFrom_iff (vector : Nat) : ∀ (n count : Nat) (strings : List (List UInt8)),
    copyUserVectorFrom as vector m n count = some strings ↔
      strings.length ≤ n ∧
        (∀ i < strings.length, ∃ pointer, userWord as m (vector + 8 * (count + i)) = some pointer ∧
          pointer ≠ 0 ∧ UserString as m pointer (strings.getD i [])) ∧
        userWord as m (vector + 8 * (count + strings.length)) = some 0 := by
  intro n
  induction n with
  | zero =>
    intro count strings
    rw [copyUserVectorFrom, copyUserWord_eq h, Nat.mul_comm count 8]
    constructor
    · intro hrun
      split at hrun
      · cases hrun
      next w hw =>
      split at hrun
      · next hz =>
        cases hrun
        exact ⟨Nat.le_refl _, by simp, by rw [length_nil, Nat.add_zero, hw, hz]⟩
      · cases hrun
    · rintro ⟨hlen, -, hterm⟩
      obtain rfl : strings = [] := eq_nil_of_length_eq_zero (by omega)
      rw [length_nil, Nat.add_zero] at hterm
      rw [hterm]
      simp
  | succ n ih =>
    intro count strings
    rw [copyUserVectorFrom, copyUserWord_eq h, Nat.mul_comm count 8]
    constructor
    · intro hrun
      split at hrun
      · cases hrun
      next w hw =>
      split at hrun
      · next hz =>
        cases hrun
        exact ⟨by simp, by simp, by rw [length_nil, Nat.add_zero, hw, hz]⟩
      next hnz =>
      split at hrun
      · cases hrun
      next s hs =>
      obtain ⟨tail, htail, rfl⟩ := Option.map_eq_some_iff.mp hrun
      obtain ⟨hlen, hstr, hterm⟩ := (ih (count + 1) tail).mp htail
      refine ⟨by simpa using hlen, fun i hi => ?_, ?_⟩
      · cases i with
        | zero => exact ⟨w, hw, hnz, ((copyUserString_iff h).mp hs).2⟩
        | succ i =>
          obtain ⟨pointer, hp, hne, hps⟩ := hstr i (by simpa using hi)
          rw [getD_cons_succ]
          exact ⟨pointer, by rw [← hp]; congr 2; omega, hne, hps⟩
      · rw [length_cons, ← hterm]
        congr 2
        omega
    · rintro ⟨hlen, hstr, hterm⟩
      cases strings with
      | nil =>
        rw [length_nil, Nat.add_zero] at hterm
        rw [hterm]
        simp
      | cons s tail =>
        obtain ⟨pointer, hp, hne, hps⟩ := hstr 0 (by simp)
        rw [Nat.add_zero] at hp
        have hs : copyUserString as execStringSize pointer m = some s :=
          (copyUserString_iff h).mpr ⟨hne, hps⟩
        have htail : copyUserVectorFrom as vector m n (count + 1) = some tail := by
          rw [ih (count + 1) tail]
          refine ⟨by simpa using hlen, fun i hi => ?_, ?_⟩
          · obtain ⟨q, hq, hqne, hqs⟩ := hstr (i + 1) (by simpa using hi)
            rw [getD_cons_succ] at hqs
            exact ⟨q, by rw [← hq]; congr 2; omega, hqne, hqs⟩
          · rw [← hterm, length_cons]
            congr 2
            omega
        rw [hp]
        simp only [hne, if_false, hs, htail, Option.map_some]

/-- **`copy_user_vector`** -/
theorem copyUserVector_iff {vector : Nat} {strings : List (List UInt8)} :
    copyUserVector as vector 8 m = some strings ↔ OptionalVector as m vector strings := by
  rw [copyUserVector, OptionalVector]
  by_cases hz : vector = 0
  · rw [if_pos hz, Option.some.injEq]
    constructor
    · exact fun heq => .inl ⟨hz, heq.symm⟩
    rintro (⟨-, rfl⟩ | ⟨hne, -⟩)
    · rfl
    · exact absurd hz hne
  rw [if_neg hz]
  have hiff : copyUserVectorFrom as vector m 8 0 = some strings ↔
      UserVector as m vector strings := by
    rw [copyUserVectorFrom_iff h]
    simp only [Nat.zero_add]
    exact ⟨fun ⟨hlen, hstr, hterm⟩ => ⟨hlen, hstr, hterm⟩, fun ⟨hlen, hstr, hterm⟩ =>
      ⟨hlen, hstr, hterm⟩⟩
  constructor
  · intro hrun
    split at hrun
    · cases hrun
    · exact .inr ⟨hz, hiff.mp hrun⟩
  rintro (⟨hz', -⟩ | ⟨-, hvec⟩)
  · exact absurd hz' hz
  have := userWord_lt hvec.terminated
  rw [if_neg (by omega)]
  exact hiff.mpr hvec

end

theorem OptionalVector.bounds {address : Nat} {strings : List (List UInt8)}
    (h : OptionalVector as m address strings) :
    strings.length ≤ 8 ∧ ∀ s ∈ strings, s.length < 64 ∧ ∀ x ∈ s, x ≠ 0 := by
  rcases h with ⟨-, rfl⟩ | ⟨-, hvec⟩
  · simp
  refine ⟨hvec.short, fun s hs => ?_⟩
  obtain ⟨i, hi, rfl⟩ := getElem_of_mem hs
  obtain ⟨_, -, -, hstr⟩ := hvec.entries i hi
  have hget : strings.getD i [] = strings[i] := by simp [getD_eq_getElem?_getD, hi]
  rw [hget] at hstr
  exact ⟨Nat.lt_of_le_of_lt hstr.short (by decide), hstr.nonzero⟩

/-! ## The request -/

/-- A copied string leaves room for its terminator. -/
theorem copyUserStringFrom_length {source : Nat} :
    ∀ {n i : Nat} {s : List UInt8}, copyUserStringFrom as source m n i = some s → s.length < n := by
  intro n
  induction n with
  | zero =>
    intro i s hrun
    cases hrun
  | succ n ih =>
    intro i s hrun
    rw [copyUserStringFrom] at hrun
    split at hrun
    · cases hrun
    split at hrun
    · cases hrun
    split at hrun
    · cases hrun
      exact Nat.succ_pos n
    · obtain ⟨tail, htail, rfl⟩ := Option.map_eq_some_iff.mp hrun
      exact Nat.succ_lt_succ (ih htail)

theorem copyUserString_length {source capacity : Nat} {s : List UInt8}
    (hrun : copyUserString as capacity source m = some s) : s.length < capacity := by
  rw [copyUserString] at hrun
  split at hrun
  · cases hrun
  · exact copyUserStringFrom_length hrun

theorem copyUserVectorFrom_bounds {vector : Nat} :
    ∀ {n count : Nat} {strings : List (List UInt8)}, copyUserVectorFrom as vector m n count =
      some strings →
      strings.length ≤ n ∧ ∀ s ∈ strings, s.length < 64 := by
  intro n
  induction n with
  | zero =>
    intro count strings hrun
    rw [copyUserVectorFrom] at hrun
    split at hrun
    · cases hrun
    split at hrun
    · cases hrun
      simp
    · cases hrun
  | succ n ih =>
    intro count strings hrun
    rw [copyUserVectorFrom] at hrun
    split at hrun
    · cases hrun
    split at hrun
    · cases hrun
      simp
    split at hrun
    · cases hrun
    next s hs =>
    obtain ⟨tail, htail, rfl⟩ := Option.map_eq_some_iff.mp hrun
    obtain ⟨hlen, hall⟩ := ih htail
    exact ⟨Nat.succ_le_succ hlen, List.forall_mem_cons.mpr ⟨copyUserString_length hs, hall⟩⟩

theorem copyUserVector_bounds {vector maximum : Nat} {strings : List (List UInt8)}
    (hrun : copyUserVector as vector maximum m = some strings) :
    strings.length ≤ maximum ∧ ∀ s ∈ strings, s.length < 64 := by
  rw [copyUserVector] at hrun
  split at hrun
  · cases hrun
    simp
  split at hrun
  · cases hrun
  · exact copyUserVectorFrom_bounds hrun

/-- `copy_exec_request`: the path and the arguments, if all of it can be copied. -/
def copyExecRequest (as : AddressSpace) (path argv envp : Nat) (m : Machine) :
    Option (List UInt8 × ExecArguments) :=
  match copyUserString as execStringSize path m with
  | none => none
  | some path =>
    match hargv : copyUserVector as argv execMaxArgs m with
    | none => none
    | some argv =>
      match henvp : copyUserVector as envp execMaxEnvs m with
      | none => none
      | some envp =>
        some (path, ⟨argv, envp, (copyUserVector_bounds hargv).1, (copyUserVector_bounds henvp).1,
          fun s hs => (List.mem_append.mp hs).elim ((copyUserVector_bounds hargv).2 s)
            ((copyUserVector_bounds henvp).2 s)⟩)

/-- **`copy_exec_request`** copies what the caller has, if the caller has it all. -/
theorem copyExecRequest_iff (h : Owned P m as t shared rest objs) {path argv envp : Nat}
    {p : List UInt8} {arguments : ExecArguments} :
    copyExecRequest as path argv envp m = some (p, arguments) ↔
      (path ≠ 0 ∧ UserString as m path p) ∧ OptionalVector as m argv arguments.argv ∧
        OptionalVector as m envp arguments.envp := by
  rw [← copyUserString_iff h, ← copyUserVector_iff h, ← copyUserVector_iff h]
  constructor
  · intro hrun
    unfold copyExecRequest at hrun
    split at hrun
    · cases hrun
    next hp =>
    split at hrun
    · cases hrun
    next ha =>
    split at hrun
    · cases hrun
    next he =>
    cases hrun
    exact ⟨hp, ha, he⟩
  rintro ⟨hp, ha, he⟩
  have ha' : copyUserVector as argv execMaxArgs m = some arguments.argv := ha
  have he' : copyUserVector as envp execMaxEnvs m = some arguments.envp := he
  unfold copyExecRequest
  rw [hp]
  dsimp only
  split
  · next hno => rw [ha'] at hno; cases hno
  next a hargv =>
  split
  · next hno => rw [he'] at hno; cases hno
  next e henvp =>
  rw [ha'] at hargv
  rw [he'] at henvp
  cases hargv
  cases henvp
  rfl

/-- It succeeds if and only if there is something to copy. -/
theorem copyExecRequest_isSome (h : Owned P m as t shared rest objs) {path argv envp : Nat} :
    (copyExecRequest as path argv envp m).isSome ↔
      path ≠ 0 ∧ (∃ s, UserString as m path s) ∧ (∃ l, OptionalVector as m argv l) ∧
        ∃ l, OptionalVector as m envp l := by
  rw [Option.isSome_iff_exists]
  constructor
  · rintro ⟨⟨p, arguments⟩, hrun⟩
    obtain ⟨⟨hne, hp⟩, ha, he⟩ := (copyExecRequest_iff h).mp hrun
    exact ⟨hne, ⟨p, hp⟩, ⟨_, ha⟩, ⟨_, he⟩⟩
  rintro ⟨hne, ⟨p, hp⟩, ⟨a, ha⟩, ⟨e, he⟩⟩
  refine ⟨(p, ⟨a, e, ha.bounds.1, he.bounds.1, fun s hs => ?_⟩),
    (copyExecRequest_iff h).mpr ⟨⟨hne, hp⟩, ha, he⟩⟩
  rcases List.mem_append.mp hs with hs | hs
  · exact (ha.bounds.2 s hs).1
  · exact (he.bounds.2 s hs).1

end MiniCore
