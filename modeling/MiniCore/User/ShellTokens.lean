import Mathlib.Data.List.TakeWhile

/-!
# MiniCore.User.ShellTokens

The words and operators of a shell line (`user/sh.c`, `token`).

A pointer into a line is the part of the line from there on.  `token` walks a
line up to its first zero byte; what it finds from the start to the end are the
`tokens` of the line.  The reverse is the relation `Renders`: tokens printed, with
blanks anywhere between them and at least one where two of them would run
together, are read back (`Renders.tokens_eq`).
-/

namespace MiniCore.Shell

open List

/-! ## Bytes -/

def isBlank (c : UInt8) : Bool := c == 0x20 || c == 0x09

def isOperator (c : UInt8) : Bool := c == 0x7c || c == 0x3c || c == 0x3e

/-- The bytes that a word is made of. -/
def isWordChar (c : UInt8) : Bool := c != 0 && !isBlank c && !isOperator c

theorem isWordChar_of_blank (h : isBlank c = true) : isWordChar c = false := by
  simp [isWordChar, h]

theorem isBlank_of_wordChar (h : isWordChar c = true) : isBlank c = false := by
  simp only [isWordChar, Bool.and_eq_true, Bool.not_eq_true'] at h
  exact h.1.2

theorem isOperator_of_wordChar (h : isWordChar c = true) : isOperator c = false := by
  simp only [isWordChar, Bool.and_eq_true, Bool.not_eq_true'] at h
  exact h.2

theorem ne_zero_of_wordChar (h : isWordChar c = true) : c ≠ 0 := by
  simp only [isWordChar, Bool.and_eq_true, bne_iff_ne] at h
  exact h.1.1

/-- Every byte is of one of the four sorts. -/
theorem char_cases (c : UInt8) :
    c = 0 ∨ isBlank c = true ∨ (c = 0x7c ∨ c = 0x3c ∨ c = 0x3e) ∨ isWordChar c = true := by
  by_cases hw : isWordChar c = true
  · simp [hw]
  simp only [isWordChar, isOperator, Bool.and_eq_true, Bool.not_eq_true', bne_iff_ne,
    ne_eq, not_and, Bool.not_eq_false, Bool.or_eq_true, beq_iff_eq] at hw
  by_cases h0 : c = 0
  · exact .inl h0
  cases hb : isBlank c with
  | true => simp
  | false => exact .inr (.inr (.inl (by simpa [or_assoc] using hw ⟨h0, hb⟩)))

/-! ## The tokenizer -/

/-- The kind of a token; the code writes `'|'`, `'<'`, `'>'`, `'+'` and 0. -/
inductive Kind where
  | word | pipe | input | output | append
deriving DecidableEq, Repr

/-- `token`: the token, or none at the end of the line, with its kind and the new
cursor. -/
def token (cursor : List UInt8) : Option (List UInt8) × Kind × List UInt8 :=
  match cursor.dropWhile isBlank with
  | [] => (none, .word, [])
  | c :: p =>
    if c = 0 then (none, .word, c :: p)
    else if c = 0x7c then (some (c :: p), .pipe, p)
    else if c = 0x3c then (some (c :: p), .input, p)
    else if c = 0x3e then
      if p.head? = some 0x3e then (some (c :: p), .append, p.tail) else (some (c :: p), .output, p)
    else (some (c :: p), .word, (c :: p).dropWhile isWordChar)

/-- A word or an operator. -/
inductive Token where
  | pipe | input | output | append
  | word (bytes : List UInt8)
deriving DecidableEq, Repr

def Kind.token (w : List UInt8) : Kind → Token
  | .word => .word w
  | .pipe => .pipe
  | .input => .input
  | .output => .output
  | .append => .append

def Token.bytes : Token → List UInt8
  | .pipe => [0x7c]
  | .input => [0x3c]
  | .output => [0x3e]
  | .append => [0x3e, 0x3e]
  | .word w => w

def Token.kind : Token → Kind
  | .pipe => .pipe
  | .input => .input
  | .output => .output
  | .append => .append
  | .word _ => .word

variable {ts : List Token} {rest s : List UInt8} {t : Token} {c : UInt8}

/-- A word is a nonempty run of word bytes. -/
def Token.Valid : Token → Prop
  | .word w => w ≠ [] ∧ ∀ c ∈ w, isWordChar c = true
  | _ => True

theorem Token.bytes_ne_nil (h : t.Valid) : t.bytes ≠ [] := by
  cases t with
  | word w => exact h.1
  | _ => simp [Token.bytes]

/-- The next token of `s` is `t`, and `rest` comes behind it. -/
structure Found (s : List UInt8) (t : Token) (rest : List UInt8) : Prop where
  valid : t.Valid
  split : s.dropWhile isBlank = t.bytes ++ rest
  word : t.kind = .word → ∀ c ∈ rest.head?, isWordChar c = false
  output : t = .output → rest.head? ≠ some 0x3e

theorem Found.length_lt (h : Found s t rest) : rest.length < s.length := by
  have hle := (dropWhile_suffix isBlank (l := s)).length_le
  have hpos := List.length_pos_iff.mpr (Token.bytes_ne_nil h.valid)
  rw [h.split, length_append] at hle
  omega

/-- **`token`** finds it. -/
theorem Found.token_eq (h : Found s t rest) : token s = (some (t.bytes ++ rest), t.kind, rest) := by
  unfold token
  rw [h.split]
  cases t with
  | pipe => rfl
  | input => rfl
  | append => rfl
  | output =>
    show (if rest.head? = some 0x3e then _ else _) = _
    rw [if_neg (h.output rfl)]
    rfl
  | word w =>
    obtain ⟨hne, hall⟩ := h.valid
    cases w with
    | nil => exact absurd rfl hne
    | cons c w =>
      have hw := hall c mem_cons_self
      have hop := isOperator_of_wordChar hw
      simp only [isOperator, Bool.or_eq_false_iff, beq_eq_false_iff_ne, ne_eq] at hop
      simp only [Token.bytes, Token.kind, cons_append, if_neg (ne_zero_of_wordChar hw),
        if_neg hop.1.1, if_neg hop.1.2, if_neg hop.2, Prod.mk.injEq, true_and]
      rw [← cons_append, dropWhile_append_of_pos hall]
      cases rest with
      | nil => rfl
      | cons d rest => simp [h.word rfl d rfl]

/-- A line is over, or it has a next token. -/
theorem found_or_end (s : List UInt8) :
    ((s.dropWhile isBlank = [] ∨ (s.dropWhile isBlank).head? = some 0) ∧ (token s).1 = none) ∨
      ∃ t rest, Found s t rest := by
  cases hs : s.dropWhile isBlank with
  | nil => exact .inl ⟨.inl rfl, by simp [token, hs]⟩
  | cons c p =>
    have hnb : isBlank c = false := by
      have := head?_dropWhile_not isBlank s
      rw [hs] at this
      simpa using this
    rcases char_cases c with rfl | hb | (rfl | rfl | rfl) | hw
    · exact .inl ⟨.inr rfl, by simp [token, hs]⟩
    · rw [hb] at hnb
      cases hnb
    · exact .inr ⟨.pipe, p, trivial, hs, by simp [Token.kind], by simp⟩
    · exact .inr ⟨.input, p, trivial, hs, by simp [Token.kind], by simp⟩
    · by_cases hd : p.head? = some 0x3e
      · obtain ⟨q, rfl⟩ := List.head?_eq_some_iff.mp hd
        exact .inr ⟨.append, q, trivial, hs, by simp [Token.kind], by simp⟩
      · exact .inr ⟨.output, p, trivial, hs, by simp [Token.kind], fun _ => hd⟩
    refine .inr ⟨.word ((c :: p).takeWhile isWordChar), (c :: p).dropWhile isWordChar,
      ⟨?_, ?_⟩, ?_, ?_, by simp⟩
    · simp [hw]
    · exact fun d hd => mem_takeWhile_imp hd
    · rw [hs]
      exact List.takeWhile_append_dropWhile.symm
    · intro _ d hd
      have := head?_dropWhile_not isWordChar (c :: p)
      rw [Option.mem_def.mp hd] at this
      simpa using this

/-! ## The tokens of a line -/

/-- The calls of `token` from here to the end of the line. -/
def tokens (s : List UInt8) : List Token :=
  match _h : token s with
  | (none, _, _) => []
  | (some p, kind, rest) => kind.token (p.take (p.length - rest.length)) :: tokens rest
termination_by s.length
decreasing_by
  rcases found_or_end s with ⟨-, hnone⟩ | ⟨t, rest', hf⟩
  · rw [_h] at hnone
    cases hnone
  rw [hf.token_eq] at _h
  cases _h
  exact hf.length_lt

theorem Kind.token_bytes (t : Token) : t.kind.token t.bytes = t := by
  cases t <;> rfl

theorem tokens_of_end (h : (token s).1 = none) : tokens s = [] := by
  rw [tokens]
  split
  · rfl
  next heq =>
  rw [heq] at h
  cases h

theorem tokens_of_found (h : Found s t rest) : tokens s = t :: tokens rest := by
  rw [tokens]
  split
  · next heq =>
    rw [h.token_eq] at heq
    cases heq
  next heq =>
  rw [h.token_eq] at heq
  cases heq
  have htake : (t.bytes ++ rest).take ((t.bytes ++ rest).length - rest.length) = t.bytes := by
    rw [length_append, Nat.add_sub_cancel, take_left']
    rfl
  rw [htake, Kind.token_bytes]

theorem tokens_valid (s : List UInt8) : ∀ t ∈ tokens s, t.Valid := by
  induction hn : s.length using Nat.strong_induction_on generalizing s with
  | _ n ih =>
    subst hn
    rcases found_or_end s with ⟨-, hnone⟩ | ⟨t, rest, hf⟩
    · simp [tokens_of_end hnone]
    · rw [tokens_of_found hf]
      simpa using ⟨hf.valid, ih rest.length hf.length_lt rest rfl⟩

/-! ## Printing -/

/-- Two tokens that would run together without a blank. -/
def Glues : Token → Option Token → Prop
  | .word _, some (.word _) => True
  | .output, some .output => True
  | .output, some .append => True
  | _, _ => False

/-- `s` is these tokens printed, with blanks around them. -/
inductive Renders : List Token → List UInt8 → Prop
  | nil {b : List UInt8} : (∀ c ∈ b, isBlank c = true) → Renders [] b
  | cons {t : Token} {ts : List Token} {b s : List UInt8} : (∀ c ∈ b, isBlank c = true) → t.Valid →
      (Glues t ts.head? → ∃ c ∈ s.head?, isBlank c = true) → Renders ts s →
      Renders (t :: ts) (b ++ (t.bytes ++ s))

/-- The first byte of a token. -/
theorem Token.head_bytes (h : t.Valid) : ∃ c q, t.bytes = c :: q ∧ c ≠ 0 ∧ isBlank c = false ∧
    (isWordChar c = true ↔ t.kind = .word) ∧ (c = 0x3e ↔ t = .output ∨ t = .append) := by
  cases t with
  | word w =>
    obtain ⟨hne, hall⟩ := h
    obtain ⟨c, q, rfl⟩ := exists_cons_of_ne_nil hne
    have hw := hall c mem_cons_self
    refine ⟨c, q, rfl, ne_zero_of_wordChar hw, isBlank_of_wordChar hw, by simp [hw, Token.kind], ?_⟩
    simp only [reduceCtorEq, or_self, iff_false]
    rintro rfl
    cases hw
  | pipe => exact ⟨_, _, rfl, by decide, by decide, by decide, by decide⟩
  | input => exact ⟨_, _, rfl, by decide, by decide, by decide, by decide⟩
  | output => exact ⟨_, _, rfl, by decide, by decide, by decide, by decide⟩
  | append => exact ⟨_, _, rfl, by decide, by decide, by decide, by decide⟩

/-- A token glues to the next one if its end and the start of the next would be
read as one. -/
theorem glues_iff {t' : Token} : Glues t (some t') ↔
    t.kind = .word ∧ t'.kind = .word ∨ t = .output ∧ (t' = .output ∨ t' = .append) := by
  cases t <;> cases t' <;> simp [Glues, Token.kind]

/-- A printed line starts with a blank or with its first token. -/
theorem Renders.head (h : Renders ts s) (hc : c ∈ s.head?) :
    isBlank c = true ∨ ∃ t ts', ts = t :: ts' ∧ t.Valid ∧ c ∈ t.bytes.head? := by
  cases h with
  | nil hb => exact .inl (hb c (mem_of_mem_head? hc))
  | @cons t ts b s hb hv hg hr =>
    cases b with
    | cons d b =>
      obtain rfl : d = c := by simpa using hc
      exact .inl (hb d mem_cons_self)
    | nil =>
      refine .inr ⟨t, ts, rfl, hv, ?_⟩
      obtain ⟨d, q, hq, -⟩ := Token.head_bytes hv
      rw [hq] at hc ⊢
      exact hc

theorem dropWhile_blanks {b : List UInt8} (hb : ∀ c ∈ b, isBlank c = true) (hv : t.Valid)
    (s : List UInt8) : (b ++ (t.bytes ++ s)).dropWhile isBlank = t.bytes ++ s := by
  obtain ⟨c, q, hq, -, hnb, -⟩ := Token.head_bytes hv
  rw [dropWhile_append_of_pos hb, hq, cons_append, dropWhile_cons_of_neg (by simp [hnb])]

/-- **What is printed is read back.** -/
theorem Renders.tokens_eq (h : Renders ts s) : tokens s = ts := by
  induction h with
  | nil hb =>
    refine tokens_of_end ?_
    rw [token, List.dropWhile_eq_nil_iff.mpr hb]
  | @cons t ts b s hb hv hg hr ih =>
    -- the byte behind the token does not belong to it
    have hnext : ∀ c ∈ s.head?, isBlank c = true ∨ ∃ t', t'.Valid ∧ ¬Glues t (some t') ∧
        c ∈ t'.bytes.head? := by
      intro c hc
      rcases hr.head hc with hblank | ⟨t', ts', rfl, hv', hc'⟩
      · exact .inl hblank
      by_cases hgl : Glues t (some t')
      · obtain ⟨d, hd, hblank⟩ := hg hgl
        rw [Option.mem_unique hc hd]
        exact .inl hblank
      · exact .inr ⟨t', hv', hgl, hc'⟩
    have hfound : Found (b ++ (t.bytes ++ s)) t s := by
      refine ⟨hv, dropWhile_blanks hb hv s, fun hk c hc => ?_, fun ht hc => ?_⟩
      · rcases hnext c hc with hblank | ⟨t', hv', hgl, hc'⟩
        · exact isWordChar_of_blank hblank
        · obtain ⟨d, q, hq, -, -, hword, -⟩ := Token.head_bytes hv'
          rw [hq] at hc'
          obtain rfl : d = c := by simpa using hc'
          rw [Bool.eq_false_iff, ne_eq, hword]
          exact fun hk' => hgl (glues_iff.mpr (.inl ⟨hk, hk'⟩))
      · rcases hnext _ hc with hblank | ⟨t', hv', hgl, hc'⟩
        · cases hblank
        · obtain ⟨d, q, hq, -, -, -, hout⟩ := Token.head_bytes hv'
          rw [hq] at hc'
          have hd : d = 0x3e := by simpa using hc'
          exact hgl (glues_iff.mpr (.inr ⟨ht, hout.mp hd⟩))
    rw [tokens_of_found hfound, ih]

/-- Everything can be printed. -/
theorem exists_renders (h : ∀ t ∈ ts, t.Valid) :
    ∃ s, Renders ts s ∧ ∃ c ∈ s.head?, isBlank c = true := by
  induction ts with
  | nil => exact ⟨[0x20], .nil (by simp [isBlank]), 0x20, rfl, rfl⟩
  | cons t ts ih =>
    obtain ⟨s, hr, hblank⟩ := ih fun t' ht' => h t' (mem_cons_of_mem _ ht')
    exact ⟨[0x20] ++ (t.bytes ++ s), .cons (by simp [isBlank]) (h t mem_cons_self)
      (fun _ => hblank) hr, 0x20, rfl, rfl⟩

end MiniCore.Shell
