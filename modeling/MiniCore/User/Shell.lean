import Mathlib.Algebra.Order.Ring.Nat
import Mathlib.Data.List.Induction
import MiniCore.User.ShellTokens

/-!
# MiniCore.User.Shell

How the shell parses a line (`user/sh.c`, `run`).

`parseLoop` is the loop of the code with its three arrays: the commands, the
arguments of each, and the storage for the words.  An index outside an array is
the outcome `fault`.  `parseTokens` is the same on the tokens of the line, with
words instead of pointers: what it refuses (`parseTokens_eq_none`), which stages
the others are (`parseTokens_eq_some`), the room that the words take
(`wordsSize_tokens`), and that a printed pipeline is that pipeline
(`parseTokens_pipeline`).
-/

namespace MiniCore.Shell

open List

/-! ## The code -/

/-- `COMMANDS` -/
def maxCommands : Nat := 4

/-- `ARGS` -/
def maxArgs : Nat := 8

/-- `LINE` -/
def lineSize : Nat := 256

/-- `struct command`; a pointer to a word is its index in the storage. -/
structure Command where
  argv : List (Option Nat)
  input : Option Nat
  output : Option Nat
  argc : Nat
  append : Bool
deriving DecidableEq, Repr

def Command.zero : Command := ⟨replicate (maxArgs + 1) none, none, none, 0, false⟩

/-- The locals of `run` that the loop writes. -/
structure Parser where
  commands : List Command
  count : Nat
  words : List UInt8
  used : Nat

/-- The places where `run` returns 2. -/
inductive Refusal where
  | noArguments | tooManyStages | noWord | noRoom | tooManyArguments | lastEmpty
deriving DecidableEq, Repr

inductive Failure where
  /-- an index outside an array -/
  | fault
  | refused (why : Refusal)
deriving DecidableEq, Repr

/-- The copy of a word into the storage, with its terminator. -/
def Parser.store (s : Parser) (w : List UInt8) : Option Parser :=
  if s.used + w.length + 1 ≤ s.words.length then
    some { s with
      words := s.words.take s.used ++ (w ++ 0 :: s.words.drop (s.used + w.length + 1))
      used := s.used + w.length + 1 }
  else none

/-- What a word is to the current command: an operand of `redirect`, or an
argument. -/
def Command.add (c : Command) (redirect : Kind) (value : Nat) : Except Failure Command :=
  match redirect with
  | .input => .ok { c with input := some value }
  | .output => .ok { c with output := some value, append := false }
  | .append => .ok { c with output := some value, append := true }
  | _ =>
    if c.argc = maxArgs then .error (.refused .tooManyArguments)
    else if c.argc < c.argv.length then
      .ok { c with argv := c.argv.set c.argc (some value), argc := c.argc + 1 }
    else .error .fault

/-- The word itself, or the word behind a redirection. -/
def operand (kind : Kind) (word cursor : List UInt8) : Option (List UInt8 × List UInt8) :=
  if kind = .word then some (word, cursor)
  else
    match token cursor with
    | (some word, .word, cursor) => some (word, cursor)
    | _ => none

/-- Each token uses up some of the line; why the loop of `parse` ends. -/
theorem length_lt_of_token {s p rest : List UInt8} {kind : Kind}
    (h : token s = (some p, kind, rest)) : rest.length < s.length := by
  rcases found_or_end s with ⟨-, hnone⟩ | ⟨t, rest', hf⟩
  · rw [h] at hnone
    cases hnone
  rw [hf.token_eq] at h
  cases h
  exact hf.length_lt

theorem length_le_of_operand {word cursor word' cursor' : List UInt8} {kind : Kind}
    (h : operand kind word cursor = some (word', cursor')) : cursor'.length ≤ cursor.length := by
  unfold operand at h
  split at h
  · cases h
    exact Nat.le_refl _
  split at h
  · next heq =>
    cases h
    exact Nat.le_of_lt (length_lt_of_token heq)
  · cases h

/-- The loop of `run`. -/
def parseLoop (s : Parser) (cursor : List UInt8) : Except Failure Parser :=
  match _h : token cursor with
  | (none, _, _) => .ok s
  | (some word, kind, rest) =>
    match s.commands[s.count - 1]? with
    | none => .error .fault
    | some c =>
      if kind = .pipe then
        if c.argc = 0 then .error (.refused .noArguments)
        else if s.count = maxCommands then .error (.refused .tooManyStages)
        else parseLoop { s with count := s.count + 1 } rest
      else
        match _ho : operand kind word rest with
        | none => .error (.refused .noWord)
        | some (word, rest) =>
          let n := word.length - rest.length
          if lineSize < s.used + n + 1 then .error (.refused .noRoom)
          else
            match s.store (word.take n) with
            | none => .error .fault
            | some s' =>
              match c.add kind s.used with
              | .error e => .error e
              | .ok c => parseLoop { s' with commands := s'.commands.set (s.count - 1) c } rest
termination_by cursor.length
decreasing_by
  · exact length_lt_of_token _h
  · exact Nat.lt_of_le_of_lt (length_le_of_operand _ho) (length_lt_of_token _h)

/-- A command with its strings. -/
structure Stage where
  argv : List (List UInt8)
  input : Option (List UInt8)
  output : Option (List UInt8)
  append : Bool
deriving DecidableEq, Repr

/-- The string at an index of the storage. -/
def stringAt (words : List UInt8) (v : Nat) : List UInt8 := (words.drop v).takeWhile (· != 0)

def Command.stage (words : List UInt8) (c : Command) : Stage where
  argv := (c.argv.take c.argc).filterMap fun v => v.map (stringAt words)
  input := c.input.map (stringAt words)
  output := c.output.map (stringAt words)
  append := c.append

/-- What the parsing part of `run` comes to: it returns 2, or 0 if there is
nothing to do, or goes on with a pipeline. -/
inductive Outcome where
  | fault
  | refused (why : Refusal)
  | nothing
  | pipeline (stages : List Stage)
deriving DecidableEq, Repr

/-- The parsing part of `run`; `words` is what the storage held before. -/
def parse (words line : List UInt8) : Outcome :=
  match parseLoop ⟨replicate maxCommands .zero, 1, words, 0⟩ line with
  | .error .fault => .fault
  | .error (.refused why) => .refused why
  | .ok s =>
    match s.commands[s.count - 1]? with
    | none => .fault
    | some c =>
      if c.argc = 0 then if s.count = 1 then .nothing else .refused .lastEmpty
      else .pipeline ((s.commands.take s.count).map (Command.stage s.words))

/-! ## The same on tokens -/

def Stage.empty : Stage := ⟨[], none, none, false⟩

/-- A word in its place; a later redirection replaces an earlier one. -/
def Stage.add (st : Stage) (redirect : Kind) (w : List UInt8) : Stage :=
  match redirect with
  | .input => { st with input := some w }
  | .output => { st with output := some w, append := false }
  | .append => { st with output := some w, append := true }
  | _ => { st with argv := st.argv ++ [w] }

/-- The stages of a line, behind the stages `prev` and the stage `cur` begun; none
if the line is refused. -/
def parseTokens : List Token → List Stage → Stage → Option (List Stage)
  | [], prev, cur => some (prev ++ [cur])
  | .pipe :: ts, prev, cur =>
    if cur.argv = [] ∨ prev.length + 1 = maxCommands then none
      else parseTokens ts (prev ++ [cur]) .empty
  | .word w :: ts, prev, cur =>
    if cur.argv.length = maxArgs then none else parseTokens ts prev (cur.add .word w)
  | t :: .word w :: ts, prev, cur => parseTokens ts prev (cur.add t.kind w)
  | _ :: _, _, _ => none

def Token.isRedirect : Token → Bool
  | .input => true
  | .output => true
  | .append => true
  | _ => false

/-- A redirection that is not followed by a word. -/
def Dangling (ts : List Token) : Prop :=
  ∃ pre t post, ts = pre ++ t :: post ∧ t.isRedirect = true ∧ ∀ w, post.head? ≠ some (.word w)

/-- The words between two pipes, each with the redirection that it stands behind, or
as a word of its own. -/
def operands : List (Kind × List UInt8) → List Token → List (List (Kind × List UInt8))
  | acc, [] => [acc]
  | acc, .pipe :: ts => acc :: operands [] ts
  | acc, .word w :: ts => operands (acc ++ [(.word, w)]) ts
  | acc, t :: .word w :: ts => operands (acc ++ [(t.kind, w)]) ts
  | acc, _ :: ts => operands acc ts

/-- The argument words. -/
def arguments (ops : List (Kind × List UInt8)) : List (List UInt8) :=
  (ops.filter fun o => o.1 = .word).map Prod.snd

/-- The last of the redirections `kinds`. -/
def lastOf (kinds : List Kind) (ops : List (Kind × List UInt8)) : Option (Kind × List UInt8) :=
  (ops.filter fun o => o.1 ∈ kinds).getLast?

/-- The stage with these words. -/
def Stage.of (ops : List (Kind × List UInt8)) : Stage where
  argv := arguments ops
  input := (lastOf [.input] ops).map Prod.snd
  output := (lastOf [.output, .append] ops).map Prod.snd
  append := (lastOf [.output, .append] ops).any fun o => o.1 = .append

/-- The lines that the shell must refuse. -/
def Refused (ts : List Token) : Prop :=
  let args := (operands [] ts).map arguments
  (∃ a ∈ args.dropLast, a = []) ∨ maxCommands < args.length ∨ Dangling ts ∨
    (∃ a ∈ args, maxArgs < a.length) ∨ (1 < args.length ∧ args.getLast? = some [])

section Tokens

variable {ts : List Token} {prev stages : List Stage} {cur : Stage} {acc : List (Kind × List UInt8)}

/-- `Stage.add` is one more operand of the stage. -/
theorem Stage.of_concat {k : Kind} (hk : k ≠ .pipe) (w : List UInt8) :
    Stage.of (acc ++ [(k, w)]) = (Stage.of acc).add k w := by
  cases k <;> simp_all [Stage.of, Stage.add, arguments, lastOf, filter_append]

/-- The first stage goes on from what it has. -/
theorem operands_head (acc : List (Kind × List UInt8)) (ts : List Token) :
    ∃ ops rest, operands acc ts = (acc ++ ops) :: rest := by
  fun_induction operands acc ts with
  | case1 acc => exact ⟨[], [], by simp⟩
  | case2 acc ts ih => exact ⟨[], _, by rw [append_nil]⟩
  | case3 acc w ts ih =>
    obtain ⟨ops, rest, heq⟩ := ih
    exact ⟨_, rest, by rw [heq, append_assoc]⟩
  | case4 acc t w ts hpipe hword ih =>
    obtain ⟨ops, rest, heq⟩ := ih
    exact ⟨_, rest, by rw [heq, append_assoc]⟩
  | case5 acc t ts hpipe hword hno ih => exact ih

theorem arguments_append (ops ops' : List (Kind × List UInt8)) :
    arguments (ops ++ ops') = arguments ops ++ arguments ops' := by
  simp [arguments]

theorem arguments_concat (acc : List (Kind × List UInt8)) (k : Kind) (w : List UInt8) :
    arguments (acc ++ [(k, w)]) = if k = .word then arguments acc ++ [w] else arguments acc := by
  cases k <;> simp [arguments]

section Redirect

variable {t : Token} (hpipe : t = .pipe → False) (hword : ∀ w, t = .word w → False)

include hpipe hword

theorem Token.kind_of_redirect : t.kind ≠ .pipe ∧ t.kind ≠ .word := by
  cases t <;> simp_all [Token.kind]

/-- A redirection takes the word after it. -/
theorem parseTokens_redirect (w : List UInt8) :
    parseTokens (t :: .word w :: ts) prev cur = parseTokens ts prev (cur.add t.kind w) := by
  rw [parseTokens] <;> assumption

/-- A redirection without its word. -/
theorem parseTokens_dangling (hno : ∀ w ts', ts = .word w :: ts' → False) :
    parseTokens (t :: ts) prev cur = none := by
  rw [parseTokens] <;> assumption

theorem Dangling.intro (hno : ∀ w ts', ts = .word w :: ts' → False) : Dangling (t :: ts) := by
  refine ⟨[], t, ts, rfl, by cases t <;> simp_all [Token.isRedirect], fun w hw => ?_⟩
  obtain ⟨ts', rfl⟩ := List.head?_eq_some_iff.mp hw
  exact hno w ts' rfl

end Redirect

/-- Only a redirection can dangle. -/
theorem dangling_cons {t : Token} (h : t.isRedirect = false) :
    Dangling (t :: ts) ↔ Dangling ts := by
  constructor
  · rintro ⟨pre, r, post, heq, hr, hpost⟩
    cases pre with
    | nil =>
      cases heq
      rw [h] at hr
      cases hr
    | cons p pre =>
      cases heq
      exact ⟨pre, r, post, rfl, hr, hpost⟩
  · rintro ⟨pre, r, post, rfl, hr, hpost⟩
    exact ⟨t :: pre, r, post, rfl, hr, hpost⟩

theorem dangling_redirect {t : Token} (w : List UInt8) :
    Dangling (t :: .word w :: ts) ↔ Dangling ts := by
  constructor
  · rintro ⟨pre, r, post, heq, hr, hpost⟩
    cases pre with
    | nil =>
      cases heq
      exact absurd rfl (hpost w)
    | cons p pre =>
      obtain ⟨rfl, htail⟩ := List.cons.inj heq
      have hword : Dangling (.word w :: ts) := ⟨pre, r, post, htail, hr, hpost⟩
      exact (dangling_cons rfl).mp hword
  · rintro ⟨pre, r, post, rfl, hr, hpost⟩
    exact ⟨t :: .word w :: pre, r, post, rfl, hr, hpost⟩

/-- **When the loop refuses**, on the tokens. -/
theorem parseTokens_eq_none (hlen : prev.length < maxCommands)
    (hacc : (arguments acc).length ≤ maxArgs) : parseTokens ts prev (.of acc) = none ↔
      (∃ a ∈ ((operands acc ts).map arguments).dropLast, a = []) ∨
        maxCommands < prev.length + (operands acc ts).length ∨ Dangling ts ∨
        ∃ a ∈ (operands acc ts).map arguments, maxArgs < a.length := by
  fun_induction operands acc ts generalizing prev with
  | case1 acc =>
    have hno : ¬Dangling [] := by
      rintro ⟨pre, t, post, heq, -⟩
      cases pre <;> cases heq
    simp [parseTokens, hno]
    omega
  | case2 acc ts ih =>
    obtain ⟨ops, rest, heq⟩ := operands_head [] ts
    rw [parseTokens, dangling_cons (t := .pipe) rfl]
    have hdl : ((acc :: operands [] ts).map arguments).dropLast =
        arguments acc :: ((operands [] ts).map arguments).dropLast := by
      rw [heq, map_cons, map_cons, dropLast_cons_cons]
    rw [hdl, show (Stage.of acc).argv = arguments acc from rfl]
    have hlong : ¬maxArgs < (arguments acc).length := by omega
    by_cases hnil : arguments acc = []
    · simp [hnil]
    by_cases hfull : prev.length + 1 = maxCommands
    · have hmany : maxCommands < prev.length + (acc :: operands [] ts).length := by
        simp only [heq, length_cons]
        omega
      simp only [hfull, hmany, or_true, if_true, true_or]
    rw [if_neg (not_or.mpr ⟨hnil, hfull⟩)]
    have hroom : (prev ++ [Stage.of acc]).length < maxCommands := by
      rw [length_append, length_singleton]
      omega
    refine (ih hroom (by decide)).trans ?_
    simp only [map_cons, mem_cons, exists_eq_or_imp, hnil, hlong, false_or, length_cons,
      length_append, length_nil]
    rw [Nat.add_right_comm, Nat.add_assoc]
  | case3 acc w ts ih =>
    rw [parseTokens, dangling_cons (t := .word w) rfl, ← Stage.of_concat (by decide)]
    have hadd := arguments_concat acc .word w
    rw [if_pos rfl] at hadd
    split
    · next hfull =>
      obtain ⟨ops, rest, heq⟩ := operands_head (acc ++ [(.word, w)]) ts
      have hfull' : (arguments acc).length = maxArgs := hfull
      have hmany : maxArgs < (arguments (acc ++ [(.word, w)] ++ ops)).length := by
        rw [arguments_append, hadd, length_append, length_append, hfull', length_singleton]
        omega
      simp only [true_iff]
      exact .inr (.inr (.inr ⟨_, by rw [heq]; exact mem_cons_self, hmany⟩))
    · next hroom =>
      have hroom' : (arguments acc).length ≠ maxArgs := hroom
      exact ih hlen (by rw [hadd, length_append, length_singleton]; omega)
  | case4 acc t w ts hpipe hword ih =>
    have hadd := arguments_concat acc t.kind w
    rw [if_neg (Token.kind_of_redirect hpipe hword).2] at hadd
    rw [parseTokens_redirect hpipe hword, ← Stage.of_concat (Token.kind_of_redirect hpipe hword).1,
      dangling_redirect]
    exact ih hlen (hadd ▸ hacc)
  | case5 acc t ts hpipe hword hno ih =>
    simp only [parseTokens_dangling hpipe hword hno, Dangling.intro hpipe hword hno,
      true_or, or_true]

/-- **The stages of an accepted line.** -/
theorem parseTokens_eq_some (h : parseTokens ts prev (.of acc) = some stages) :
    stages = prev ++ (operands acc ts).map Stage.of := by
  fun_induction operands acc ts generalizing prev with
  | case1 acc =>
    cases h
    rfl
  | case2 acc ts ih =>
    rw [parseTokens, Option.ite_none_left_eq_some] at h
    rw [ih h.2, append_assoc, singleton_append, map_cons]
  | case3 acc w ts ih =>
    rw [parseTokens, Option.ite_none_left_eq_some, ← Stage.of_concat (by decide)] at h
    exact ih h.2
  | case4 acc t w ts hpipe hword ih =>
    rw [parseTokens_redirect hpipe hword, ← Stage.of_concat
      (Token.kind_of_redirect hpipe hword).1] at h
    exact ih h
  | case5 acc t ts hpipe hword hno ih =>
    rw [parseTokens_dangling hpipe hword hno] at h
    cases h

/-! ### Room for the words -/

/-- The bytes that the words take with their terminators. -/
def wordsSize : List Token → Nat
  | [] => 0
  | .word w :: ts => w.length + 1 + wordsSize ts
  | _ :: ts => wordsSize ts

def optionSize (w : Option (List UInt8)) : Nat := (w.map fun w => w.length + 1).getD 0

def Stage.size (st : Stage) : Nat :=
  (st.argv.map fun w => w.length + 1).sum + optionSize st.input + optionSize st.output

/-- The bytes of words that are kept or not. -/
def operandsSize (ops : List (Kind × List UInt8)) : Nat := (ops.map fun o => o.2.length + 1).sum

/-- A stage keeps some of its words. -/
theorem Stage.size_of (ops : List (Kind × List UInt8)) :
    (Stage.of ops).size ≤ operandsSize ops := by
  induction ops using List.reverseRecOn with
  | nil => decide
  | append_singleton ops o ih =>
    obtain ⟨k, w⟩ := o
    cases k <;>
      simp [Stage.of, arguments, lastOf, Stage.size, optionSize, operandsSize] at ih ⊢ <;>
      omega

/-- Together the stages' operands are as long as the words of the line. -/
theorem operandsSize_operands :
    ((operands acc ts).map operandsSize).sum = operandsSize acc + wordsSize ts := by
  fun_induction operands acc ts with
  | case1 acc => simp [wordsSize]
  | case2 acc ts ih => simp [ih, wordsSize, operandsSize]
  | case3 acc w ts ih => simp [ih, wordsSize, operandsSize, Nat.add_assoc]
  | case4 acc t w ts hpipe hword ih =>
    cases t <;> simp_all [wordsSize, operandsSize, Nat.add_assoc]
  | case5 acc t ts hpipe hword hno ih =>
    cases t <;> simp_all [wordsSize]

/-- Between two words there is a byte, so the words of a line fit into its length
and one more byte; and into its length if it does not begin with a word. -/
theorem wordsSize_tokens (s : List UInt8) : wordsSize (tokens s) ≤ s.length + 1 ∧
    ((∀ c ∈ s.head?, isWordChar c = false) → wordsSize (tokens s) ≤ s.length) := by
  induction hn : s.length using Nat.strong_induction_on generalizing s with
  | _ n ih =>
    subst hn
    rcases found_or_end s with ⟨-, hnone⟩ | ⟨t, rest, hf⟩
    · rw [tokens_of_end hnone]
      exact ⟨Nat.zero_le _, fun _ => Nat.zero_le _⟩
    obtain ⟨hrest, hrest'⟩ := ih rest.length hf.length_lt rest rfl
    have hlt := hf.length_lt
    rw [tokens_of_found hf]
    cases t with
    | word w =>
      have hsmall := hrest' (hf.word rfl)
      have hle := (dropWhile_suffix isBlank (l := s)).length_le
      rw [hf.split, length_append] at hle
      have hbytes : (Token.word w).bytes = w := rfl
      rw [hbytes] at hle
      rw [wordsSize]
      refine ⟨by omega, fun hhead => ?_⟩
      -- there is a blank before the word
      have hne : s.dropWhile isBlank ≠ s := by
        intro heq
        obtain ⟨c, q, hq, -, -, hword, -⟩ := Token.head_bytes hf.valid
        have hs := hf.split
        rw [heq, hq, cons_append] at hs
        have hfalse := hhead c (by rw [hs]; rfl)
        rw [hword.mpr rfl] at hfalse
        cases hfalse
      have hlt' : (s.dropWhile isBlank).length < s.length := by
        refine Nat.lt_of_le_of_ne (dropWhile_suffix isBlank (l := s)).length_le fun heq => ?_
        exact hne ((dropWhile_suffix isBlank (l := s)).eq_of_length heq)
      rw [hf.split, length_append, hbytes] at hlt'
      omega
    | _ =>
      simp only [wordsSize]
      exact ⟨by omega, fun _ => by omega⟩

/-! ### Printing a pipeline -/

/-- A stage as tokens: its arguments, then its redirections. -/
def Stage.tokens (st : Stage) : List Token :=
  st.argv.map .word ++ ((st.input.map fun w => [.input, .word w]).getD [] ++
    (st.output.map fun w => [if st.append then .append else .output, .word w]).getD [])

def pipelineTokens : List Stage → List Token
  | [] => []
  | [st] => st.tokens
  | st :: sts => st.tokens ++ .pipe :: pipelineTokens sts

/-- `s` is the pipeline printed, with any blanks, or none where none are needed. -/
def Prints (stages : List Stage) (s : List UInt8) : Prop := Renders (pipelineTokens stages) s

/-- What a parsed stage is like. -/
structure Stage.Ok (st : Stage) : Prop where
  append : st.output = none → st.append = false
  argv : ∀ w ∈ st.argv, (Token.word w).Valid
  input : ∀ w ∈ st.input, (Token.word w).Valid
  output : ∀ w ∈ st.output, (Token.word w).Valid

/-- The words of the stages are words of the line. -/
theorem mem_operands {ops : List (Kind × List UInt8)} (h : ops ∈ operands acc ts)
    {o : Kind × List UInt8} (ho : o ∈ ops) : o ∈ acc ∨ .word o.2 ∈ ts := by
  fun_induction operands acc ts with
  | case1 acc => exact .inl (List.mem_singleton.mp h ▸ ho)
  | case2 acc ts ih =>
    rcases List.mem_cons.mp h with rfl | h
    · exact .inl ho
    · exact .inr (mem_cons_of_mem _ ((ih h).resolve_left not_mem_nil))
  | case3 acc w ts ih =>
    rcases ih h with hacc | hts
    · rw [mem_append, mem_singleton] at hacc
      exact hacc.imp_right fun heq : o = (.word, w) => heq ▸ mem_cons_self
    · exact .inr (mem_cons_of_mem _ hts)
  | case4 acc t w ts hpipe hword ih =>
    rcases ih h with hacc | hts
    · rw [mem_append, mem_singleton] at hacc
      exact hacc.imp_right fun heq : o = (t.kind, w) => heq ▸ mem_cons_of_mem _ mem_cons_self
    · exact .inr (mem_cons_of_mem _ (mem_cons_of_mem _ hts))
  | case5 acc t ts hpipe hword hno ih => exact (ih h).imp_right (mem_cons_of_mem _)

theorem mem_of_lastOf {kinds : List Kind} {ops : List (Kind × List UInt8)} {w : List UInt8}
    (h : w ∈ (lastOf kinds ops).map Prod.snd) : ∃ o ∈ ops, o.2 = w := by
  obtain ⟨o, ho, rfl⟩ := Option.map_eq_some_iff.mp h
  exact ⟨o, (mem_filter.mp (mem_of_getLast? ho)).1, rfl⟩

/-- What the parser makes of valid words can be printed again. -/
theorem Stage.ok_of {ops : List (Kind × List UInt8)} (h : ∀ o ∈ ops, (Token.word o.2).Valid) :
    (Stage.of ops).Ok where
  append hnone := by
    rw [Stage.of, Option.map_eq_none_iff] at hnone
    rw [Stage.of, hnone, Option.any_none]
  argv w hw := by
    obtain ⟨o, ho, rfl⟩ := mem_map.mp hw
    exact h o (mem_filter.mp ho).1
  input w hw := by
    obtain ⟨o, ho, rfl⟩ := mem_of_lastOf hw
    exact h o ho
  output w hw := by
    obtain ⟨o, ho, rfl⟩ := mem_of_lastOf hw
    exact h o ho

/-- The pipelines that the shell has room for. -/
structure InBounds (stages : List Stage) : Prop where
  nonempty : stages ≠ []
  count : stages.length ≤ maxCommands
  argv : ∀ st ∈ stages, st.argv ≠ [] ∧ st.argv.length ≤ maxArgs
  ok : ∀ st ∈ stages, st.Ok
  size : (stages.map Stage.size).sum ≤ lineSize

theorem Stage.Ok.valid {st : Stage} (h : st.Ok) : ∀ t ∈ st.tokens, t.Valid := by
  obtain ⟨argv, input, output, append⟩ := st
  obtain ⟨-, hargv, hinput, houtput⟩ := h
  intro t ht
  simp only [Stage.tokens, mem_append, mem_map] at ht
  rcases ht with ⟨w, hw, rfl⟩ | ht | ht
  · exact hargv w hw
  · cases input with
    | none => simp at ht
    | some w =>
      simp only [Option.map_some, Option.getD_some, mem_cons, not_mem_nil, or_false] at ht
      rcases ht with rfl | rfl
      · trivial
      · exact hinput w rfl
  · cases output with
    | none => simp at ht
    | some w =>
      simp only [Option.map_some, Option.getD_some, mem_cons, not_mem_nil, or_false] at ht
      rcases ht with rfl | rfl
      · cases append <;> trivial
      · exact houtput w rfl

theorem pipelineTokens_valid (h : ∀ st ∈ stages, st.Ok) : ∀ t ∈ pipelineTokens stages, t.Valid := by
  fun_induction pipelineTokens stages with
  | case1 => simp
  | case2 st => exact (h st mem_cons_self).valid
  | case3 st sts hcons ih =>
    rw [forall_mem_cons] at h
    simp only [mem_append, mem_cons, or_imp, forall_and, forall_eq]
    exact ⟨h.1.valid, trivial, ih h.2⟩

theorem parseTokens_words (argv : List (List UInt8)) (h : cur.argv.length + argv.length ≤ maxArgs) :
    parseTokens (argv.map .word ++ ts) prev cur = parseTokens ts prev
    { cur with argv := cur.argv ++ argv } := by
  induction argv generalizing cur with
  | nil => simp
  | cons w argv ih =>
    rw [length_cons] at h
    rw [map_cons, cons_append, parseTokens, if_neg (by omega), ih (by simp [Stage.add]; omega)]
    simp [Stage.add]

/-- A printed stage is that stage. -/
theorem parseTokens_stage {st : Stage} (hok : st.Ok) (hlen : st.argv.length ≤ maxArgs) :
    parseTokens (st.tokens ++ ts) prev .empty = parseTokens ts prev st := by
  rw [Stage.tokens, append_assoc, parseTokens_words _ (by simpa [Stage.empty] using hlen)]
  have happ := hok.append
  obtain ⟨argv, input, output, append⟩ := st
  cases input <;> cases output <;> cases append <;> simp_all [Stage.empty, parseTokens,
    Stage.add, Token.kind]

/-- **A printed pipeline is that pipeline.** -/
theorem parseTokens_pipeline (hne : stages ≠ []) (hok : ∀ st ∈ stages, st.Ok)
    (hargs : ∀ st ∈ stages, st.argv.length ≤ maxArgs) (hfull : ∀ st ∈ stages.dropLast, st.argv ≠ [])
    (hlen : prev.length + stages.length ≤ maxCommands) :
    parseTokens (pipelineTokens stages) prev .empty = some (prev ++ stages) := by
  fun_induction pipelineTokens stages generalizing prev with
  | case1 => exact absurd rfl hne
  | case2 st =>
    have := @parseTokens_stage [] prev _ (hok st mem_cons_self) (hargs st mem_cons_self)
    rwa [append_nil] at this
  | case3 st sts hcons ih =>
    rw [forall_mem_cons] at hok hargs
    rw [dropLast_cons_of_ne_nil (by simpa using hcons), forall_mem_cons] at hfull
    have hlt : 0 < sts.length := List.length_pos_iff.mpr (by simpa using hcons)
    rw [length_cons] at hlen
    rw [parseTokens_stage hok.1 hargs.1, parseTokens, if_neg (by simp [hfull.1]; omega),
      ih (by simpa using hcons) hok.2 hargs.2 hfull.2 (by simp; omega)]
    simp

theorem wordsSize_append (ts ts' : List Token) :
    wordsSize (ts ++ ts') = wordsSize ts + wordsSize ts' := by
  induction ts with
  | nil => simp [wordsSize]
  | cons t ts ih => cases t <;> simp [wordsSize, ih, Nat.add_assoc]

theorem wordsSize_stage (st : Stage) : wordsSize st.tokens = st.size := by
  have hargv : ∀ argv : List (List UInt8), wordsSize (argv.map .word) =
      (argv.map fun w => w.length + 1).sum := by
    intro argv
    induction argv with
    | nil => rfl
    | cons w argv ih => simp [wordsSize, ih]
  obtain ⟨argv, input, output, append⟩ := st
  simp only [Stage.tokens, Stage.size, wordsSize_append, hargv, Nat.add_assoc]
  cases input <;> cases output <;> cases append <;> simp [wordsSize, optionSize]

/-- The bytes the printed line needs in the word buffer. -/
theorem wordsSize_pipeline (stages : List Stage) :
    wordsSize (pipelineTokens stages) = (stages.map Stage.size).sum := by
  fun_induction pipelineTokens stages with
  | case1 => rfl
  | case2 st => simp [wordsSize_stage]
  | case3 st sts hcons ih => simp [wordsSize_append, wordsSize, wordsSize_stage, ih]

end Tokens

end MiniCore.Shell
