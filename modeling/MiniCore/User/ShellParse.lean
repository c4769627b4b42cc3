import Mathlib.Algebra.Order.BigOperators.Group.List
import Mathlib.Data.List.Forall2
import MiniCore.User.Shell

/-!
# MiniCore.User.ShellParse

What the parsing part of `run` (`user/sh.c`) does to every line that the shell
reads.

The arrays of the loop represent stages: `Points` for a pointer into the storage,
`Shows` for a command, `Holds` for the whole state.  A word goes behind the used
part of the storage, so what is represented stays (`Points.store`), and each turn
of the loop is a step of `parseTokens` (`parseLoop_refines`).
-/

namespace MiniCore.Shell

open List

variable {words w : List UInt8} {s s' : Parser} {c : Command} {cur : Stage} {prev : List Stage}

/-! ## What the arrays represent -/

/-- The string `w` with its terminator is in the used part of the storage, at `v`. -/
structure Points (words : List UInt8) (used v : Nat) (w : List UInt8) : Prop where
  below : v + w.length < used
  bytes : (words.drop v).take (w.length + 1) = w ++ [0]
  nonzero : 0 ∉ w

/-- A command with its pointers, and the stage it is; its argument array is zero
behind the arguments. -/
structure Shows (words : List UInt8) (used : Nat) (c : Command) (st : Stage) : Prop where
  argc : c.argc = st.argv.length
  room : c.argc ≤ maxArgs
  argv : ∃ vs : List Nat, c.argv = vs.map some ++ replicate (maxArgs + 1 - c.argc) none ∧
    Forall₂ (Points words used) vs st.argv
  input : Option.Rel (Points words used) c.input st.input
  output : Option.Rel (Points words used) c.output st.output
  append : c.append = st.append

/-- The state of the loop in the stage `cur`, behind the stages `prev`. -/
structure Holds (s : Parser) (prev : List Stage) (cur : Stage) : Prop where
  words : s.words.length = lineSize
  count : s.count = prev.length + 1
  room : s.count ≤ maxCommands
  commands : ∃ done c, s.commands = done ++ c :: replicate (maxCommands - s.count) .zero ∧
    Forall₂ (Shows s.words s.used) done prev ∧ Shows s.words s.used c cur

section Arrays

variable {used v : Nat} {c' : Command} {st : Stage}

theorem Points.stringAt_eq (h : Points words used v w) : stringAt words v = w := by
  rw [stringAt, ← take_append_drop (w.length + 1) (words.drop v), h.bytes, append_assoc,
    takeWhile_append_of_pos]
  · simp
  intro x hx
  rw [bne_iff_ne]
  rintro rfl
  exact h.nonzero hx

theorem Parser.store_eq_some (h : s.store w = some s') : s.used + w.length + 1 ≤ s.words.length ∧
    s' = { s with
      words := s.words.take s.used ++ (w ++ 0 :: s.words.drop (s.used + w.length + 1))
      used := s.used + w.length + 1 } := by
  rw [Parser.store, Option.ite_none_right_eq_some] at h
  exact ⟨h.1, (Option.some.inj h.2).symm⟩

/-- A stored word does not touch the words before it. -/
theorem Points.store {w' : List UInt8} (h : Points s.words s.used v w)
    (hstore : s.store w' = some s') : Points s'.words s'.used v w := by
  obtain ⟨hle, rfl⟩ := Parser.store_eq_some hstore
  have hbelow := h.below
  refine ⟨by simp only; omega, ?_, h.nonzero⟩
  -- both are the same front
  have hfront : ∀ l : List UInt8, (l.drop v).take (w.length + 1) = ((l.take s.used).drop v).take
      (w.length + 1) := by
    intro l
    rw [drop_take, take_take, Nat.min_eq_left (by omega)]
  rw [hfront, take_left' (by simp; omega), ← hfront, h.bytes]

theorem points_store (hw : 0 ∉ w) (hstore : s.store w = some s') :
    Points s'.words s'.used s.used w := by
  obtain ⟨hle, rfl⟩ := Parser.store_eq_some hstore
  refine ⟨by simp only; omega, ?_, hw⟩
  rw [drop_left' (by simp; omega), ← singleton_append, ← append_assoc, take_left' (by simp)]

theorem Shows.store {w' : List UInt8} (h : Shows s.words s.used c st)
    (hstore : s.store w' = some s') : Shows s'.words s'.used c st := by
  have hrel : ∀ {a b}, Option.Rel (Points s.words s.used) a b →
      Option.Rel (Points s'.words s'.used) a b := by
    intro a b hab
    cases hab with
    | none => exact .none
    | some hp => exact .some (hp.store hstore)
  obtain ⟨vs, hargv, hvs⟩ := h.argv
  exact ⟨h.argc, h.room, ⟨vs, hargv, hvs.imp fun _ _ hp => hp.store hstore⟩, hrel h.input,
    hrel h.output, h.append⟩

theorem shows_zero : Shows words used .zero .empty where
  argc := rfl
  room := Nat.zero_le _
  argv := ⟨[], rfl, .nil⟩
  input := .none
  output := .none
  append := rfl

theorem Shows.stage_eq (h : Shows words used c st) : c.stage words = st := by
  have hstrings : ∀ {vs : List Nat} {ws}, Forall₂ (Points words used) vs ws →
      (vs.map some).filterMap (fun v => v.map (stringAt words)) = ws := by
    intro vs ws hvs
    induction hvs with
    | nil => rfl
    | cons hp _ ih => simp [hp.stringAt_eq, ← ih]
  have hrel : ∀ {a b}, Option.Rel (Points words used) a b → a.map (stringAt words) = b := by
    intro a b hab
    cases hab with
    | none => rfl
    | some hp => simp [hp.stringAt_eq]
  obtain ⟨vs, hargv, hvs⟩ := h.argv
  have hlen : c.argc = vs.length := h.argc.trans hvs.length_eq.symm
  rw [Command.stage, hrel h.input, hrel h.output, h.append, hargv, take_left' (by simp [hlen]),
    hstrings hvs]

/-- **One word**: the stage takes it, or it is the ninth argument. -/
theorem Shows.add (h : Shows words used c st) {redirect : Kind} (hp : Points words used v w)
    (hpipe : redirect ≠ .pipe) :
    if redirect = .word ∧ st.argv.length = maxArgs then c.add redirect v = .error
    (.refused .tooManyArguments)
    else ∃ c', c.add redirect v = .ok c' ∧ Shows words used c' (st.add redirect w) := by
  cases redirect with
  | pipe => exact absurd rfl hpipe
  | input => exact ⟨_, rfl, { h with input := .some hp }⟩
  | output => exact ⟨_, rfl, { h with output := .some hp, append := rfl }⟩
  | append => exact ⟨_, rfl, { h with output := .some hp, append := rfl }⟩
  | word =>
    have hroom := h.room
    obtain ⟨vs, hargv, hvs⟩ := h.argv
    have hlen : c.argc = vs.length := h.argc.trans hvs.length_eq.symm
    simp only [true_and, Command.add, ← h.argc]
    split
    · rfl
    next hne =>
    have hlt : c.argc < c.argv.length := by
      rw [hargv, length_append, length_map, length_replicate]
      omega
    rw [if_pos hlt]
    refine ⟨_, rfl, { h with argc := ?_, room := ?_, argv := ?_ }⟩
    · simp [Stage.add, h.argc]
    · simp only
      omega
    have hnone : maxArgs + 1 - c.argc = maxArgs + 1 - (c.argc + 1) + 1 := by omega
    refine ⟨vs ++ [v], ?_, rel_append hvs (.cons hp .nil)⟩
    rw [hargv, set_append_right _ _ (by simp [hlen]), hnone, replicate_succ]
    simp [hlen]

end Arrays

/-! ## The loop -/

section Loop

variable {cursor rest : List UInt8} {t : Token}

theorem holds_init (words : List UInt8) (h : words.length = lineSize) :
    Holds ⟨replicate maxCommands .zero, 1, words, 0⟩ [] .empty :=
  ⟨h, rfl, Nat.le_add_left _ _, [], .zero, rfl, .nil, shows_zero⟩

section

variable (h : Holds s prev cur)

include h

theorem Holds.command : ∃ c, s.commands[s.count - 1]? = some c ∧ Shows s.words s.used c cur := by
  obtain ⟨done, c, heq, hdone, hc⟩ := h.commands
  have hlen : s.count - 1 = done.length := by rw [h.count, hdone.length_eq, Nat.add_sub_cancel]
  exact ⟨c, by simp [heq, hlen], hc⟩

/-- The stages that the commands of a state are. -/
theorem Holds.stages_eq :
    (s.commands.take s.count).map (Command.stage s.words) = prev ++ [cur] := by
  have hmap : ∀ {cs sts}, Forall₂ (Shows s.words s.used) cs sts →
      cs.map (Command.stage s.words) = sts := by
    intro cs sts hcs
    induction hcs with
    | nil => rfl
    | cons hshows _ ih => simp [hshows.stage_eq, ih]
  obtain ⟨done, c, heq, hdone, hc⟩ := h.commands
  have hlen : s.count = (done ++ [c]).length := by simp [h.count, hdone.length_eq]
  rw [heq, append_cons, take_left' hlen.symm, hmap (rel_append hdone (.cons hc .nil))]

/-- The next stage begins. -/
theorem Holds.next (hlt : s.count < maxCommands) :
    Holds { s with count := s.count + 1 } (prev ++ [cur]) .empty := by
  obtain ⟨done, c, heq, hdone, hc⟩ := h.commands
  have hzero : maxCommands - s.count = maxCommands - (s.count + 1) + 1 := by omega
  refine ⟨h.words, by simp [h.count], hlt, done ++ [c], .zero, ?_,
    rel_append hdone (.cons hc .nil), shows_zero⟩
  rw [heq, hzero, replicate_succ, append_assoc, singleton_append]

/-- The current command is replaced, and a word is stored. -/
theorem Holds.store (hstore : s.store w = some s') {st : Stage} (hc : Shows s'.words s'.used c st) :
    Holds { s' with commands := s'.commands.set (s.count - 1) c } prev st := by
  obtain ⟨done, c0, heq, hdone, -⟩ := h.commands
  have hlen : s.count - 1 = done.length := by rw [h.count, hdone.length_eq, Nat.add_sub_cancel]
  have hkept := hdone.imp fun _ _ hd => Shows.store hd hstore
  obtain ⟨hle, rfl⟩ := Parser.store_eq_some hstore
  refine ⟨?_, h.count, h.room, done, c, ?_, hkept, hc⟩
  · rw [← h.words]
    simp
    omega
  · simp [heq, hlen]

end

theorem parseLoop_end (h : (token cursor).1 = none) : parseLoop s cursor = .ok s := by
  rw [parseLoop]
  split
  · rfl
  next heq =>
  rw [heq] at h
  cases h

/-- **One turn of the loop**, with the next token at hand. -/
theorem parseLoop_found (hf : Found cursor t rest) (hc : s.commands[s.count - 1]? = some c) :
    parseLoop s cursor =
      if t.kind = .pipe then
        if c.argc = 0 then .error (.refused .noArguments)
        else if s.count = maxCommands then .error (.refused .tooManyStages)
        else parseLoop { s with count := s.count + 1 } rest
      else
        match operand t.kind (t.bytes ++ rest) rest with
        | none => .error (.refused .noWord)
        | some (word, rest) =>
          let n := word.length - rest.length
          if lineSize < s.used + n + 1 then .error (.refused .noRoom)
          else
            match s.store (word.take n) with
            | none => .error .fault
            | some s' => (c.add t.kind s.used).bind fun c =>
              parseLoop { s' with commands := s'.commands.set (s.count - 1) c } rest := by
  rw [parseLoop]
  split
  · next heq =>
    rw [hf.token_eq] at heq
    cases heq
  next heq =>
  rw [hf.token_eq] at heq
  cases heq
  simp only [hc]
  rcases operand t.kind (t.bytes ++ rest) rest with _ | ⟨word, rest'⟩
  · rfl
  · cases c.add t.kind s.used <;> rfl

theorem parseLoop_word {rest' : List UInt8} (hf : Found cursor t rest) (hpipe : t.kind ≠ .pipe)
    (hop : operand t.kind (t.bytes ++ rest) rest = some (w ++ rest', rest'))
    (hc : s.commands[s.count - 1]? = some c) (hroom : s.used + w.length + 1 ≤ lineSize)
    (hstore : s.store w = some s') : parseLoop s cursor =
      (c.add t.kind s.used).bind fun c =>
        parseLoop { s' with commands := s'.commands.set (s.count - 1) c } rest' := by
  have hlen : (w ++ rest').length - rest'.length = w.length := by simp
  simp only [parseLoop_found hf hc, if_neg hpipe, hop, hlen, if_neg (Nat.not_lt.mpr hroom),
    take_left' rfl, hstore]

theorem operand_end {kind : Kind} (hkind : kind ≠ .word) (h : (token rest).1 = none)
    (word : List UInt8) : operand kind word rest = none := by
  unfold operand
  rw [if_neg hkind]
  split
  · next heq =>
    rw [heq] at h
    cases h
  · rfl

theorem operand_found {kind : Kind} (hkind : kind ≠ .word) (hf : Found cursor t rest)
    (word : List UInt8) :
    operand kind word cursor = if t.kind = .word then some (t.bytes ++ rest, rest) else none := by
  unfold operand
  rw [if_neg hkind, hf.token_eq]
  cases t.kind <;> rfl

/-- What the loop returns, and what the line is. -/
inductive Agrees : Except Failure Parser → Option (List Stage) → Prop
  | ok {s : Parser} {prev : List Stage} {cur : Stage} :
  Holds s prev cur → Agrees (.ok s) (some (prev ++ [cur]))
  | refused {why : Refusal} : why ≠ .noRoom → Agrees (.error (.refused why)) none

/-- A turn of the loop that stores a word. -/
theorem Holds.word (h : Holds s prev cur) {rest' : List UInt8} (hf : Found cursor t rest)
    (hpipe : t.kind ≠ .pipe)
    (hop : operand t.kind (t.bytes ++ rest) rest = some (w ++ rest', rest'))
    (hw : (Token.word w).Valid)
    (hroom : s.used + (w.length + 1 + wordsSize (tokens rest')) ≤ lineSize)
    (ih : ∀ {s' : Parser} {st : Stage}, Holds s' prev st →
      s'.used + wordsSize (tokens rest') ≤ lineSize →
      Agrees (parseLoop s' rest') (parseTokens (tokens rest') prev st)) :
    Agrees (parseLoop s cursor)
      (if t.kind = .word ∧ cur.argv.length = maxArgs then none
       else parseTokens (tokens rest') prev (cur.add t.kind w)) := by
  obtain ⟨c, hc, hshows⟩ := h.command
  have hfit : s.used + w.length + 1 ≤ s.words.length := by
    rw [h.words]
    omega
  obtain ⟨s', hstore⟩ : ∃ s', s.store w = some s' := ⟨_, if_pos hfit⟩
  have hused : s'.used = s.used + w.length + 1 := by rw [(Parser.store_eq_some hstore).2]
  have hzero : 0 ∉ w := fun h0 => ne_zero_of_wordChar (hw.2 0 h0) rfl
  have hadd := (hshows.store hstore).add (points_store hzero hstore) hpipe
  rw [parseLoop_word hf hpipe hop hc (by omega) hstore]
  split at hadd
  · next hfull =>
    rw [hadd, if_pos hfull]
    exact .refused (by decide)
  next hfull =>
  obtain ⟨c', hc', hshows'⟩ := hadd
  rw [hc', if_neg hfull]
  exact ih (h.store hstore hshows') (by simp only; omega)

/-- **The loop is the parser of tokens**, while the words fit into the storage. -/
theorem parseLoop_refines (h : Holds s prev cur)
    (hroom : s.used + wordsSize (tokens cursor) ≤ lineSize) :
    Agrees (parseLoop s cursor) (parseTokens (tokens cursor) prev cur) := by
  induction hn : cursor.length using Nat.strong_induction_on generalizing cursor s prev cur with
  | _ n ih =>
    subst hn
    rcases found_or_end cursor with ⟨-, hnone⟩ | ⟨t, rest, hf⟩
    · rw [parseLoop_end hnone, tokens_of_end hnone]
      exact .ok h
    rw [tokens_of_found hf] at hroom ⊢
    have hlt := hf.length_lt
    obtain ⟨c, hc, hshows⟩ := h.command
    by_cases hpipe : t.kind = .pipe
    · rw [parseLoop_found hf hc, if_pos hpipe]
      cases t <;> simp only [Token.kind, reduceCtorEq] at hpipe
      rw [parseTokens, hshows.argc, ← h.count]
      by_cases hnil : cur.argv = []
      · simpa [hnil] using Agrees.refused (by decide)
      by_cases hfull : s.count = maxCommands
      · simpa [hnil, hfull] using Agrees.refused (by decide)
      · have hcount := h.room
        simpa [hnil, hfull] using ih rest.length hlt (h.next (by omega)) hroom rfl
    by_cases hword : t.kind = .word
    · cases t <;> simp only [Token.kind, reduceCtorEq] at hword
      rename_i w
      have := h.word hf hpipe (if_pos rfl) hf.valid hroom fun hs' hroom' => ih rest.length hlt
        hs' hroom' rfl
      simpa [Token.kind, Token.bytes, parseTokens] using this
    -- a redirection, and what is behind it
    have hnotPipe : t = .pipe → False := fun heq => hpipe (heq ▸ rfl)
    have hnotWord : ∀ w, t = .word w → False := fun w heq => hword (heq ▸ rfl)
    have hroom' : s.used + wordsSize (tokens rest) ≤ lineSize := by
      cases t <;> simp_all [wordsSize]
    rcases found_or_end rest with ⟨-, hnone⟩ | ⟨t', rest', hf'⟩
    · rw [parseLoop_found hf hc, if_neg hpipe, operand_end hword hnone, tokens_of_end hnone,
        parseTokens_dangling hnotPipe hnotWord (by simp)]
      exact .refused (by decide)
    have hop := operand_found hword hf' (t.bytes ++ rest)
    rw [tokens_of_found hf'] at hroom' ⊢
    by_cases hword' : t'.kind = .word
    · cases t' <;> simp only [Token.kind, reduceCtorEq] at hword'
      rename_i w
      have := h.word hf hpipe hop hf'.valid hroom' fun hs' hroom' =>
        ih rest'.length (Nat.lt_trans hf'.length_lt hlt) hs' hroom' rfl
      rw [parseTokens_redirect hnotPipe hnotWord]
      simpa [hword, Token.bytes] using this
    · rw [if_neg hword'] at hop
      rw [parseLoop_found hf hc, if_neg hpipe, hop, parseTokens_dangling hnotPipe hnotWord ?_]
      · exact .refused (by decide)
      intro w ts' heq
      obtain rfl := (List.cons.inj heq).1
      exact hword' rfl

end Loop

/-! ## The lines of the shell -/

/-- The line of `sh -c`. -/
def commandLine (arg : List UInt8) : Option (List UInt8) :=
  if lineSize ≤ arg.length then none else some arg

/-- The lines that `main` gives to `run` from its standard input; `line` is the
part that is read of the current one.  A line that is too long ends the shell. -/
def stdinLines (line : List UInt8) : List UInt8 → List (List UInt8)
  | [] => if line = [] then [] else [line]
  | c :: input =>
    if c = 0x0a ∨ c = 0x0d then
      if line = [] then stdinLines [] input else line :: stdinLines [] input
    else if line.length + 1 < lineSize then stdinLines (line ++ [c]) input
    else []

theorem length_commandLine {arg line : List UInt8} (h : commandLine arg = some line) :
    line.length < lineSize := by
  simp only [commandLine, Option.ite_none_left_eq_some, Option.some.injEq] at h
  rw [← h.2]
  omega

theorem length_stdinLines {line : List UInt8} (input : List UInt8) (h : line.length < lineSize) :
    ∀ l ∈ stdinLines line input, l.length < lineSize := by
  fun_induction stdinLines line input with
  | case1 => simp
  | case2 line hne => simpa using h
  | case3 c input hend ih => exact ih h
  | case4 line c input hend hne ih => simpa [h] using ih (by decide)
  | case5 line c input hend hroom ih => exact ih (by simpa using hroom)
  | case6 => simp

section Laws

variable {words' line : List UInt8} {stages : List Stage}

theorem wordsSize_line (h : line.length < lineSize) : wordsSize (tokens line) ≤ lineSize :=
  Nat.le_trans (wordsSize_tokens line).1 h

/-- **What the parsing part of `run` comes to**, on the tokens of the line. -/
theorem parse_cases (hwords : words.length = lineSize) (hfit : wordsSize (tokens line) ≤ lineSize) :
    (parseTokens (tokens line) [] .empty = none ∧ ∃ why, why ≠ .noRoom ∧
      parse words line = .refused why) ∨
      ∃ prev cur, parseTokens (tokens line) [] .empty = some (prev ++ [cur]) ∧
        parse words line =
          if cur.argv = [] then if prev = [] then .nothing else .refused .lastEmpty
          else .pipeline (prev ++ [cur]) := by
  have hagrees := parseLoop_refines (holds_init words hwords) (by simpa using hfit)
  unfold parse
  generalize parseLoop _ line = r at hagrees ⊢
  generalize parseTokens (tokens line) [] .empty = p at hagrees ⊢
  cases hagrees with
  | refused hwhy => exact .inl ⟨rfl, _, hwhy, rfl⟩
  | @ok s prev cur hs =>
    refine .inr ⟨prev, cur, rfl, ?_⟩
    obtain ⟨c, hc, hshows⟩ := hs.command
    have hcount : s.count = 1 ↔ prev = [] := by
      rw [hs.count]
      simp
    simp only [hc, hshows.argc, length_eq_zero_iff, hs.stages_eq, hcount]

/-- A pipeline is a line of stages with arguments. -/
theorem parse_eq_pipeline (hwords : words.length = lineSize)
    (hfit : wordsSize (tokens line) ≤ lineSize) : parse words line = .pipeline stages ↔
      parseTokens (tokens line) [] .empty = some stages ∧ ∀ st ∈ stages.getLast?, st.argv ≠ [] := by
  rcases parse_cases hwords hfit with ⟨hnone, why, -, hparse⟩ | ⟨prev, cur, hsome, hparse⟩
  · simp [hnone, hparse]
  rw [hsome, hparse]
  by_cases hnil : cur.argv = []
  · rw [if_pos hnil]
    constructor
    · intro h
      split at h <;> cases h
    rintro ⟨heq, hlast⟩
    obtain rfl := Option.some.inj heq
    exact absurd hnil (hlast cur (by simp))
  · rw [if_neg hnil, Outcome.pipeline.injEq, Option.some.injEq, iff_self_and]
    rintro rfl
    simpa using hnil

/-- A line is refused in the loop, or because its last stage is empty. -/
theorem refused_iff {ts : List Token} : Refused ts ↔ parseTokens ts [] .empty = none ∨
    (1 < (operands [] ts).length ∧ ((operands [] ts).map arguments).getLast? = some []) := by
  have hnone := @parseTokens_eq_none ts [] [] (by decide) (by decide)
  rw [show Stage.empty = .of [] from rfl, hnone, length_nil, Nat.zero_add, Refused]
  simp only [or_assoc, length_map]

/-- **Every line** that fits is refused, or its stages are those of its tokens. -/
theorem parse_eq (hwords : words.length = lineSize) (hfit : wordsSize (tokens line) ≤ lineSize) :
    (Refused (tokens line) ∧ ∃ why, why ≠ .noRoom ∧ parse words line = .refused why) ∨
      ¬Refused (tokens line) ∧ parse words line =
        if (operands [] (tokens line)).map arguments = [[]] then .nothing
        else .pipeline ((operands [] (tokens line)).map Stage.of) := by
  rw [refused_iff]
  rcases parse_cases hwords hfit with ⟨hnone, why, hwhy, hparse⟩ | ⟨prev, cur, hsome, hparse⟩
  · exact .inl ⟨.inl hnone, why, hwhy, hparse⟩
  have hstages : prev ++ [cur] = [] ++ (operands [] (tokens line)).map Stage.of :=
    parseTokens_eq_some hsome
  rw [nil_append] at hstages
  have hargs : (operands [] (tokens line)).map arguments = prev.map Stage.argv ++ [cur.argv] := by
    simpa [Function.comp_def, Stage.of] using (congrArg (map Stage.argv) hstages).symm
  have hlen : (operands [] (tokens line)).length = prev.length + 1 := by
    simpa using (congrArg length hstages).symm
  rw [hsome, hparse, hargs, hlen, ← hstages]
  by_cases hnil : cur.argv = [] <;> by_cases hprev : prev = [] <;>
    simp [hnil, hprev, Nat.pos_iff_ne_zero, append_eq_singleton_iff]

/-- What is not refused is within the bounds. -/
theorem inBounds_operands {ts : List Token} (hvalid : ∀ t ∈ ts, t.Valid)
    (hfit : wordsSize ts ≤ lineSize) (h : ¬Refused ts)
    (hne : (operands [] ts).map arguments ≠ [[]]) : InBounds ((operands [] ts).map Stage.of) := by
  simp only [Refused, not_or, not_exists, not_and, Nat.not_lt, length_map] at h
  obtain ⟨hfull, hcount, -, hargs, hlast⟩ := h
  obtain ⟨ops, rest, heq⟩ := operands_head [] ts
  refine ⟨by simp [heq], by simpa using hcount, ?_, ?_, ?_⟩
  · intro st hst
    obtain ⟨o, ho, rfl⟩ := mem_map.mp hst
    have hmem := mem_map_of_mem (f := arguments) ho
    refine ⟨fun hnil : arguments o = [] => ?_, hargs _ hmem⟩
    -- an empty stage would be one before a pipe, the last of several, or the only one
    obtain ⟨a, ha⟩ : ∃ a, ((operands [] ts).map arguments).getLast? = some a :=
      Option.isSome_iff_exists.mp (by simp [heq])
    rw [← dropLast_append_getLast? a ha, mem_append, mem_singleton, hnil] at hmem
    rcases hmem with hmem | rfl
    · exact hfull _ hmem rfl
    by_cases hone : 1 < (operands [] ts).length
    · exact hlast hone ha
    · have hrest : rest = [] := by simpa [heq] using hone
      exact hne (by simpa [heq, hrest] using ha)
  · intro st hst
    obtain ⟨ops, hops, rfl⟩ := mem_map.mp hst
    exact Stage.ok_of fun o ho => hvalid _ ((mem_operands hops ho).resolve_left not_mem_nil)
  · have hsize := @operandsSize_operands ts []
    have hle : ((operands [] ts).map fun ops => (Stage.of ops).size).sum ≤
      ((operands [] ts).map operandsSize).sum :=
      List.sum_le_sum fun ops _ => Stage.size_of ops
    rw [map_map]
    exact Nat.le_trans hle (by rw [hsize]; simpa [operandsSize] using hfit)

/-- What a line and its parse have to do with each other; `words` is whatever the
storage held before. -/
structure ParseLaws (line : List UInt8) : Prop where
  /-- no index outside an array, and always room for the words -/
  safe : ∀ words, words.length = lineSize → parse words line ≠ .fault ∧
    parse words line ≠ .refused .noRoom
  refuses : ∀ words, words.length = lineSize →
    ((∃ why, parse words line = .refused why) ↔ Refused (tokens line))
  /-- the arguments and the last redirections between the pipes -/
  stages : ∀ words, words.length = lineSize → ¬Refused (tokens line) → parse words line =
    if (operands [] (tokens line)).map arguments = [[]] then .nothing
    else .pipeline ((operands [] (tokens line)).map Stage.of)
  bounds : ∀ words stages, words.length = lineSize → parse words line = .pipeline stages →
    InBounds stages
  /-- the pipeline depends on the tokens only -/
  same : ∀ words words' line', words.length = lineSize → words'.length = lineSize →
    tokens line' = tokens line →
    ∀ stages, parse words line = .pipeline stages ↔ parse words' line' = .pipeline stages

theorem parseLaws_of_fit (hfit : wordsSize (tokens line) ≤ lineSize) : ParseLaws line where
  safe words hwords := by
    rcases parse_eq hwords hfit with ⟨-, why, hwhy, hparse⟩ | ⟨-, hparse⟩
    · simpa [hparse] using hwhy
    · rw [hparse]
      split <;> simp
  refuses words hwords := by
    rcases parse_eq hwords hfit with ⟨href, why, -, hparse⟩ | ⟨hnot, hparse⟩
    · simp [href, hparse]
    · rw [hparse]
      split <;> simp [hnot]
  stages words hwords hnot := ((parse_eq hwords hfit).resolve_left fun h => hnot h.1).2
  bounds words stages hwords hparse := by
    rcases parse_eq hwords hfit with ⟨-, why, -, hwhy⟩ | ⟨hnot, heq⟩
    · rw [hwhy] at hparse
      cases hparse
    rw [heq] at hparse
    split at hparse
    · cases hparse
    next hne =>
    cases hparse
    exact inBounds_operands (tokens_valid line) hfit hnot hne
  same words words' line' hwords hwords' htokens stages := by
    rw [parse_eq_pipeline hwords hfit, parse_eq_pipeline hwords' (by rwa [htokens]), htokens]

/-- A pipeline within the bounds is read back, however it is printed. -/
theorem InBounds.parse_eq (h : InBounds stages) (hwords : words.length = lineSize)
    (hs : Prints stages line) : parse words line = .pipeline stages := by
  have htokens : tokens line = pipelineTokens stages := hs.tokens_eq
  rw [parse_eq_pipeline hwords (by rw [htokens, wordsSize_pipeline]; exact h.size), htokens]
  refine ⟨parseTokens_pipeline h.nonempty h.ok (fun st hst => (h.argv st hst).2)
    (fun st hst => (h.argv st ((dropLast_sublist _).subset hst)).1) (by simpa using h.count), ?_⟩
  exact fun st hst => (h.argv st (mem_of_getLast? hst)).1

/-- **The parser of the shell.**  Every line that `main` gives to `run` has at most
255 bytes; such a line is parsed within the arrays, refused for the five reasons
only, and otherwise its stages are those of its tokens; and every pipeline within
the bounds can be printed and is read back. -/
theorem parseLaws : (∀ line : List UInt8, line.length ≤ 255 → ParseLaws line) ∧
    (∀ arg line, commandLine arg = some line → line.length ≤ 255) ∧
    (∀ input, ∀ line ∈ stdinLines [] input, line.length ≤ 255) ∧
    ∀ stages, InBounds stages → (∃ s, Prints stages s) ∧
      ∀ s words, words.length = lineSize → Prints stages s → parse words s = .pipeline stages := by
  refine ⟨fun line h => parseLaws_of_fit (wordsSize_line (Nat.lt_succ_of_le h)),
    fun arg line h => Nat.le_of_lt_succ (length_commandLine h),
    fun input line h => Nat.le_of_lt_succ (length_stdinLines input (by decide) line h),
    fun stages h => ⟨?_, fun s words hwords hs => h.parse_eq hwords hs⟩⟩
  obtain ⟨s, hs, -⟩ := exists_renders (pipelineTokens_valid h.ok)
  exact ⟨s, hs⟩

/-- `cat<a <b|wc>c>>d e` -/
def sampleLine : List UInt8 :=
  [0x63, 0x61, 0x74, 0x3c, 0x61, 0x20, 0x3c, 0x62, 0x7c, 0x77, 0x63, 0x3e, 0x63, 0x3e, 0x3e,
    0x64, 0x20, 0x65]

theorem sampleLine_parseLaws : sampleLine.length ≤ 255 ∧ ParseLaws sampleLine ∧
    parse (replicate lineSize 0xff) sampleLine =
      .pipeline [⟨[[0x63, 0x61, 0x74]], some [0x62], none, false⟩,
        ⟨[[0x77, 0x63], [0x65]], none, some [0x64], true⟩] :=
  ⟨by decide, parseLaws.1 _ (by decide), by decide +kernel⟩

end Laws

end MiniCore.Shell
