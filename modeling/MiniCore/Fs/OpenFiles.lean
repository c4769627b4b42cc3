import MiniCore.Fs.File
import MiniCore.Fs.Pipe
import MiniCore.Lib.Bag
import Mathlib.Data.List.Count

/-!
# MiniCore.Fs.OpenFiles

Open file descriptions and their reference counts (`file_new`, `file_get` and
`file_put` of `src/fs/vfs.c`, `pipe_create` and `pipe_release` of
`src/fs/pipe.c`).

Files and pipes are known by the number of their allocation; the entry of a freed
one is empty and is not used again.  `references` is a natural number: a `size_t`
does not overflow before memory for the tables that hold the references runs out.
A pipe's `ends`, which no function reads, are the two files that a successful
`pipe_create` returned.

`TableOk t held` is the invariant, for the bag `held` of all references that
somebody holds: `file_new` and `file_get` add one to the bag, `file_put` takes
one away.
-/

namespace MiniCore

open Lib List

variable {t : FileTable} {f : Nat} {file : OpenFile} {held : Multiset Nat}

/-- `struct file` without node and offset; `pipe` is `private`. -/
structure OpenFile where
  ops : FileOps
  flags : Nat
  pipe : Option Nat
  references : Nat
deriving DecidableEq, Repr

structure PipeSlot where
  pipe : Option Pipe
  ends : Option (Nat × Nat)

/-- `reader` and `writer` of a pipe that is there. -/
def PipeSlot.flags (slot : PipeSlot) : Option (Bool × Bool) :=
  slot.pipe.map fun p => (p.reader, p.writer)

structure FileTable where
  files : List (Option OpenFile)
  pipes : List PipeSlot
  liveFiles : Nat

variable {ps : List PipeSlot} {k n : Nat} {slot : PipeSlot}

namespace FileTable

variable (t : FileTable)

/-- Look at a file through a pointer; a stale one leads nowhere. -/
def file? (f : Nat) : Option OpenFile := t.files[f]?.join

def live (f : Nat) : Bool := (t.file? f).isSome

def setFile (f : Nat) (v : Option OpenFile) : FileTable := { t with files := t.files.set f v }

/-! ## Reference counts -/

/-- `file_new`, when the allocation succeeds. -/
def fileNew (ops : FileOps) (flags : Nat) (pipe : Option Nat) : Nat × FileTable :=
  (t.files.length, { t with
    files := t.files ++ [some ⟨ops, flags, pipe, 1⟩]
    liveFiles := t.liveFiles + 1 })

/-- `file_get`; the pointer may be null. -/
def fileGet : Option Nat → FileTable
  | none => t
  | some f =>
    match t.file? f with
    | none => t
    | some file => t.setFile f (some { file with references := file.references + 1 })

def pipeRelease (file : OpenFile) : FileTable :=
  match file.pipe with
  | none => t
  | some k =>
    match t.pipes[k]? with
    | none => t
    | some slot =>
      match slot.pipe with
      | none => t
      | some pipe =>
        let pipe := pipe.close
          (if file.flags &&& oAccmode = oRdonly then .reader else .writer)
        let last := !pipe.reader && !pipe.writer
        { t with pipes := t.pipes.set k ⟨if last then none else some pipe, slot.ends⟩ }

/-- `file_put`; the pointer may be null. -/
def filePut : Option Nat → FileTable
  | none => t
  | some f =>
    match t.file? f with
    | none => t
    | some file =>
      if file.references - 1 = 0 then
        let t := if file.ops = .pipe then t.pipeRelease file else t
        { t with liveFiles := t.liveFiles - 1, files := t.files.set f none }
      else t.setFile f (some { file with references := file.references - 1 })

/-- Which allocation of `pipe_create` fails. -/
inductive PipeOutcome where
  | noPipe | noReader | noWriter | done
deriving DecidableEq, Repr

/-- `pipe_create`.  Without a writer, putting the reader back frees the pipe. -/
def pipeCreate : PipeOutcome → Except Errno (Nat × Nat) × FileTable
  | .noPipe | .noReader => (.error .nomem, t)
  | .noWriter =>
    let k := t.pipes.length
    let pipe : Pipe := { Pipe.fresh with writer := false }
    let t : FileTable := { t with pipes := t.pipes ++ [⟨some pipe, none⟩] }
    let (r, t) := t.fileNew .pipe oRdonly (some k)
    (.error .nomem, t.filePut (some r))
  | .done =>
    let k := t.pipes.length
    let (r, t) := t.fileNew .pipe oRdonly (some k)
    let (w, t) := t.fileNew .pipe oWronly (some k)
    (.ok (r, w), { t with pipes := t.pipes ++ [⟨some Pipe.fresh, some (r, w)⟩] })

end FileTable

/-! ## The invariant -/

/-- The flags of a pipe whose ends are open or closed; none once both are closed. -/
def endState (reader writer : Bool) : Option (Bool × Bool) :=
  if reader || writer then some (reader, writer) else none

/-- The file is the end of its pipe that its flags name. -/
def FileTable.IsEnd (t : FileTable) (f : Nat) (file : OpenFile) : Prop :=
  ∃ k slot r w, file.pipe = some k ∧ t.pipes[k]? = some slot ∧ slot.ends = some (r, w) ∧
    (f = r ∧ file.flags &&& oAccmode = oRdonly ∨ f = w ∧ file.flags &&& oAccmode ≠ oRdonly)

/-- A pipe is there while one of its two files is, and knows which. -/
structure PipeSlot.Knows (slot : PipeSlot) (t : FileTable) : Prop where
  failed : slot.ends = none → slot.pipe = none
  flags : ∀ {r w}, slot.ends = some (r, w) → slot.flags = endState (t.live r) (t.live w)

/-- Its two files are its own. -/
structure PipeSlot.Ok (slot : PipeSlot) (t : FileTable) (k : Nat) : Prop extends
    slot.Knows t where
  ends_lt : ∀ {r w}, slot.ends = some (r, w) → r ≠ w ∧ r < t.files.length ∧ w < t.files.length
  own : ∀ {r w f : Nat} {file : OpenFile}, slot.ends = some (r, w) → f = r ∨ f = w →
    t.file? f = some file → file.ops = .pipe ∧ file.pipe = some k

/-- Files and pipes belong together. -/
structure Piped (t : FileTable) : Prop where
  file_end : ∀ {f : Nat} {file : OpenFile}, t.file? f = some file → file.ops = .pipe →
    t.IsEnd f file
  slot_ok : ∀ {k : Nat} {slot : PipeSlot}, t.pipes[k]? = some slot → slot.Ok t k

/-- The references in `held` are exactly the ones that the files count. -/
structure TableOk (t : FileTable) (held : Multiset Nat) : Prop where
  references : ∀ {f : Nat} {file : OpenFile}, t.file? f = some file →
    file.references = held.count f ∧ 0 < file.references
  held_live : ∀ {f}, f ∈ held → t.live f = true
  liveFiles : t.liveFiles = t.files.countP Option.isSome
  piped : Piped t

namespace FileTable

variable {x : Nat} {v : Option OpenFile}

theorem lt_of_file? (h : t.file? f = some file) : f < t.files.length := by
  by_contra hlt
  simp [file?, getElem?_eq_none (Nat.le_of_not_lt hlt)] at h

theorem file?_setFile (hf : f < t.files.length) :
    (t.setFile f v).file? x = if x = f then v else t.file? x := by
  by_cases hx : x = f
  · subst hx
    simp [file?, setFile, hf]
  · simp [file?, setFile, hx, getElem?_set_ne (Ne.symm hx)]

theorem countP_setFile (h : t.file? f = some file) : (t.files.set f v).countP Option.isSome + 1 =
      t.files.countP Option.isSome + if v.isSome then 1 else 0 := by
  have hlt := lt_of_file? h
  have hsome : t.files[f] = some file := by simpa [file?, hlt] using h
  have hpos : 0 < t.files.countP Option.isSome :=
    List.countP_pos_iff.mpr ⟨_, getElem_mem hlt, by simp [hsome]⟩
  rw [countP_set hlt, hsome]
  simp
  omega

end FileTable

/-! ## Getting and putting references -/

/-- What the pipes know of a file. -/
def OpenFile.shape (file : OpenFile) : FileOps × Nat × Option Nat :=
  (file.ops, file.flags, file.pipe)

/-- The files that stay have their shapes and the pipes their ends; the rest is new. -/
theorem Piped.change {t' : FileTable} (h : Piped t) (hlen : t.files.length ≤ t'.files.length)
    (hfile : ∀ {x file'}, x < t.files.length → t'.file? x = some file' →
      ∃ file, t.file? x = some file ∧ file.shape = file'.shape)
    (hslot : ∀ {k : Nat} {slot : PipeSlot}, t.pipes[k]? = some slot →
      ∃ slot', t'.pipes[k]? = some slot' ∧ slot'.ends = slot.ends ∧ slot'.Knows t')
    (hnew : ∀ {f file}, t.files.length ≤ f → t'.file? f = some file → file.ops = .pipe →
      t'.IsEnd f file)
    (hpipe : ∀ {k : Nat} {slot : PipeSlot}, t.pipes.length ≤ k → t'.pipes[k]? = some slot →
      slot.Ok t' k) : Piped t' := by
  constructor
  · intro f file' hf hops
    by_cases hlt : f < t.files.length
    · obtain ⟨file, hfile, hshape⟩ := hfile hlt hf
      simp only [OpenFile.shape, Prod.mk.injEq] at hshape
      obtain ⟨hops', hflags, hpipe⟩ := hshape
      obtain ⟨k, slot, r, w, hk, hs, hends, hside⟩ := h.file_end hfile (hops'.trans hops)
      obtain ⟨slot', hs', hends', -⟩ := hslot hs
      exact ⟨k, slot', r, w, hpipe ▸ hk, hs', hends'.trans hends, hflags ▸ hside⟩
    · exact hnew (Nat.le_of_not_lt hlt) hf hops
  · intro k slot' hk
    by_cases hlt : k < t.pipes.length
    · have hold := h.slot_ok (getElem?_eq_getElem hlt)
      obtain ⟨slot, hs, hends, hknows⟩ := hslot (getElem?_eq_getElem hlt)
      cases hk.symm.trans hs
      refine ⟨hknows, fun hends' => ?_, fun hends' hside hf => ?_⟩
      · obtain ⟨hne, hr, hw⟩ := hold.ends_lt (hends ▸ hends')
        exact ⟨hne, by omega, by omega⟩
      · obtain ⟨-, hr, hw⟩ := hold.ends_lt (hends ▸ hends')
        obtain ⟨file, hold', hshape⟩ := hfile (by rcases hside with rfl | rfl <;> assumption) hf
        simp only [OpenFile.shape, Prod.mk.injEq] at hshape
        rw [← hshape.1, ← hshape.2.2]
        exact hold.own (hends ▸ hends') hside hold'
    · exact hpipe (Nat.le_of_not_lt hlt) hk

/-- The same without new files and pipes. -/
theorem Piped.keep {t' : FileTable} (h : Piped t) (hlen : t'.files.length = t.files.length)
    (hpipes : t'.pipes.length = t.pipes.length) (hfile : ∀ {x file'}, t'.file? x = some file' →
      ∃ file, t.file? x = some file ∧ file.shape = file'.shape)
    (hslot : ∀ {k : Nat} {slot : PipeSlot}, t.pipes[k]? = some slot →
      ∃ slot', t'.pipes[k]? = some slot' ∧ slot'.ends = slot.ends ∧ slot'.Knows t') : Piped t' := by
  refine h.change hlen.ge (fun _ => hfile) hslot (fun hle hf => ?_) (fun hle hk => ?_)
  · exact absurd (FileTable.lt_of_file? hf) (by omega)
  · simp [getElem?_eq_none (hpipes ▸ hle)] at hk

theorem PipeSlot.Knows.congr {t' : FileTable} (h : slot.Knows t)
    (hlive : ∀ x, t'.live x = t.live x) : slot.Knows t' :=
  ⟨h.failed, fun hends => by rw [hlive, hlive, h.flags hends]⟩

namespace TableOk

/-- Changing the count of one live file along with the bag. -/
theorem recount (h : TableOk t held) (hf : t.file? f = some file) (held' : Multiset Nat)
    (hpos : 0 < held'.count f) (hother : ∀ x, x ≠ f → held'.count x = held.count x) :
    TableOk (t.setFile f (some { file with references := held'.count f })) held' := by
  have hlt := FileTable.lt_of_file? hf
  have hlive : ∀ x, (t.setFile f (some { file with references := held'.count f })).live x =
      t.live x := by
    intro x
    rw [FileTable.live, FileTable.file?_setFile hlt, FileTable.live]
    by_cases hx : x = f <;> simp [hx, hf]
  refine ⟨fun {x file'} hx => ?_, fun {x} hx => ?_, ?_, h.piped.keep ?_ rfl (fun {x file'} hx => ?_)
    fun hk => ⟨_, hk, rfl, (h.piped.slot_ok hk).congr hlive⟩⟩
  · rw [FileTable.file?_setFile hlt] at hx
    by_cases hxf : x = f
    · subst hxf
      simp only [↓reduceIte, Option.some.injEq] at hx
      subst hx
      exact ⟨rfl, hpos⟩
    · rw [if_neg hxf] at hx
      rw [hother x hxf]
      exact h.references hx
  · rw [hlive]
    by_cases hxf : x = f
    · simp [hxf, FileTable.live, hf]
    refine h.held_live (Multiset.count_pos.mp ?_)
    rw [← hother x hxf]
    exact Multiset.count_pos.mpr hx
  · have hcount := FileTable.countP_setFile (v := some { file with references := held'.count f }) hf
    simp only [Option.isSome_some, ↓reduceIte, Nat.add_right_cancel_iff] at hcount
    exact h.liveFiles.trans hcount.symm
  · simp [FileTable.setFile]
  · rw [FileTable.file?_setFile hlt] at hx
    by_cases hxf : x = f
    · rw [if_pos hxf, Option.some.injEq] at hx
      exact ⟨file, hxf ▸ hf, hx ▸ rfl⟩
    · exact ⟨file', by rwa [if_neg hxf] at hx, rfl⟩

theorem fileGet (h : TableOk t held) {o : Option Nat} (ho : ∀ f, o = some f → f ∈ held) :
    TableOk (t.fileGet o) (bag o + held) := by
  cases o with
  | none => simpa [FileTable.fileGet] using h
  | some f =>
    obtain ⟨file, hf⟩ := Option.isSome_iff_exists.mp (h.held_live (ho f rfl))
    have hcount := (h.references hf).1
    have hnew := h.recount hf (f ::ₘ held) (by simp) fun x hx => by simp [hx]
    simpa [FileTable.fileGet, hf, hcount] using hnew

end TableOk

/-! ## The last reference -/

/-- `pipe_release` on an end that is open. -/
theorem FileTable.pipeRelease_eq {pipe : Pipe} (hk : file.pipe = some k)
    (hslot : t.pipes[k]? = some slot) (hpipe : slot.pipe = some pipe) : t.pipeRelease file =
      let e := if file.flags &&& oAccmode = oRdonly then Endpoint.reader else .writer
      let last := !(pipe.close e).reader && !(pipe.close e).writer
      { t with
        pipes := t.pipes.set k ⟨if last then none else some (pipe.close e), slot.ends⟩ } := by
  simp [FileTable.pipeRelease, hk, hslot, hpipe]

/-- `kfree(p)` on the last release. -/
theorem PipeSlot.flags_close (pipe : Pipe) (ends : Option (Nat × Nat)) :
    PipeSlot.flags ⟨if (!pipe.reader && !pipe.writer) = true then none else some pipe, ends⟩ =
      endState pipe.reader pipe.writer := by
  cases hr : pipe.reader <;> cases hw : pipe.writer <;> simp [PipeSlot.flags, endState, hr, hw]

/-- A pipe whose files are both other ones takes no note when `f` goes. -/
theorem Piped.other {t' : FileTable} (h : Piped t) (hf : t.file? f = some file)
    (hk : t.pipes[k]? = some slot) (hnot : ¬(file.ops = .pipe ∧ file.pipe = some k))
    (hlive : ∀ x, t'.live x = (t.live x && x != f)) : slot.Knows t' := by
  have hok := h.slot_ok hk
  refine ⟨hok.failed, fun {r w} hends => ?_⟩
  have hsame : ∀ x, x = r ∨ x = w → t'.live x = t.live x := by
    intro x hx
    have hxf : x ≠ f := fun heq => hnot (hok.own hends (heq ▸ hx) hf)
    simp [hlive, hxf]
  rw [hsame r (.inl rfl), hsame w (.inr rfl), hok.flags hends]

/-- The end that the flags of `f` name is the one `f` is. -/
theorem Piped.close (h : Piped t) {r w : Nat} {pipe : Pipe} (hf : t.file? f = some file)
    (hk : t.pipes[k]? = some slot) (hends : slot.ends = some (r, w)) (hpipe : slot.pipe = some pipe)
    (hside : f = r ∧ file.flags &&& oAccmode = oRdonly ∨ f = w ∧
      file.flags &&& oAccmode ≠ oRdonly) :
    let e := if file.flags &&& oAccmode = oRdonly then Endpoint.reader else .writer
    ((pipe.close e).reader, (pipe.close e).writer) =
      ((t.live r && r != f), (t.live w && w != f)) := by
  obtain ⟨hne, -⟩ := (h.slot_ok hk).ends_lt hends
  have hlive : t.live f = true := by simp [FileTable.live, hf]
  have hflags := (h.slot_ok hk).flags hends
  rcases hside with ⟨rfl, hacc⟩ | ⟨rfl, hacc⟩
  · simp only [PipeSlot.flags, hpipe, Option.map_some, endState, hlive, Bool.true_or, ↓reduceIte,
      Option.some.injEq, Prod.mk.injEq] at hflags
    simp [hacc, Pipe.close, hflags.2, hne.symm]
  · simp only [PipeSlot.flags, hpipe, Option.map_some, endState, hlive, Bool.or_true, ↓reduceIte,
      Option.some.injEq, Prod.mk.injEq] at hflags
    simp [hacc, Pipe.close, hflags.1, hne]

/-- The pipes after the last reference to `f` is gone. -/
theorem Piped.release {t' : FileTable} (h : Piped t) (hf : t.file? f = some file)
    (ht' : t' = { (if file.ops = .pipe then t.pipeRelease file else t) with
      files := t.files.set f none, liveFiles := t.liveFiles - 1 }) : Piped t' := by
  have hset : ∀ x, t'.file? x = if x = f then none else t.file? x := by
    rw [ht']
    exact fun x => FileTable.file?_setFile (v := none) (FileTable.lt_of_file? hf)
  have hlen : t'.files.length = t.files.length := by simp [ht']
  have hback : ∀ {x file'}, t'.file? x = some file' →
      ∃ file, t.file? x = some file ∧ file.shape = file'.shape := by
    intro x file' hx
    by_cases hxf : x = f <;> simp_all
  have hlive : ∀ x, t'.live x = (t.live x && x != f) := by
    intro x
    by_cases hxf : x = f <;> simp [FileTable.live, hset, hxf]
  by_cases hops : file.ops = .pipe
  · obtain ⟨k, slot, r, w, hk, hslot, hends, hside⟩ := h.file_end hf hops
    have hflags := (h.slot_ok hslot).flags hends
    obtain ⟨pipe, hpipe⟩ : ∃ pipe, slot.pipe = some pipe := by
      cases hp : slot.pipe with
      | some pipe => exact ⟨pipe, rfl⟩
      | none => rcases hside with ⟨rfl, -⟩ | ⟨rfl, -⟩ <;>
          simp [PipeSlot.flags, hp, endState, FileTable.live, hf] at hflags
    rw [if_pos hops, FileTable.pipeRelease_eq hk hslot hpipe] at ht'
    have hpipes := congrArg FileTable.pipes ht'
    refine h.keep hlen (by simp [hpipes]) hback fun {k' slot'} hk' => ?_
    rw [hpipes]
    by_cases hkk : k' = k
    · subst hkk
      cases hk'.symm.trans hslot
      refine ⟨_, getElem?_set_self (List.getElem?_eq_some_iff.mp hslot).1, rfl,
        fun hnone => by simp [hends] at hnone, fun {r' w'} hends' => ?_⟩
      obtain ⟨rfl, rfl⟩ : r = r' ∧ w = w' := by simpa [hends] using hends'
      have hclose := h.close hf hslot hends hpipe hside
      simp only [Prod.mk.injEq] at hclose
      rw [PipeSlot.flags_close, hclose.1, hclose.2, hlive, hlive]
    · have hown : ¬(file.ops = .pipe ∧ file.pipe = some k') := fun hown =>
        hkk (Option.some.inj (hown.2.symm.trans hk))
      exact ⟨slot', by rw [getElem?_set_ne (Ne.symm hkk), hk'], rfl, h.other hf hk' hown hlive⟩
  · rw [if_neg hops] at ht'
    have hpipes : t'.pipes = t.pipes := by rw [ht']
    exact h.keep hlen (by rw [hpipes]) hback fun hk =>
      ⟨_, by rw [hpipes, hk], rfl, h.other hf hk (fun hown => hops hown.1) hlive⟩

@[simp] theorem FileTable.pipeRelease_files (t : FileTable) (file : OpenFile) :
    (t.pipeRelease file).files = t.files := by
  unfold FileTable.pipeRelease
  split
  · rfl
  split
  · rfl
  · split <;> rfl

@[simp] theorem FileTable.pipeRelease_liveFiles (t : FileTable) (file : OpenFile) :
    (t.pipeRelease file).liveFiles = t.liveFiles := by
  unfold FileTable.pipeRelease
  split
  · rfl
  split
  · rfl
  · split <;> rfl

namespace TableOk

/-- The last reference to `f` goes. -/
theorem release {f : Nat} {file : OpenFile} (h : TableOk t (f ::ₘ held))
    (hf : t.file? f = some file) (hlast : held.count f = 0) :
    TableOk { (if file.ops = .pipe then t.pipeRelease file else t) with
      files := t.files.set f none, liveFiles := t.liveFiles - 1 } held := by
  have hset : ∀ x, (FileTable.mk (t.files.set f none)
      (if file.ops = .pipe then t.pipeRelease file else t).pipes (t.liveFiles - 1)).file? x =
      if x = f then none else t.file? x :=
    fun x => FileTable.file?_setFile (v := none) (FileTable.lt_of_file? hf)
  refine ⟨fun {x file'} hx => ?_, fun {x} hx => ?_, ?_, h.piped.release hf rfl⟩
  · rw [hset] at hx
    by_cases hxf : x = f
    · simp [hxf] at hx
    · rw [if_neg hxf] at hx
      simpa [hxf] using h.references hx
  · have hxf : x ≠ f := fun e => absurd hlast (Multiset.count_pos.mpr (e ▸ hx)).ne'
    rw [FileTable.live, hset, if_neg hxf]
    exact h.held_live (Multiset.mem_cons_of_mem hx)
  · have hcount := FileTable.countP_setFile (v := none) hf
    have hlive := h.liveFiles
    simp only [Option.isSome_none, Bool.false_eq_true, ↓reduceIte, Nat.add_zero] at hcount
    simp only
    omega

theorem filePut {o : Option Nat} (h : TableOk t (bag o + held)) : TableOk (t.filePut o) held := by
  cases o with
  | none => simpa [FileTable.filePut] using h
  | some f =>
    rw [bag_some, Multiset.singleton_add] at h
    obtain ⟨file, hf⟩ := Option.isSome_iff_exists.mp (h.held_live (Multiset.mem_cons_self f held))
    have hcount := (h.references hf).1
    rw [Multiset.count_cons_self] at hcount
    by_cases hlast : held.count f = 0
    · have hnew := h.release hf hlast
      by_cases hops : file.ops = .pipe <;>
        simpa [FileTable.filePut, hf, hcount, hlast, hops] using hnew
    · have hnew := h.recount hf held (Nat.pos_of_ne_zero hlast) fun x hx => by simp [hx]
      simpa [FileTable.filePut, hf, hcount, hlast] using hnew

end TableOk

/-! ## New files and pipes -/

/-- New entries behind the old ones. -/
def FileTable.append (t : FileTable) (fs : List (Option OpenFile)) (ps : List PipeSlot) :
    FileTable :=
  ⟨t.files ++ fs, t.pipes ++ ps, t.liveFiles + fs.countP Option.isSome⟩

section Append

variable {fs : List (Option OpenFile)}

theorem FileTable.append_file?_of_lt {x : Nat} (hx : x < t.files.length) :
    (t.append fs ps).file? x = t.file? x := by
  simp [append, file?, getElem?_append_left hx]

theorem FileTable.append_file? (i : Nat) :
    (t.append fs ps).file? (t.files.length + i) = fs[i]?.join := by
  simp [append, file?, getElem?_append_right]

theorem Piped.append (h : Piped t) (hfile : ∀ i file, fs[i]?.join = some file → file.ops = .pipe →
      (t.append fs ps).IsEnd (t.files.length + i) file)
    (hslot : ∀ (i : Nat) (slot : PipeSlot), ps[i]? = some slot →
      slot.Ok (t.append fs ps) (t.pipes.length + i)) : Piped (t.append fs ps) := by
  refine h.change (by simp [FileTable.append]) (fun {x file'} hx hf => ⟨file', ?_, rfl⟩)
    (fun {k slot} hk => ⟨slot, ?_, rfl, ?_⟩) (fun {f file} hle hf hops => ?_)
      (fun {k slot} hle hk => ?_)
  · rwa [FileTable.append_file?_of_lt hx] at hf
  · exact (getElem?_append_left (List.getElem?_eq_some_iff.mp hk).1).trans hk
  · have hok := h.slot_ok hk
    refine ⟨hok.failed, fun hends => ?_⟩
    obtain ⟨-, hr, hw⟩ := hok.ends_lt hends
    rw [hok.flags hends, FileTable.live, FileTable.live, FileTable.live, FileTable.live,
      FileTable.append_file?_of_lt hr, FileTable.append_file?_of_lt hw]
  · obtain ⟨i, rfl⟩ := Nat.exists_eq_add_of_le hle
    rw [FileTable.append_file?] at hf
    exact hfile i file hf hops
  · obtain ⟨i, rfl⟩ := Nat.exists_eq_add_of_le hle
    refine hslot i slot ?_
    simpa [FileTable.append, getElem?_append_right] using hk

namespace TableOk

/-- New files have one reference each, and those are the new ones in the bag. -/
theorem append (h : TableOk t held) (hone : ∀ file, some file ∈ fs → file.references = 1)
    (new : Multiset Nat)
    (hnew : ∀ i, new.count (t.files.length + i) = if fs[i]?.join.isSome then 1 else 0)
    (hold : ∀ x < t.files.length, new.count x = 0) (hpiped : Piped (t.append fs ps)) :
    TableOk (t.append fs ps) (new + held) := by
  refine ⟨fun {f file} hf => ?_, fun {f} hf => ?_, ?_, hpiped⟩
  · by_cases hlt : f < t.files.length
    · rw [FileTable.append_file?_of_lt hlt] at hf
      simpa [hold f hlt] using h.references hf
    · obtain ⟨i, rfl⟩ := Nat.exists_eq_add_of_le (Nat.le_of_not_lt hlt)
      have hfree : held.count (t.files.length + i) = 0 := by
        rw [Multiset.count_eq_zero]
        intro hmem
        obtain ⟨file', hfile'⟩ := Option.isSome_iff_exists.mp (h.held_live hmem)
        exact hlt (FileTable.lt_of_file? hfile')
      rw [FileTable.append_file?] at hf
      have hmem : some file ∈ fs := by
        obtain ⟨o, ho, rfl⟩ : ∃ o, fs[i]? = some o ∧ o = some file := by
          cases ho : fs[i]? <;> simp_all
        exact mem_of_getElem? ho
      simp [hnew, hf, hfree, hone file hmem]
  · rcases Multiset.mem_add.mp hf with hf | hf
    · by_cases hlt : f < t.files.length
      · exact absurd (hold f hlt) (Multiset.count_pos.mpr hf).ne'
      · obtain ⟨i, rfl⟩ := Nat.exists_eq_add_of_le (Nat.le_of_not_lt hlt)
        have hpos := Multiset.count_pos.mpr hf
        rw [FileTable.live, FileTable.append_file?]
        by_contra hno
        simp [hnew, hno] at hpos
    · have hlive := h.held_live hf
      obtain ⟨file, hfile⟩ := Option.isSome_iff_exists.mp hlive
      rw [FileTable.live, FileTable.append_file?_of_lt (FileTable.lt_of_file? hfile), hfile]
      rfl
  · rw [FileTable.append, countP_append, h.liveFiles]

/-- A new file other than a pipe's. -/
theorem fileNew (h : TableOk t held) {ops : FileOps} (hops : ops ≠ .pipe) (flags : Nat)
    (pipe : Option Nat) :
    TableOk (t.fileNew ops flags pipe).2 ((t.fileNew ops flags pipe).1 ::ₘ held) := by
  have hpiped : Piped (t.append [some ⟨ops, flags, pipe, 1⟩] []) := by
    refine h.piped.append (fun i file hf hpipe => ?_) (by simp)
    cases i with
    | zero =>
      obtain rfl : ⟨ops, flags, pipe, 1⟩ = file := by simpa using hf
      exact absurd hpipe hops
    | succ i => simp at hf
  have hnew := h.append (by simp) {t.files.length} (fun i => ?_) (fun x hx => ?_) hpiped
  · simpa [FileTable.fileNew, FileTable.append] using hnew
  · cases i <;> simp
  · simp [hx.ne]

end TableOk

end Append

/-- `pipe_create` without a writer leaves a freed pipe and a freed file. -/
theorem FileTable.pipeCreate_noWriter (t : FileTable) : t.pipeCreate .noWriter =
      (.error .nomem, ⟨t.files ++ [none], t.pipes ++ [⟨none, none⟩], t.liveFiles⟩) := by
  have hslot : ∀ a b : PipeSlot, (t.pipes ++ [a]).set t.pipes.length b = t.pipes ++ [b] := by
    simp [set_append_right]
  simp [FileTable.pipeCreate, FileTable.fileNew, FileTable.filePut, FileTable.file?,
    FileTable.pipeRelease, Pipe.close, hslot, oRdonly]

namespace TableOk

variable (h : TableOk t held)

include h

theorem pipeCreate_noWriter :
    TableOk ⟨t.files ++ [none], t.pipes ++ [⟨none, none⟩], t.liveFiles⟩ held := by
  have hpiped : Piped (t.append [none] [⟨none, none⟩]) := by
    refine h.piped.append (fun i file hf => ?_) (fun i slot hk => ?_)
    · cases i <;> simp at hf
    cases i with
    | zero =>
      obtain rfl : ⟨none, none⟩ = slot := by simpa using hk
      exact ⟨⟨by simp, by simp⟩, by simp, by simp⟩
    | succ i => simp at hk
  have hnew := h.append (by simp) 0 (fun i => ?_) (fun _ _ => rfl) hpiped
  · simpa [FileTable.append] using hnew
  · cases i <;> simp

theorem pipeCreate_done :
    TableOk (t.pipeCreate .done).2 (t.files.length ::ₘ (t.files.length + 1) ::ₘ held) := by
  let r : OpenFile := ⟨.pipe, oRdonly, some t.pipes.length, 1⟩
  let w : OpenFile := ⟨.pipe, oWronly, some t.pipes.length, 1⟩
  let new :=
    t.append [some r, some w] [⟨some Pipe.fresh, some (t.files.length, t.files.length + 1)⟩]
  have hr : new.file? t.files.length = some r := FileTable.append_file? 0
  have hw : new.file? (t.files.length + 1) = some w := FileTable.append_file? 1
  have hpiped : Piped new := by
    refine h.piped.append (fun i file hf hpipe => ?_) (fun i slot hk => ?_)
    · rcases i with - | - | i
      · obtain rfl : r = file := by simpa using hf
        exact ⟨_, _, _, _, rfl, getElem?_concat_length, rfl,
          .inl ⟨rfl, (by decide : oRdonly &&& oAccmode = oRdonly)⟩⟩
      · obtain rfl : w = file := by simpa using hf
        exact ⟨_, _, _, _, rfl, getElem?_concat_length, rfl,
          .inr ⟨rfl, (by decide : oWronly &&& oAccmode ≠ oRdonly)⟩⟩
      · simp at hf
    cases i with
    | succ i => simp at hk
    | zero =>
      obtain rfl : _ = slot := by simpa using hk
      refine ⟨⟨by simp, fun hends => ?_⟩, fun hends => ?_, fun hends hf hfile => ?_⟩
      · cases hends
        rw [FileTable.live, FileTable.live, hr, hw]
        rfl
      · cases hends
        exact ⟨by omega, by simp [FileTable.append], by simp [FileTable.append]⟩
      cases hends
      rcases hf with rfl | rfl
      · cases hr.symm.trans hfile
        exact ⟨rfl, rfl⟩
      · cases hw.symm.trans hfile
        exact ⟨rfl, rfl⟩
  have hnew := h.append (by simp [r, w]) {t.files.length, t.files.length + 1} (fun i => ?_)
    (fun x hx => ?_) hpiped
  · simpa [FileTable.pipeCreate, FileTable.fileNew, FileTable.append, r, w] using hnew
  · rcases i with - | - | i <;> simp
  · simp [hx.ne, (Nat.lt_succ_of_lt hx).ne]

/-- **What `pipe_create` leaves behind**: two references on success, nothing on
failure. -/
theorem pipeCreate (outcome : FileTable.PipeOutcome) : match t.pipeCreate outcome with
    | (.ok (r, w), t') => TableOk t' (r ::ₘ w ::ₘ held)
    | (.error _, t') => TableOk t' held := by
  cases outcome with
  | noPipe | noReader => exact h
  | noWriter =>
    rw [FileTable.pipeCreate_noWriter]
    exact h.pipeCreate_noWriter
  | done => simpa [FileTable.pipeCreate, FileTable.fileNew] using h.pipeCreate_done

/-- Reading and writing changes a pipe's buffer only. -/
theorem setPipe {k : Nat} {slot : PipeSlot} {pipe pipe' : Pipe}
    (hk : t.pipes[k]? = some slot) (hpipe : slot.pipe = some pipe)
    (hreader : pipe'.reader = pipe.reader) (hwriter : pipe'.writer = pipe.writer) :
    TableOk { t with pipes := t.pipes.set k ⟨some pipe', slot.ends⟩ } held := by
  have hlt := (List.getElem?_eq_some_iff.mp hk).1
  have hflags : PipeSlot.flags ⟨some pipe', slot.ends⟩ = slot.flags := by
    simp [PipeSlot.flags, hpipe, hreader, hwriter]
  refine ⟨h.references, h.held_live, h.liveFiles, h.piped.keep rfl (by simp)
    (fun hf => ⟨_, hf, rfl⟩) fun {j old} hj => ?_⟩
  by_cases hjk : j = k
  · subst hjk
    cases hk.symm.trans hj
    have hok := h.piped.slot_ok hk
    refine ⟨_, getElem?_set_self hlt, rfl, fun hnone => ?_, fun hends => hflags.trans
      (hok.flags hends)⟩
    rw [hok.failed hnone] at hpipe
    cases hpipe
  · exact ⟨old, by rw [getElem?_set_ne (Ne.symm hjk), hj], rfl,
      (h.piped.slot_ok hj).congr fun _ => rfl⟩

end TableOk

end MiniCore
