import MiniCore.Fs.OpenCreate
import MiniCore.Kernel.FdErrors

/-!
# MiniCore.Kernel.Listing

Listing a directory (`file_getdents` in `src/fs/vfs.c`, `SYS_GETDENTS` in
`src/kernel/fd.c`).

The position of an open directory is an index into its children, which a creation
extends at the end and a rollback leaves as they were.  So what has been given out
is always the part of the children before the position (`Listed.shown`), whoever
asks, with whatever buffer, and whatever is created in between.
-/

namespace MiniCore

open Lib List

variable {s s' : FileSys} {f : Nat} {P : PagePool} {rest objs : Multiset Nat}

/-! ## Records -/

/-- The directory entry of a node. -/
def Vfs.entry (v : Vfs) (n : Nat) : DirectoryEntry :=
  ⟨(v.node n).inode, (v.node n).type, (v.node n).name⟩

/-- The record of a node, as a program finds it. -/
def Vfs.record (v : Vfs) (n : Nat) : List UInt8 := (v.entry n).bytes

@[simp] theorem length_bytesLE (n v : Nat) : (bytesLE n v).length = n := by simp [bytesLE]

theorem length_record {v : Vfs} {n : Nat} (h : (v.node n).name.length < nameLimit) :
    (v.record n).length = directoryEntrySize := by
  simp [Vfs.record, Vfs.entry, DirectoryEntry.bytes, directoryEntrySize, nameLimit] at h ⊢
  omega

theorem length_records {v : Vfs} : ∀ {l : List Nat}, (∀ n ∈ l, (v.node n).name.length < nameLimit) →
    (l.flatMap v.record).length = directoryEntrySize * l.length
  | [], _ => rfl
  | n :: l, h => by
    rw [flatMap_cons, length_append, length_record (h n mem_cons_self),
      length_records fun c hc => h c (mem_cons_of_mem n hc), length_cons, Nat.mul_succ,
      Nat.add_comm]

/-! ## One call -/

namespace FileSys

variable {k : Nat} {m : Machine}

/-- The state with another position of one file and other memory. -/
@[simps vfs machine]
def moved (s : FileSys) (f k : Nat) (m : Machine) : FileSys :=
  { s with machine := m, file := Function.update s.file f { s.file f with offset := k } }

@[simp] theorem moved_self : s.moved f (s.file f).offset s.machine = s := by
  simp [moved]

@[simp] theorem moved_file : (s.moved f k m).file f = { s.file f with offset := k } := by
  simp [moved]

@[simp] theorem moved_nodeOf : (s.moved f k m).nodeOf f = s.nodeOf f := by simp [nodeOf]

/-- `file_getdents` with room for one entry. -/
theorem fileGetdents_one (hnode : (s.file f).node ≠ 0) (hdir : (s.nodeOf f).type = .dir) :
    (s.moved f k m).fileGetdents f directoryEntrySize =
      (.ok (((s.nodeOf f).children.drop k).take 1 |>.map s.vfs.entry),
        s.moved f (k + (((s.nodeOf f).children.drop k).take 1).length) m) := by
  have hbad : ¬((s.file f).node = 0 ∨ (s.nodeOf f).type ≠ .dir) := by simp [hnode, hdir]
  rw [fileGetdents, moved_nodeOf, moved_file, if_neg hbad, if_neg (Nat.lt_irrefl _)]
  have hone : directoryEntrySize / directoryEntrySize = 1 := rfl
  simp only [hone, setFile, moved, Function.update_idem]
  rfl

end FileSys

section

variable {shared : Nat → Nat} {t : Radix} {p p' : Task} {fd address size : Nat}
  {r : Except Errno Nat}

/-- What a list of bytes puts at the addresses from `a` on. -/
def stored (v : Picture) (a : Nat) (bytes : List UInt8) : Picture :=
  overlay v a bytes.length fun i => bytes.getD i 0

theorem stored_append (v : Picture) (a : Nat) (l l' : List UInt8) :
    stored (stored v a l) (a + l.length) l' = stored v a (l ++ l') := by
  have hleft : ∀ i < l.length, l.getD i 0 = (l ++ l').getD i 0 := fun i hi => by
    simp [getD_eq_getElem?_getD, getElem?_append_left hi]
  have hright : ∀ i < l'.length, l'.getD i 0 = (l ++ l').getD (l.length + i) 0 := fun i _ => by
    rw [getD_eq_getElem?_getD, getD_eq_getElem?_getD, getElem?_append_right (Nat.le_add_right _ _),
      Nat.add_sub_cancel_left]
  rw [stored, stored, stored, overlay_congr hleft, overlay_congr hright, overlay_overlay,
    length_append]

/-- **The loop of `SYS_GETDENTS`** gives out the children from the position on, as
many as fit. -/
theorem getdentsLoop_spec (hnode : (s.file f).node ≠ 0) (hdir : (s.nodeOf f).type = .dir)
    (hnames : ∀ n ∈ (s.nodeOf f).children, (s.vfs.node n).name.length < nameLimit)
    (hle : address + size ≤ 2 ^ 38) : ∀ (rounds done k : Nat) (m : Machine) (v : Picture),
    done + directoryEntrySize * rounds ≤ size → Owned P m p.space t shared rest objs →
    SameUser (peek p.space m) v → Writable v address (address + size) →
    ∃ m', p.getdentsLoop f address size rounds done (s.moved f k m) =
        (.ok (done + directoryEntrySize * (((s.nodeOf f).children.drop k).take rounds).length),
          s.moved f (k + (((s.nodeOf f).children.drop k).take rounds).length) m') ∧
      Owned P m' p.space t shared rest objs ∧
      SameUser (peek p.space m')
        (stored v (address + done)
        ((((s.nodeOf f).children.drop k).take rounds).flatMap s.vfs.record)) := by
  intro rounds
  induction rounds with
  | zero =>
    intro done k m v _ h hv _
    refine ⟨m, by simp [Task.getdentsLoop], h, ?_⟩
    rw [take_zero, flatMap_nil, stored, length_nil, overlay_zero]
    exact hv
  | succ rounds ih =>
    intro done k m v hroom h hv hw
    rw [Nat.mul_succ] at hroom
    rw [Task.getdentsLoop, if_neg (by omega), FileSys.fileGetdents_one hnode hdir]
    cases hleft : (s.nodeOf f).children.drop k with
    | nil =>
      refine ⟨m, by simp, h, ?_⟩
      rw [take_nil, flatMap_nil, stored, length_nil, overlay_zero]
      exact hv
    | cons n left =>
      have hn : n ∈ (s.nodeOf f).children := mem_of_mem_drop (hleft ▸ mem_cons_self)
      have hlen : (s.vfs.entry n).bytes.length = directoryEntrySize := length_record (hnames n hn)
      have hnext : (s.nodeOf f).children.drop (k + 1) = left := by
        rw [← drop_drop, hleft, drop_one, tail_cons]
      -- one record, and the rest of the loop behind it
      have hfits : address + done + (s.vfs.entry n).bytes.length ≤ address + size := by omega
      have hpart : Writable v (address + done) (address + done + (s.vfs.entry n).bytes.length) :=
        fun a hlo hhi => hw a (by omega) (by omega)
      obtain ⟨-, hpeek⟩ := addressSpaceCopy_write h hv (fun i => (s.vfs.entry n).bytes.getD i 0)
        (by omega) hpart
      have hown :=
        (addressSpaceCopy_spec h (some fun i => (s.vfs.entry n).bytes.getD i 0) (address + done)
          (s.vfs.entry n).bytes.length true).1
      obtain ⟨m', hrun, h', hv'⟩ := ih (done + directoryEntrySize) (k + 1) _ _ (by omega) hown hpeek
        (hw.overlay _ _ _)
      rw [hnext] at hrun hv'
      refine ⟨m', ?_, h', ?_⟩
      · simp only [take_succ_cons, take_zero, map_cons, map_nil, length_cons,
          length_nil]
        refine hrun.trans ?_
        rw [Nat.mul_succ, Nat.add_assoc, Nat.add_comm directoryEntrySize, Nat.add_assoc k,
          Nat.add_comm 1]
      · have hrecord : s.vfs.record n = (s.vfs.entry n).bytes := rfl
        rw [take_succ_cons, flatMap_cons, ← stored_append, hrecord]
        rw [← Nat.add_assoc, ← hlen] at hv'
        exact hv'

/-- What a program finds at an address after a call that answered `r`. -/
def received (as : AddressSpace) (m : Machine) (address : Nat) : Except Errno Nat → List UInt8
  | .ok n => (range n).map (bytesFrom as m address)
  | .error _ => []

theorem received_of_stored {as : AddressSpace} {m : Machine} {v : Picture} {bytes : List UInt8}
    (hv : SameUser (peek as m) (stored v address bytes)) (hw : Writable v address (address + size))
    (hle : address + size ≤ 2 ^ 38) (hfits : bytes.length ≤ size) :
    received as m address (.ok bytes.length) = bytes := by
  refine ext_getElem (by simp [received]) fun i _ hi => ?_
  obtain ⟨x, hx, hg⟩ := hw (address + i) (by omega) (by omega)
  have hpeek : peek as m (address + i) = some (x.1, bytes[i]) := by
    rw [hv _ (by omega), stored, overlay, if_pos ⟨by omega, by omega⟩, hx, Nat.add_sub_cancel_left]
    simp [hi]
  have hbyte : userByte as m false (address + i) = some bytes[i] :=
    userByte_eq_some.mpr ⟨by omega, x.1, hpeek, hg.1, fun hno => absurd hno Bool.false_ne_true⟩
  simp [received, bytesFrom, hbyte]

/-- Where `address_space_validate` says yes, the kernel may write. -/
theorem Owned.writable {m : Machine} {as : AddressSpace} (h : Owned P m as t shared rest objs)
    (hv : addressSpaceValidate as address size true m = true) (hpos : 0 < size) :
    address + size ≤ 2 ^ 38 ∧ Writable (peek as m) address (address + size) := by
  rcases h.userRange_iff.mp (h.validate_iff.mp hv) with hzero | ⟨hle, hopen⟩
  · exact absurd hzero (Nat.pos_iff_ne_zero.mp hpos)
  refine ⟨hle, fun a hlo hhi => ?_⟩
  obtain ⟨r, hr, hg⟩ := hopen (a - address) (by omega)
  rw [Nat.add_sub_cancel' hlo] at hr
  exact ⟨(r.2, m.mem r.1), by rw [peek, hr, Option.map_some], hg⟩

/-- **`SYS_GETDENTS`** on an open directory fails and changes nothing, or gives out
the children from the position on, as many as fit. -/
theorem Task.Ok.getdents (h : p.Ok P rest objs shared t s) (hfd : p.lookup fd = some f)
    (hnode : (s.file f).node ≠ 0) (hdir : (s.nodeOf f).type = .dir)
    (hnames : ∀ n ∈ (s.nodeOf f).children, (s.vfs.node n).name.length < nameLimit)
    (hf : f ∈ s.files) (hrun : p.getdents fd address size s = (r, p', s')) :
    (∃ e, r = .error e ∧ s' = s) ∨
    ∃ shown m', shown = ((s.nodeOf f).children.drop (s.file f).offset).take
    (size / directoryEntrySize) ∧
      directoryEntrySize ≤ size ∧ r = .ok (directoryEntrySize * shown.length) ∧
      s' = s.moved f ((s.file f).offset + shown.length) m' ∧
      s'.Ok P (share (p.space, t) + rest) (p.space.records + objs) ∧
      received p.space m' address r = shown.flatMap s.vfs.record := by
  cases r with
  | error e => exact .inl ⟨e, rfl, (Task.getdents_error hrun).2⟩
  | ok answer =>
    unfold Task.getdents at hrun
    rw [hfd] at hrun
    dsimp only at hrun
    split at hrun
    · cases hrun
    next hsize =>
    split at hrun
    · cases hrun
    next hvalid =>
    simp only [not_or, Bool.not_eq_false] at hvalid
    have hsize' : directoryEntrySize ≤ size := Nat.not_lt.mp hsize
    have hpos : 0 < directoryEntrySize := by decide
    obtain ⟨hle, hw⟩ := h.owned.writable hvalid.2 (hpos.trans_le hsize')
    have hroom : 0 + directoryEntrySize * (size / directoryEntrySize) ≤ size := by
      rw [Nat.zero_add]
      exact Nat.mul_div_le _ _
    obtain ⟨m', hloop, hown, hpeek⟩ :=
      getdentsLoop_spec (p := p) hnode hdir hnames hle (size / directoryEntrySize) 0
      (s.file f).offset s.machine (peek p.space s.machine) hroom h.owned (fun _ _ => rfl) hw
    rw [FileSys.moved_self] at hloop
    rw [hloop] at hrun
    rw [Nat.add_zero] at hpeek
    cases hrun
    have hshort :
      ∀ n ∈ ((s.nodeOf f).children.drop (s.file f).offset).take (size / directoryEntrySize),
        (s.vfs.node n).name.length < nameLimit := fun n hn =>
      hnames n (mem_of_mem_drop (mem_of_mem_take hn))
    have hlen := length_records hshort
    refine .inr ⟨_, m', rfl, hsize', by rw [Nat.zero_add], rfl, ?_, ?_⟩
    · have hst := hown.stocked
      rw [add_left_comm] at hst
      have hlive : liveBag m'.slabs =
          (s.vfs.nodes : Multiset Nat) + (s.records + (p.space.records + objs)) := by
        rw [hown.live]
        abel
      have hfiles := h.files.setFile (f := f)
        (x := { s.file f with offset := (s.file f).offset +
          (((s.nodeOf f).children.drop (s.file f).offset).take (size / directoryEntrySize)).length
          })
        (h.files.references f hf) (h.files.node f hf)
      exact ⟨⟨⟨hst, hlive⟩, h.files.vfs.closed⟩, hfiles.references, hfiles.node⟩
    · rw [Nat.zero_add, ← hlen]
      refine received_of_stored hpeek hw hle ?_
      rw [hlen]
      refine (Nat.mul_le_mul_left _ ?_).trans (Nat.mul_div_le _ _)
      exact length_take_le _ _

end

/-! ## Runs -/

/-- One answer of `SYS_GETDENTS`: the size of the buffer, the value returned, and the
bytes found in the buffer. -/
structure Reply where
  size : Nat
  answer : Except Errno Nat
  bytes : List UInt8

/-- The file system, and the answers to the calls on one open directory so far. -/
structure Listing where
  files : FileSys
  replies : List Reply

/-- All the records given out. -/
def Listing.bytes (l : Listing) : List UInt8 := l.replies.flatMap Reply.bytes

/-- What may happen while a directory is open. -/
inductive ListingEvent where
  /-- `SYS_GETDENTS` of a process -/
  | getdents (p : Task) (fd address size : Nat)
  /-- `vfs_openat`, with or without a creation, which may fail -/
  | openat (root base : Nat) (path : List UInt8) (flags : Nat)
  /-- one more reference to the open directory: `SYS_DUP` or `SYS_FORK` -/
  | get
  /-- one reference less, and not the last: `SYS_CLOSE` or `SYS_EXIT` -/
  | put
  /-- anything else -/
  | elsewhere (next : FileSys)

def listingStep (f : Nat) (l : Listing) : ListingEvent → Option Listing
  | .getdents p fd address size =>
    if p.lookup fd = some f then
      let (r, _, s) := p.getdents fd address size l.files
      some ⟨s, l.replies ++ [⟨size, r, received p.space s.machine address r⟩]⟩
    else none
  | .openat root base path flags =>
    some { l with files := (l.files.vfsOpenat root base path flags).2 }
  | .get => some { l with files := l.files.fileGet f }
  | .put =>
    if 1 < (l.files.file f).references then some { l with files := l.files.filePut f } else none
  | .elsewhere next => some { l with files := next }

/-- A step that keeps the names of the file system and the open file `f`, but for
the number of its references. -/
structure Elsewhere (f : Nat) (s s' : FileSys) : Prop where
  ok : ∃ P rest objs, s'.Ok P rest objs
  names : s.vfs.SameNames s'.vfs
  mem : f ∈ s'.files
  node : (s'.file f).node = (s.file f).node
  offset : (s'.file f).offset = (s.file f).offset

/-- A call is made by a sound process, or with nodes that are there. -/
def ListingEvent.Proper (f : Nat) (l : Listing) : ListingEvent → Prop
  | .getdents p _ _ _ => ∃ P rest objs shared t, p.Ok P rest objs shared t l.files
  | .openat root base path _ => root ∈ l.files.vfs.nodes ∧ (l.files.vfs.node root).type = .dir ∧
      base ∈ l.files.vfs.nodes ∧ 0 ∉ path
  | .get | .put => True
  | .elsewhere next => Elsewhere f l.files next

/-- The children of the open directory. -/
def FileSys.children (s : FileSys) (f : Nat) : List Nat := (s.nodeOf f).children

/-- The directory has grown at most at its end, and nobody has moved the position. -/
structure Extended (f : Nat) (s s' : FileSys) : Prop where
  ok : ∃ P rest objs, s'.Ok P rest objs
  tree : s'.vfs.Tree
  mem : f ∈ s'.files
  node : (s'.file f).node = (s.file f).node
  offset : (s'.file f).offset = (s.file f).offset
  nodes : ∀ n ∈ s.vfs.nodes, n ∈ s'.vfs.nodes
  record : ∀ n ∈ s.vfs.nodes, s'.vfs.record n = s.vfs.record n
  type : ∀ n ∈ s.vfs.nodes, (s'.vfs.node n).type = (s.vfs.node n).type
  children : ∀ n ∈ s.vfs.nodes, (s.vfs.node n).children <+: (s'.vfs.node n).children

/-- The calls on an open directory so far have given out the children before its
position. -/
structure Listed (f : Nat) (l : Listing) : Prop where
  ok : ∃ P rest objs, l.files.Ok P rest objs
  tree : l.files.vfs.Tree
  mem : f ∈ l.files.files
  node : (l.files.file f).node ∈ l.files.vfs.nodes
  dir : (l.files.nodeOf f).type = .dir
  offset : (l.files.file f).offset ≤ (l.files.children f).length
  shown : l.bytes = ((l.files.children f).take (l.files.file f).offset).flatMap l.files.vfs.record
  replies : ∀ reply ∈ l.replies, ∀ n, reply.answer = .ok n →
    directoryEntrySize ∣ n ∧ n ≤ reply.size ∧ reply.bytes.length = n

/-- The directory has grown at its end; what its children are has not changed. -/
structure Continues (f : Nat) (l l' : Listing) : Prop where
  children : l.files.children f <+: l'.files.children f
  record : ∀ n ∈ l.files.children f, l'.files.vfs.record n = l.files.vfs.record n
  replies : l.replies <+: l'.replies

section

variable {l l' : Listing}

variable {path : List UInt8} {base flags root : Nat}

theorem Continues.refl (f : Nat) (l : Listing) : Continues f l l :=
  ⟨prefix_refl _, fun _ _ => rfl, prefix_refl _⟩

theorem Continues.trans {l'' : Listing} (h : Continues f l l') (h' : Continues f l' l'') :
    Continues f l l'' :=
  ⟨h.children.trans h'.children, fun n hn => (h'.record n (h.children.subset hn)).trans
    (h.record n hn), h.replies.trans h'.replies⟩

theorem Vfs.record_eq {v v' : Vfs} {n : Nat} (hi : (v'.node n).inode = (v.node n).inode)
    (ht : (v'.node n).type = (v.node n).type) (hn : (v'.node n).name = (v.node n).name) :
    v'.record n = v.record n := by
  rw [Vfs.record, Vfs.record, Vfs.entry, Vfs.entry, hi, ht, hn]

theorem Vfs.SameNames.extended (hs : s.vfs.SameNames s'.vfs) (ok : ∃ P rest objs, s'.Ok P rest objs)
    (tree : s'.vfs.Tree) (mem : f ∈ s'.files) (node : (s'.file f).node = (s.file f).node)
    (offset : (s'.file f).offset = (s.file f).offset) : Extended f s s' where
  ok := ok
  tree := tree
  mem := mem
  node := node
  offset := offset
  nodes _ hn := hs.nodes ▸ hn
  record n hn := Vfs.record_eq (hs.node n hn).inode (hs.node n hn).type (hs.node n hn).name
  type n hn := (hs.node n hn).type
  children n hn := (hs.node n hn).children ▸ prefix_refl _

theorem Elsewhere.extended (h : Elsewhere f s s') (ht : s.vfs.Tree) : Extended f s s' :=
  h.names.extended h.ok (h.names.tree ht) h.mem h.node h.offset

section

variable (h : s.Ok P rest objs)

include h

/-- A change of a file that leaves its node and position alone. -/
theorem elsewhere_setFile (hf : f ∈ s.files) {x : Description}
    (href : 0 < x.references) (hops : x.ops = (s.file f).ops) (hnode : x.node = (s.file f).node)
    (hoffset : x.offset = (s.file f).offset) : Elsewhere f s (s.setFile f x) where
  ok := ⟨P, rest, objs, h.setFile href fun hpipe => hnode ▸ h.node f hf (hops ▸ hpipe)⟩
  names := .refl _
  mem := hf
  node := by simp [FileSys.setFile, hnode]
  offset := by simp [FileSys.setFile, hoffset]

theorem elsewhere_get (hf : f ∈ s.files) : Elsewhere f s (s.fileGet f) :=
  elsewhere_setFile h hf (Nat.succ_pos _) rfl rfl rfl

theorem elsewhere_put (hf : f ∈ s.files)
    (hmore : 1 < (s.file f).references) : Elsewhere f s (s.filePut f) := by
  have hput :
      s.filePut f = s.setFile f { s.file f with references := (s.file f).references - 1 } := by
    have hleft : (s.file f).references - 1 ≠ 0 := Nat.sub_ne_zero_of_lt hmore
    simp [FileSys.filePut, FileSys.setFile, hleft]
  rw [hput]
  exact elsewhere_setFile h hf (Nat.sub_pos_of_lt hmore) rfl rfl rfl

theorem FileSys.Ok.openat (hroot : root ∈ s.vfs.nodes) (hbase : base ∈ s.vfs.nodes) :
    (s.vfsOpenat root base path flags).2.Ok P rest objs := by
  cases hrun : s.vfsOpenat root base path flags with
  | mk r s' =>
    rcases h.vfsOpenat hroot hbase hrun with ⟨e, -, hr⟩ | ⟨g, n, -, ho⟩
    · exact hr.ok h
    · exact ho.ok h

/-- **`vfs_openat`** adds a child at the end of a directory, or changes no name. -/
theorem FileSys.Ok.openat_extends (ht : s.vfs.Tree) (hf : f ∈ s.files)
    (hroot : root ∈ s.vfs.nodes) (hdir : (s.vfs.node root).type = .dir)
    (hbase : base ∈ s.vfs.nodes) (hzero : 0 ∉ path) :
    Extended f s (s.vfsOpenat root base path flags).2 := by
  have hok : (s.vfsOpenat root base path flags).2.Ok P rest objs := h.openat hroot hbase
  cases hrun : s.vfsOpenat root base path flags with
  | mk r s' =>
    have htree := h.openat_tree ht hroot hdir hbase hzero hrun
    have hlaw := h.openLaw ht hroot hdir hbase hzero hrun
    rw [hrun] at hok
    obtain ⟨hmem, hfile⟩ : f ∈ s'.files ∧ s'.file f = s.file f := by
      rcases h.vfsOpenat hroot hbase hrun with ⟨e, -, hr⟩ | ⟨g, n, -, ho⟩
      · exact ⟨hr.same.files ▸ hf, hr.same.file f hf⟩
      obtain ⟨ops, -, heq⟩ := ho.eq
      refine ⟨?_, ?_⟩
      · rw [heq]
        exact mem_append_left _ hf
      · rw [heq]
        exact Function.update_of_ne (fun hfg : f = g => ho.fresh.2 (hfg ▸ hf)) ..
    by_cases hnew : ∀ n ∈ s'.vfs.nodes, n ∈ s.vfs.nodes
    · exact (hlaw.others hnew).extended ⟨P, rest, objs, hok⟩ htree hmem (by rw [hfile])
        (by rw [hfile])
    obtain ⟨n, hn, hout⟩ : ∃ n ∈ s'.vfs.nodes, n ∉ s.vfs.nodes := by simpa using hnew
    obtain ⟨-, p, -, hadd⟩ := hlaw.only n hn hout
    have hold : ∀ c ∈ s.vfs.nodes, s'.vfs.node c =
        { s.vfs.node c with
          children := (s.vfs.node c).children ++ if some p = some c then [n] else [] } := by
      intro c hc
      rw [hadd, Vfs.addNode_old fun hcn : c = n => hout (hcn ▸ hc)]
    refine ⟨⟨P, rest, objs, hok⟩, htree,
      hmem, by rw [hfile], by rw [hfile], fun c hc => ?_, fun c hc => ?_,
      fun c hc => by rw [hold c hc], fun c hc => ?_⟩
    · rw [hadd, Vfs.addNode_nodes]
      exact mem_append_left _ hc
    · exact Vfs.record_eq (by rw [hold c hc]) (by rw [hold c hc]) (by rw [hold c hc])
    · rw [hold c hc]
      exact prefix_append _ _

end

namespace Listed

variable (h : Listed f l)

include h

theorem short : ∀ n ∈ l.files.children f, (l.files.vfs.node n).name.length < nameLimit :=
  fun n hn => (h.tree.child _ h.node n hn).name.lt

theorem children_mem : ∀ n ∈ l.files.children f, n ∈ l.files.vfs.nodes :=
  h.tree.closed.children _ h.node

/-- A step of others. -/
theorem extended (hg : Extended f l.files s') :
    Listed f ⟨s', l.replies⟩ ∧ Continues f l ⟨s', l.replies⟩ := by
  have hchildren : l.files.children f <+: s'.children f := by
    rw [FileSys.children, FileSys.children, FileSys.nodeOf, FileSys.nodeOf, hg.node]
    exact hg.children _ h.node
  refine ⟨⟨hg.ok, hg.tree, hg.mem, ?_, ?_, ?_, ?_, h.replies⟩, hchildren,
    fun n hn => hg.record n (h.children_mem n hn), prefix_refl _⟩
  · rw [hg.node]
    exact hg.nodes _ h.node
  · rw [FileSys.nodeOf, hg.node, hg.type _ h.node]
    exact h.dir
  · rw [hg.offset]
    exact h.offset.trans hchildren.length_le
  · obtain ⟨more, hmore⟩ := hchildren
    refine h.shown.trans ?_
    dsimp only
    rw [hg.offset, ← hmore, take_append_of_le_length h.offset]
    refine flatMap_congr fun n hn => (hg.record n ?_).symm
    exact h.children_mem n (mem_of_mem_take hn)

/-- A call on the open directory. -/
theorem getdents {P : PagePool} {rest objs : Multiset Nat} {shared : Nat → Nat} {t : Radix}
    {p p' : Task} {fd address size : Nat} {r : Except Errno Nat}
    (hp : p.Ok P rest objs shared t l.files) (hfd : p.lookup fd = some f)
    (hrun : p.getdents fd address size l.files = (r, p', s')) :
    Listed f ⟨s', l.replies ++ [⟨size, r, received p.space s'.machine address r⟩]⟩ ∧
      Continues f l ⟨s', l.replies ++ [⟨size, r, received p.space s'.machine address r⟩]⟩ ∧
      (r = .ok 0 → (l.files.file f).offset = (l.files.children f).length) := by
  have hnode : (l.files.file f).node ≠ 0 := fun h0 => h.tree.nonzero (h0 ▸ h.node)
  rcases hp.getdents hfd hnode h.dir h.short h.mem hrun with
    ⟨e, rfl, rfl⟩ | ⟨shown, m', hshown, hsize, rfl, rfl, hok, hbytes⟩
  · refine ⟨⟨h.ok, h.tree, h.mem, h.node, h.dir, h.offset, ?_, fun reply hreply n hn => ?_⟩,
      ⟨prefix_refl _, fun _ _ => rfl, prefix_append _ _⟩, fun h0 => ?_⟩
    · simpa [Listing.bytes, received] using h.shown
    · rcases List.mem_append.mp hreply with hold | hnew
      · exact h.replies reply hold n hn
      · rw [List.mem_singleton.mp hnew] at hn
        cases hn
    · cases h0
  have hpos : 0 < size / directoryEntrySize := Nat.div_pos hsize (by decide)
  have hoffset := h.offset
  have hlen : shown.length = min (size / directoryEntrySize)
      ((l.files.children f).length - (l.files.file f).offset) := by
    rw [hshown, length_take, length_drop]
    rfl
  have hmoved : (l.files.children f).take ((l.files.file f).offset + shown.length) =
      (l.files.children f).take (l.files.file f).offset ++ shown := by
    rw [take_add]
    congr 1
    rw [hshown, FileSys.children, length_take, take_eq_take_iff]
    omega
  have hchildren :
    FileSys.children (l.files.moved f ((l.files.file f).offset + shown.length) m') f =
      l.files.children f := by simp [FileSys.children]
  refine ⟨⟨⟨_, _, _, hok⟩, h.tree, h.mem, by simpa using h.node, by simpa using h.dir, ?_, ?_,
    fun reply hreply n hn => ?_⟩, ⟨hchildren ▸ prefix_refl _, fun _ _ => rfl, prefix_append _ _⟩,
    fun h0 => ?_⟩
  · rw [hchildren, FileSys.moved_file]
    dsimp only
    omega
  · rw [hchildren, FileSys.moved_file]
    dsimp only
    rw [hmoved, flatMap_append, FileSys.moved_vfs, ← h.shown, Listing.bytes, flatMap_append,
      flatMap_singleton, FileSys.moved_machine, hbytes, Listing.bytes]
  · rcases List.mem_append.mp hreply with hold | hnew
    · exact h.replies reply hold n hn
    · rw [List.mem_singleton.mp hnew] at hn ⊢
      cases hn
      have hfew : directoryEntrySize * shown.length ≤ size :=
        (Nat.mul_le_mul_left _ (hlen ▸ Nat.min_le_left _ _)).trans (Nat.mul_div_le _ _)
      exact ⟨Nat.dvd_mul_right _ _, hfew, by simp [received]⟩
  · have hnone : shown.length = 0 := by simpa [directoryEntrySize] using h0
    omega

/-- **Every event** keeps what has been given out in step with the position. -/
theorem step {e : ListingEvent} (he : e.Proper f l) (hstep : listingStep f l e = some l') :
    Listed f l' ∧ Continues f l l' := by
  obtain ⟨P, rest, objs, hok⟩ := h.ok
  cases e with
  | getdents p fd address size =>
    obtain ⟨P, rest, objs, shared, t, hp⟩ := he
    rcases hrun : p.getdents fd address size l.files with ⟨r, x⟩
    rw [listingStep, hrun, Option.ite_none_right_eq_some] at hstep
    obtain ⟨hfd, hl'⟩ := hstep
    cases hl'
    obtain ⟨hlisted, hcontinues, -⟩ := h.getdents hp hfd hrun
    exact ⟨hlisted, hcontinues⟩
  | openat root base path flags =>
    cases hstep
    obtain ⟨hroot, hdir, hbase, hzero⟩ := he
    exact h.extended (hok.openat_extends h.tree h.mem hroot hdir hbase hzero)
  | get =>
    cases hstep
    exact h.extended ((elsewhere_get hok h.mem).extended h.tree)
  | put =>
    rw [listingStep, Option.ite_none_right_eq_some] at hstep
    obtain ⟨hmore, hl'⟩ := hstep
    cases hl'
    exact h.extended ((elsewhere_put hok h.mem hmore).extended h.tree)
  | elsewhere next =>
    cases hstep
    exact h.extended (Elsewhere.extended he h.tree)

theorem reach (hreach : Reach (listingStep f) (ListingEvent.Proper f) l l') :
    Listed f l' ∧ Continues f l l' := by
  refine hreach.invariant (I := fun x => Listed f x ∧ Continues f l x) ⟨h, .refl f l⟩
    fun x e x' hx he hstep => ?_
  obtain ⟨hlisted, hcontinues⟩ := hx.1.step he hstep
  exact ⟨hlisted, hx.2.trans hcontinues⟩

end Listed

/-- A directory that has just been opened. -/
theorem FileSys.Ok.listed (h : s.Ok P rest objs) (ht : s.vfs.Tree) (hroot : root ∈ s.vfs.nodes)
    (hdir : (s.vfs.node root).type = .dir) (hbase : base ∈ s.vfs.nodes) (hzero : 0 ∉ path)
    (hrun : s.vfsOpenat root base path flags = (.ok f, s')) (hopen : (s'.nodeOf f).type = .dir) :
    Listed f ⟨s', []⟩ := by
  rcases h.vfsOpenat hroot hbase hrun with ⟨e, hr, -⟩ | ⟨g, n, hr, ho⟩
  · cases hr
  cases hr
  have htree := h.openat_tree ht hroot hdir hbase hzero hrun
  obtain ⟨hmem, hnode, hoffset⟩ : f ∈ s'.files ∧ (s'.file f).node = n ∧ (s'.file f).offset = 0 := by
    obtain ⟨ops, -, heq⟩ := ho.eq
    rw [heq]
    simp
  refine ⟨⟨P, rest, objs, ho.ok h⟩, htree, hmem, hnode ▸ ho.mem, hopen, hoffset ▸ Nat.zero_le _,
    ?_, by simp⟩
  simp [Listing.bytes, hoffset]

/-! ## The law -/

/-- A name is what stands before the first zero. -/
theorem Vfs.record_inj {v : Vfs} {n c : Nat} (hn : NameOk (v.node n).name)
    (hc : NameOk (v.node c).name) (heq : v.record n = v.record c) :
    (v.node n).name = (v.node c).name := by
  rw [Vfs.record, Vfs.record, DirectoryEntry.bytes, DirectoryEntry.bytes] at heq
  have hpadded := (append_inj heq (by simp)).2
  have hname : ∀ {name : List UInt8}, 0 ∉ name → ∀ k,
      (name ++ replicate k 0).takeWhile (· ≠ 0) = name := by
    intro name hzero k
    rw [takeWhile_append_of_pos fun b hb => by simpa using fun h0 : b = 0 => hzero (h0 ▸ hb)]
    cases k <;> simp [replicate_succ]
  rw [← hname hn.noZero, ← hname hc.noZero]
  exact congrArg _ hpadded

/-- What the calls on an open directory promise after any run. -/
structure ListingLaw (f : Nat) (l : Listing) : Prop where
  /-- the children in the order of their insertion, each with a record of its own -/
  nodup : ((l.files.children f).map l.files.vfs.record).Nodup
  grows : ∀ l', Reach (listingStep f) (ListingEvent.Proper f) l l' → Continues f l l'
  shown : ∃ shown, shown <+: l.files.children f ∧ l.bytes = shown.flatMap l.files.vfs.record
  /-- an answer of 0 means that there is nothing left -/
  finished : ∀ p fd address size p' s',
    (∃ P rest objs shared t, Task.Ok P rest objs shared t p l.files) →
    p.lookup fd = some f → p.getdents fd address size l.files = (.ok 0, p', s') →
    l.bytes = (l.files.children f).flatMap l.files.vfs.record
  answers : ∀ reply ∈ l.replies, ∀ n, reply.answer = .ok n →
    directoryEntrySize ∣ n ∧ n ≤ reply.size ∧ reply.bytes.length = n
  record : ∀ n ∈ l.files.children f, (l.files.vfs.node n).name.length < nameLimit ∧
    0 ∉ (l.files.vfs.node n).name ∧
    l.files.vfs.record n = bytesLE 8 (l.files.vfs.node n).inode ++ bytesLE 4
      (l.files.vfs.node n).type.code ++
      bytesLE 4 0 ++ ((l.files.vfs.node n).name ++
        replicate (nameLimit - (l.files.vfs.node n).name.length) 0)

theorem Listed.law (h : Listed f l) : ListingLaw f l where
  nodup := by
    refine List.Nodup.map_on (fun n hn c hc heq => ?_) (h.tree.children_nodup h.node)
    have hname :=
      Vfs.record_inj (h.tree.child _ h.node n hn).name (h.tree.child _ h.node c hc).name heq
    exact inj_on_of_nodup_map (h.tree.names _ h.node) hn hc hname
  grows _ hreach := (h.reach hreach).2
  shown := ⟨_, take_prefix _ _, h.shown⟩
  finished := by
    intro p fd address size p' s' ⟨P, rest, objs, shared, t, hp⟩ hfd hrun
    have hend := (h.getdents hp hfd hrun).2.2 rfl
    rw [h.shown, hend, take_length]
  answers := h.replies
  record n hn := ⟨h.short n hn, (h.tree.child _ h.node n hn).name.noZero, rfl⟩

/-- **Directory listing is complete and free of duplicates**, for every run from
the opening of a directory on. -/
theorem listing_complete {P : PagePool} {rest objs : Multiset Nat} {root base flags : Nat}
    {path : List UInt8} (h : s.Ok P rest objs) (ht : s.vfs.Tree) (hroot : root ∈ s.vfs.nodes)
    (hdir : (s.vfs.node root).type = .dir) (hbase : base ∈ s.vfs.nodes) (hzero : 0 ∉ path)
    (hrun : s.vfsOpenat root base path flags = (.ok f, s')) (hopen : (s'.nodeOf f).type = .dir)
    (hreach : Reach (listingStep f) (ListingEvent.Proper f) ⟨s', []⟩ l) : ListingLaw f l :=
  ((h.listed ht hroot hdir hbase hzero hrun hopen).reach hreach).1.law

end

/-- `/tmp`, opened before anything is in it. -/
def tmpFiles : FileSys :=
  (emptyFiles.vfsOpenat emptyFiles.vfs.root emptyFiles.vfs.root (bytesOf "/tmp") oRdonly).2

def tmpGrown : FileSys :=
  (tmpFiles.vfsOpenat tmpFiles.vfs.root tmpFiles.vfs.root (bytesOf "/tmp/a") (oCreat ||| oWronly)).2

def tmpMmap : Except Errno Nat × AddressSpace × Machine :=
  addressSpaceMmap (addressSpaceInit 4096 tmpGrown.machine).2.1 0 4096 (protRead ||| protWrite)
    (mapPrivate ||| mapAnonymous) none 0 (addressSpaceInit 4096 tmpGrown.machine).2.2

/-- A process with `/tmp` as its file 0 and a page of its own. -/
def tmpTask : Task :=
  { emptyTask with
    space := tmpMmap.2.1
    root := tmpGrown.vfs.root
    cwd := tmpGrown.vfs.root
    fds := (Vector.replicate fdCount none).set 0 (some 0x3fc0) fdCount_pos }

def tmpTaskFiles : FileSys := { tmpGrown with machine := tmpMmap.2.2 }

/-- A file appears in the root, a process gets its memory, and lists what is there. -/
theorem Listed.reach_task {P : PagePool} {rest objs : Multiset Nat} {shared : Nat → Nat}
    {t : Radix} {p : Task} {f fd flags : Nat} {path : List UInt8} {m : Machine} {s1 s2 : FileSys}
    (h : Listed f ⟨s1, []⟩) (hzero : 0 ∉ path)
    (hs2 : (s1.vfsOpenat s1.vfs.root s1.vfs.root path flags).2 = s2)
    (hp : p.Ok P rest objs shared t { s2 with machine := m }) (hfd : p.lookup fd = some f)
    (address size : Nat) : Reach (listingStep f) (ListingEvent.Proper f) ⟨s1, []⟩
      ⟨(p.getdents fd address size { s2 with machine := m }).2.2,
        [⟨size, (p.getdents fd address size { s2 with machine := m }).1,
          received p.space (p.getdents fd address size { s2 with machine := m }).2.2.machine address
            (p.getdents fd address size { s2 with machine := m }).1⟩]⟩ := by
  have hopen : ListingEvent.Proper f ⟨s1, []⟩ (.openat s1.vfs.root s1.vfs.root path flags) :=
    ⟨h.tree.root, h.tree.rootDir, h.tree.root, hzero⟩
  have hgrown := (h.step hopen rfl).1
  rw [hs2] at hgrown
  refine .tail (.tail (.tail .refl hopen rfl) (a := .elsewhere { s2 with machine := m }) ?_ rfl)
    (a := .getdents p fd address size) ⟨P, rest, objs, shared, t, hp⟩ (if_pos hfd)
  dsimp only
  rw [hs2]
  exact ⟨⟨P, _, _, hp.files⟩, .refl _, hgrown.mem, rfl, rfl⟩

/-- A file appears after the directory was opened, and is listed. -/
theorem listing_complete_tmp :
    ∃ l, Reach (listingStep 0x3fc0) (ListingEvent.Proper 0x3fc0) ⟨tmpFiles, []⟩ l ∧
    l.replies.map (fun reply => (reply.answer, reply.bytes.take 18)) =
      [(.ok 80, [8, 0, 0, 0, 0, 0, 0, 0, 8, 0, 0, 0, 0, 0, 0, 0, 97, 0])] ∧
      ListingLaw 0x3fc0 l := by
  obtain ⟨P, rest, objs, hkernel, hok, -, htree⟩ := emptyFiles_ok
  have hok1 :
    (emptyFiles.vfsOpenat emptyFiles.vfs.root emptyFiles.vfs.root (bytesOf "/tmp") oRdonly).1 =
      .ok 0x3fc0 := by decide +kernel
  have hdir : (tmpFiles.nodeOf 0x3fc0).type = .dir := by decide +kernel
  have hspace : (addressSpaceInit 4096 tmpGrown.machine).1 = true := by decide +kernel
  have hfd : tmpTask.lookup 0 = some 0x3fc0 := by decide +kernel
  have hreply : ((tmpTask.getdents 0 0x10000000 160 tmpTaskFiles).1, (received tmpTask.space
      (tmpTask.getdents 0 0x10000000 160 tmpTaskFiles).2.2.machine 0x10000000
      (tmpTask.getdents 0 0x10000000 160 tmpTaskFiles).1).take 18) =
      (.ok 80, [8, 0, 0, 0, 0, 0, 0, 0, 8, 0, 0, 0, 0, 0, 0, 0, 97, 0]) := by decide +kernel
  have hopen : emptyFiles.vfsOpenat emptyFiles.vfs.root emptyFiles.vfs.root
    (bytesOf "/tmp") oRdonly =
      (.ok 0x3fc0, tmpFiles) := by rw [tmpFiles, ← hok1]
  have hlisted := hok.listed htree htree.root htree.rootDir htree.root (by decide) hopen hdir
  have hopened : tmpFiles.Ok P rest objs := by
    rw [tmpFiles]
    exact hok.openat htree.root htree.root
  have htree1 := hlisted.tree
  dsimp only at htree1
  have hgrown : tmpGrown.Ok P rest objs := by
    rw [tmpGrown]
    exact hopened.openat htree1.root htree1.root
  have hinit : addressSpaceInit 4096 tmpGrown.machine =
    (true, (addressSpaceInit 4096 tmpGrown.machine).2.1,
      (addressSpaceInit 4096 tmpGrown.machine).2.2) := by rw [← hspace]
  have hroot : tmpTask.root ∈ tmpGrown.vfs.nodes ∧ tmpTask.cwd ∈ tmpGrown.vfs.nodes := by
    decide +kernel
  have hfiles : ∀ f, some f ∈ tmpTask.fds.toList → f ∈ tmpGrown.files := by
    have hlist : tmpTask.fds.toList = some 0x3fc0 :: replicate 31 none := by decide
    have hmem : 0x3fc0 ∈ tmpGrown.files := by decide +kernel
    intro f hf
    rw [hlist] at hf
    obtain rfl : f = 0x3fc0 := by simpa using hf
    exact hmem
  have hmapped :
    tmpTask.space = (addressSpaceMmap (addressSpaceInit 4096 tmpGrown.machine).2.1 0 4096
      (protRead ||| protWrite) (mapPrivate ||| mapAnonymous) none 0
      (addressSpaceInit 4096 tmpGrown.machine).2.2).2.1 := by simp only [tmpTask, tmpMmap]
  obtain ⟨shared, t, htask⟩ :=
    Task.Ok.createMapped hgrown hkernel hroot.1 hroot.2 hfiles hinit hmapped
  have hcreate : (tmpFiles.vfsOpenat tmpFiles.vfs.root tmpFiles.vfs.root (bytesOf "/tmp/a")
      (oCreat ||| oWronly)).2 = tmpGrown := by rw [tmpGrown]
  have hzero : 0 ∉ bytesOf "/tmp/a" := by decide
  rw [tmpTaskFiles, tmpMmap] at hreply
  have hreach := hlisted.reach_task hzero hcreate htask hfd 0x10000000 160
  refine ⟨_, hreach, ?_,
    listing_complete hok htree htree.root htree.rootDir htree.root (by decide) hopen hdir hreach⟩
  simp only [map_cons, map_nil]
  rw [hreply]

end MiniCore
