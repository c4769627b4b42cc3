import MiniCore.Fs.Archive

/-!
# MiniCore.Fs.Initramfs

The archive writer, `tools/mkinitramfs.py`, and what the loop of `vfs_init` makes of
its archives.
-/

namespace MiniCore

/-- A character of `f"{value:08x}"`. -/
def hexChar (digit : Nat) : UInt8 := UInt8.ofNat (if digit < 10 then 0x30 + digit else 0x57 + digit)

/-- `f"{value:08x}"` of a value below 2³². -/
def hexField (value : Nat) : List UInt8 :=
  (List.range 8).map fun i => hexChar (value / 16 ^ (7 - i) % 16)

/-- `pad4` -/
def pad4 (data : List UInt8) : List UInt8 := data ++ List.replicate ((4 - data.length % 4) % 4) 0

structure ImageEntry where
  name : List UInt8
  payload : List UInt8
  mode : Nat
deriving DecidableEq, Repr

/-- `fields` in `add_entry` -/
def ImageEntry.fields (e : ImageEntry) : List Nat :=
  [1, e.mode, 0, 0, 1, 0, e.payload.length, 0, 0, 0, 0, e.name.length + 1, 0]

/-- `add_entry` -/
def addEntry (archive : List UInt8) (e : ImageEntry) : List UInt8 :=
  pad4 (pad4 (archive ++ bytesOf "070701" ++ e.fields.flatMap hexField ++ e.name ++ [0]) ++
    e.payload)

/-- The archive with these entries, closed as `main` closes it. -/
def mkinitramfs (entries : List ImageEntry) : List UInt8 :=
  addEntry (entries.foldl addEntry []) ⟨bytesOf "TRAILER!!!", [], 0⟩

/-! ## Round trip -/

open List

/-- A node for each entry, with its payload, as far as `archive_node` accepts them. -/
def unpack : List (ImageEntry × (Nat → UInt8)) → Vfs → Machine → Bool × Vfs × Machine
  | [], v, m => (true, v, m)
  | (e, data) :: rest, v, m =>
    match archiveNode e.name data e.payload.length e.mode v m with
    | (false, v, m) => (false, v, m)
    | (true, v, m) => unpack rest v m

namespace ImageEntry

/-- What the fields of an entry can hold. -/
structure Fits (e : ImageEntry) : Prop where
  name : 0 ∉ e.name
  nameLength : e.name.length < pathLimit
  payload : e.payload.length < 2 ^ 32
  mode : e.mode < 2 ^ 32

/-- An entry on its own. -/
def encode (e : ImageEntry) : List UInt8 := addEntry [] e

/-- Where the payload begins. -/
def dataoff (e : ImageEntry) : Nat := archiveAlign (111 + e.name.length)

end ImageEntry

section

variable {e : ImageEntry} {bytes pre post : List UInt8} {offset : Nat}

theorem hexDigit_hexChar : ∀ d < 16, hexDigit (hexChar d) = some d := by decide

theorem length_magic : (bytesOf "070701").length = 6 := by decide

theorem length_hexField (value : Nat) : (hexField value).length = 8 := by simp [hexField]

theorem length_flatMap_hexField (l : List Nat) : (l.flatMap hexField).length = 8 * l.length := by
  simp [length_flatMap, length_hexField, Nat.mul_comm]

/-- **A number is read back** from its eight characters. -/
theorem hex8_hexField {value : Nat} (h : value < 2 ^ 32)
    (hat : hexField value <+: bytes.drop offset) : hex8 bytes offset = some value := by
  obtain ⟨post, hpost⟩ := hat
  have hd : ∀ k, hexDigit (hexChar (value / k % 16)) = some (value / k % 16) := fun k =>
    hexDigit_hexChar _ (Nat.mod_lt _ (by decide))
  rw [hex8, ← hpost, take_left' (length_hexField value)]
  simp only [hexField, range, range.loop, map_cons, map_nil, foldlM_cons, foldlM_nil, hd,
    Option.map_some, Option.bind_eq_bind, Option.bind_some, Option.pure_def, Option.some.injEq]
  omega

theorem le_archiveAlign (n : Nat) : n ≤ archiveAlign n := by
  unfold archiveAlign
  omega

theorem archiveAlign_add {n : Nat} (h : 4 ∣ n) (k : Nat) :
    archiveAlign (n + k) = n + archiveAlign k := by
  unfold archiveAlign
  omega

theorem length_pad4 (data : List UInt8) : (pad4 data).length = archiveAlign data.length := by
  simp only [pad4, archiveAlign, length_append, length_replicate]
  omega

/-- Padding looks only at what stands behind an aligned front. -/
theorem pad4_append (h : 4 ∣ pre.length) (data : List UInt8) :
    pad4 (pre ++ data) = pre ++ pad4 data := by
  have hlen : (pre ++ data).length % 4 = data.length % 4 := by
    rw [length_append]
    omega
  rw [pad4, hlen, append_assoc, pad4]

/-- An entry is encoded alike wherever it is appended. -/
theorem addEntry_eq (h : 4 ∣ pre.length) : addEntry pre e = pre ++ e.encode := by
  rw [ImageEntry.encode, addEntry, addEntry]
  simp only [append_assoc, nil_append, pad4_append h]

theorem dvd_length_addEntry (pre : List UInt8) (e : ImageEntry) : 4 ∣ (addEntry pre e).length := by
  rw [addEntry, length_pad4, archiveAlign]
  omega

/-- The entries stand one behind the other. -/
theorem foldl_addEntry (h : 4 ∣ pre.length) (entries : List ImageEntry) :
    entries.foldl addEntry pre = pre ++ entries.flatMap ImageEntry.encode ∧
      4 ∣ (entries.foldl addEntry pre).length := by
  induction entries generalizing pre with
  | nil => exact ⟨by simp, h⟩
  | cons e entries ih =>
    obtain ⟨heq, hdvd⟩ := ih (dvd_length_addEntry pre e)
    refine ⟨?_, hdvd⟩
    rw [foldl_cons, heq, addEntry_eq h, flatMap_cons, append_assoc]

/-- An entry is its header, its name, and its payload at the next multiple of four. -/
theorem encode_split (e : ImageEntry) : ∃ gap gap', e.encode =
      bytesOf "070701" ++
      (e.fields.flatMap hexField ++ (e.name ++ 0 :: (gap ++ (e.payload ++ gap')))) ∧
    111 + e.name.length + gap.length = e.dataoff ∧
      e.encode.length = archiveAlign (e.dataoff + e.payload.length) := by
  let body := bytesOf "070701" ++ e.fields.flatMap hexField ++ e.name ++ [0]
  have hbody : body.length = 111 + e.name.length := by
    have hfields : e.fields.length = 13 := rfl
    simp only [body, length_append, length_magic, length_flatMap_hexField, hfields,
      length_singleton]
    omega
  obtain ⟨gap, hgap⟩ : ∃ gap, pad4 body = body ++ gap := ⟨_, rfl⟩
  obtain ⟨gap', hgap'⟩ : ∃ gap', pad4 (pad4 body ++ e.payload) = pad4 body ++ e.payload ++ gap' :=
    ⟨_, rfl⟩
  have hencode : e.encode = pad4 (pad4 body ++ e.payload) := rfl
  refine ⟨gap, gap', ?_, ?_, ?_⟩
  · rw [hencode, hgap', hgap]
    simp [body]
  · rw [ImageEntry.dataoff, ← hbody, ← length_append, ← hgap, length_pad4]
  · rw [hencode, length_pad4, length_append, length_pad4, hbody, ImageEntry.dataoff]

theorem length_encode (e : ImageEntry) : 110 + e.name.length < e.dataoff ∧
    e.dataoff + e.payload.length ≤ e.encode.length := by
  obtain ⟨-, -, -, -, hlen⟩ := encode_split e
  have hle := le_archiveAlign (111 + e.name.length)
  rw [hlen, ImageEntry.dataoff]
  exact ⟨by omega, le_archiveAlign _⟩

section

variable (hat : bytes.drop offset = e.encode ++ post)

include hat

theorem length_of_entry : bytes.length = offset + e.encode.length + post.length := by
  have hdrop := congrArg length hat
  have hlen := length_encode e
  rw [length_drop, length_append] at hdrop
  omega

/-- Each header field is read back from its place. -/
theorem hex8_field {l l' : List Nat} {value : Nat} (hfields : e.fields = l ++ value :: l')
    (h : value < 2 ^ 32) : hex8 bytes (offset + (6 + 8 * l.length)) = some value := by
  obtain ⟨gap, gap', hsplit, -⟩ := encode_split e
  have hlen : (bytesOf "070701" ++ l.flatMap hexField).length = 6 + 8 * l.length := by
    rw [length_append, length_flatMap_hexField]
    rfl
  refine hex8_hexField h ?_
  rw [← drop_drop, hat, hsplit, hfields, flatMap_append, flatMap_cons, append_assoc, append_assoc,
    append_assoc, append_assoc, ← append_assoc, ← hlen, drop_left]
  exact prefix_append _ _

/-- Name and payload of an entry, where the decoder looks for them. -/
theorem parts_of_entry : ∃ tail tail', bytes.drop (offset + 110) = e.name ++ 0 :: tail ∧
    bytes.drop (offset + e.dataoff) = e.payload ++ tail' := by
  obtain ⟨gap, gap', hsplit, hgap, -⟩ := encode_split e
  have hheader : (bytesOf "070701" ++ e.fields.flatMap hexField).length = 110 := by
    rw [length_append, length_flatMap_hexField, length_magic]
    rfl
  have hall : e.dataoff = 110 + (e.name ++ 0 :: gap).length := by
    rw [← hgap, length_append, length_cons]
    omega
  have hname : bytes.drop (offset + 110) = (e.name ++ 0 :: gap) ++
      (e.payload ++ (gap' ++ post)) := by
    rw [← drop_drop, hat, hsplit, ← append_assoc (bytesOf _), append_assoc, ← hheader, drop_left]
    simp
  refine ⟨gap ++ (e.payload ++ (gap' ++ post)), gap' ++ post, by simp [hname], ?_⟩
  rw [hall, ← Nat.add_assoc, ← drop_drop, hname, drop_left]

/-- **An entry is read back**, wherever it stands. -/
theorem archiveEntry_encode (he : e.Fits) (h4 : 4 ∣ offset) : archiveEntry bytes offset =
      some ⟨e.mode, e.payload.length, e.name, offset + e.dataoff, offset + e.encode.length⟩ ∧
    ∀ i < e.payload.length, bytes.getD (offset + e.dataoff + i) 0 = e.payload.getD i 0 := by
  obtain ⟨_, _, hsplit, -, hlen⟩ := encode_split e
  obtain ⟨_, _, hname, hdata⟩ := parts_of_entry hat
  have hmode : hex8 bytes (offset + 14) = some e.mode := hex8_field hat (l := [1]) rfl he.mode
  have hpayload : hex8 bytes (offset + 54) = some e.payload.length :=
    hex8_field hat (l := [1, e.mode, 0, 0, 1, 0]) rfl he.payload
  have hsize : hex8 bytes (offset + 94) = some (e.name.length + 1) :=
    hex8_field hat (l := [1, e.mode, 0, 0, 1, 0, e.payload.length, 0, 0, 0, 0]) rfl
      (Nat.lt_of_le_of_lt he.nameLength (by decide))
  have hget : ∀ k i, bytes.getD (k + i) 0 = (bytes.drop k).getD i 0 := fun k i => by
    simp [getD_eq_getElem?_getD]
  have hnul : bytes.getD (offset + (111 + e.name.length) - 1) 0 = 0 := by
    rw [show offset + (111 + e.name.length) - 1 = offset + 110 +
      e.name.length by omega, hget, hname]
    simp
  have htext : (bytes.drop (offset + 110)).takeWhile (· ≠ 0) = e.name := by
    rw [hname, takeWhile_append_of_pos fun c hc => by simpa using ne_of_mem_of_not_mem hc he.name]
    simp
  have hend : offset + 110 + (e.name.length + 1) = offset + (111 + e.name.length) := by omega
  have hbytes := length_of_entry hat
  have hshort := he.nameLength
  have hroom := length_encode e
  refine ⟨?_, fun i hi => ?_⟩
  · rw [archiveEntry, hat, hsplit, append_assoc, take_left' length_magic, if_neg (not_not.mpr rfl),
      hmode, hpayload, hsize]
    dsimp only
    rw [htext, hend, hnul, archiveAlign_add h4, Nat.add_assoc offset, archiveAlign_add h4,
      ← ImageEntry.dataoff, ← hlen, if_neg (by omega), if_neg (by simp; omega), if_neg (by omega),
      if_neg (by omega), if_neg (by omega), hsplit]
  · rw [hget, hdata, getD_eq_getElem?_getD, getElem?_append_left hi, getD_eq_getElem?_getD]

end

/-- The loop of `vfs_init` from an entry on. -/
theorem archiveLoop_encode (entries : List ImageEntry)
    (h : ∀ e ∈ entries, e.Fits ∧ e.name ≠ bytesOf "TRAILER!!!") {last : ImageEntry}
    (hlast : last = ⟨bytesOf "TRAILER!!!", [], 0⟩)
    (hat : bytes.drop offset = entries.flatMap ImageEntry.encode ++ last.encode) (h4 : 4 ∣ offset) :
    ∃ data,
      Forall₂ (fun e d => ∀ i < e.payload.length, d i = e.payload.getD i 0) entries data ∧
      ∀ rounds v m, bytes.length < offset + rounds →
        archiveLoop bytes rounds offset v m = unpack (entries.zip data) v m := by
  induction entries generalizing offset with
  | nil =>
    refine ⟨[], .nil, fun rounds v m hrounds => ?_⟩
    replace hat : bytes.drop offset = last.encode ++ [] := by simpa using hat
    have hbytes := length_of_entry hat
    have hroom := length_encode last
    obtain ⟨rounds, rfl⟩ := Nat.exists_eq_add_one_of_ne_zero (n := rounds) (by omega)
    have hfits : last.Fits := hlast ▸ ⟨by decide, by decide, by decide, by decide⟩
    rw [archiveLoop, if_pos (by omega), (archiveEntry_encode hat hfits h4).1, hlast]
    rfl
  | cons e entries ih =>
    obtain ⟨he, hname⟩ := h e mem_cons_self
    rw [flatMap_cons, append_assoc] at hat
    obtain ⟨hread, hdata⟩ := archiveEntry_encode hat he h4
    have hbytes := length_of_entry hat
    have hroom := length_encode e
    have hnext : bytes.drop (offset + e.encode.length) = entries.flatMap ImageEntry.encode ++
        last.encode := by
      rw [← drop_drop, hat, drop_left]
    obtain ⟨data, hall, hloop⟩ := ih (fun e he => h e (mem_cons_of_mem _ he)) hnext
      (Nat.dvd_add h4 (dvd_length_addEntry [] e))
    refine ⟨_ :: data, .cons hdata hall, fun rounds v m hrounds => ?_⟩
    obtain ⟨rounds, rfl⟩ := Nat.exists_eq_add_one_of_ne_zero (n := rounds) (by omega)
    rw [archiveLoop, if_pos (by omega), hread]
    dsimp only
    rw [if_neg hname, zip_cons_cons, unpack]
    obtain ⟨ok, v', m'⟩ := archiveNode e.name _ e.payload.length e.mode v m
    cases ok with
    | false => rfl
    | true => exact hloop rounds v' m' (by omega)

end

/-- **The kernel unpacks what the tool packs**: on every image, `vfs_init` makes a node for
each entry in turn, with its name, its mode and the bytes of its payload, and stops at the
trailer or where `archive_node` refuses an entry. -/
theorem initramfs_unpacks (entries : List ImageEntry)
    (h : ∀ e ∈ entries, e.Fits ∧ e.name ≠ bytesOf "TRAILER!!!") :
    ∃ data, Forall₂ (fun e d => ∀ i < e.payload.length, d i = e.payload.getD i 0) entries data ∧
      ∀ v m, archiveLoop (mkinitramfs entries) ((mkinitramfs entries).length + 1) 0 v m =
        unpack (entries.zip data) v m := by
  obtain ⟨hall, hdvd⟩ := foldl_addEntry (show 4 ∣ ([] : List UInt8).length from ⟨0, rfl⟩) entries
  have hat : (mkinitramfs entries).drop 0 = entries.flatMap ImageEntry.encode ++ _ :=
    (addEntry_eq hdvd).trans (by rw [hall, nil_append])
  obtain ⟨data, hdata, hloop⟩ := archiveLoop_encode entries h rfl hat (Nat.dvd_zero 4)
  exact ⟨data, hdata, fun v m => hloop _ v m (by omega)⟩

/-- A directory and a file that `main` puts into every image. -/
def etcEntry : ImageEntry := ⟨bytesOf "etc", [], 0o040555⟩

def messageEntry : ImageEntry := ⟨bytesOf "etc/message", bytesOf "abcdef\n", 0o100444⟩

theorem initramfs_unpacks_message : ∃ a b : Nat → UInt8,
    (List.range 7).map b = bytesOf "abcdef\n" ∧ ∀ v m,
    archiveLoop (mkinitramfs [etcEntry, messageEntry])
        ((mkinitramfs [etcEntry, messageEntry]).length + 1) 0 v m =
      unpack [(etcEntry, a), (messageEntry, b)] v m := by
  have hfits : ∀ e ∈ [etcEntry, messageEntry], e.Fits ∧ e.name ≠ bytesOf "TRAILER!!!" := by
    intro e he
    rcases mem_pair.mp he with rfl | rfl
    all_goals exact ⟨⟨by decide, by decide, by decide, by decide⟩, by decide⟩
  obtain ⟨data, hdata, hloop⟩ := initramfs_unpacks [etcEntry, messageEntry] hfits
  obtain ⟨a, rest, -, hrest, rfl⟩ := forall₂_cons_left_iff.mp hdata
  obtain ⟨b, rest, hb, hnil, rfl⟩ := forall₂_cons_left_iff.mp hrest
  obtain rfl := forall₂_nil_left_iff.mp hnil
  exact ⟨a, b, map_congr_left fun i hi => hb i (List.mem_range.mp hi), hloop⟩

end MiniCore
