import MiniCore.Mm.View

/-!
# MiniCore.Mm.ViewCalls

The calls on address spaces refine the calls on views.

Each of `mmap`, `munmap` and `brk` does to the view what `MiniCore.Mm.View` says
if all its allocations succeed; if one fails, it returns `-E_NOMEM` and the view
stays (`mmap_view`, `munmap_view`, `brk_view`).
-/

namespace MiniCore

open Lib

variable {P : PagePool} {m m' : Machine} {as as' : AddressSpace} {t : Radix} {shared : Nat → Nat}
  {rest objs : Multiset Nat} {mapflags offset stop : Nat}

/-! ## Runs of pages -/

/-- `load` does in memory what `image` says, on machines that are `good`. -/
structure LoadsAs (load : Nat → UserPage → Machine → Option Machine)
    (image : Nat → Option (Fin 4096 → UInt8)) (good : Machine → Prop) : Prop where
  fills : Fills load
  none : ∀ {address page m}, good m → image address = none → load address page m = none
  some : ∀ {address page m bytes}, good m → (∀ i < 4096, m.mem (page.physical + i) = 0) →
    image address = some bytes →
    ∃ m', load address page m = some m' ∧ ∀ i : Fin 4096, m'.mem (page.physical + i) = bytes i

section Runs

variable {flags : Nat} {load : Nat → UserPage → Machine → Option Machine}
  {image : Nat → Option (Fin 4096 → UInt8)} {good : Machine → Prop}

/-- There is room where the ledger has no page. -/
theorem Owned.addable (h : Owned P m as t shared rest objs) (hroot : as.root ≠ 0) {address : Nat}
    (hlt : address < 2 ^ 38) (hal : address % 4096 = 0) (huser : flags &&& pteU ≠ 0)
    (hvalid : mapped flags = true → validLeafFlags flags = true)
    (hfree : ∀ p ∈ as.pages, p.virtualAddress ≠ address) : Addable as t address flags := by
  refine ⟨hlt, hal, huser, fun hm => ⟨hroot, hvalid hm, ?_⟩⟩
  by_contra hne
  obtain ⟨p, hp, -, hdiv⟩ := h.leaves.page_of _ hne
  have := (h.page_ok p hp).aligned
  exact hfree p hp (by omega)

theorem view_push {page : UserPage} {bytes : Fin 4096 → UInt8} {m2 : Machine}
    (hk : Keeps (as.physicals + rest) m m2)
    (hb : ∀ i : Fin 4096, m2.mem (page.physical + i) = bytes i) :
    (as.push page).pages.map (UserPage.image m2.mem) =
      as.pages.map (UserPage.image m.mem) ++ [⟨page.virtualAddress, page.flags, bytes⟩] := by
  have hnew : page.image m2.mem = ⟨page.virtualAddress, page.flags, bytes⟩ := by
    rw [UserPage.image]
    congr
    exact funext hb
  rw [AddressSpace.push, List.map_append, hk.images, List.map_singleton, hnew]

/-- **The page-adding loop** on views. -/
theorem addPages_view (hload : LoadsAs load image good)
    (hgood : ∀ {m m'}, Keeps rest m m' → good m → good m') (huser : flags &&& pteU ≠ 0)
    (hvalid : mapped flags = true → validLeafFlags flags = true) :
    ∀ (count address : Nat) (as : AddressSpace) (m : Machine) (t : Radix),
    Owned P m as t shared rest objs → as.root ≠ 0 → good m → address % 4096 = 0 →
    address + 4096 * count ≤ 2 ^ 38 →
    (∀ p ∈ as.pages, p.virtualAddress < address ∨ address + 4096 * count ≤ p.virtualAddress) →
    ∀ {ok as' m'}, addPages flags load count address as m = (ok, as', m') →
    (false ∈ addPagesAllocs flags load count address as m ∨
      newPages flags image count address = none → ok = false) ∧
    ∀ new, false ∉ addPagesAllocs flags load count address as m →
      newPages flags image count address = some new →
      ok = true ∧ as'.pages.map (UserPage.image m'.mem) = as.pages.map
      (UserPage.image m.mem) ++ new := by
  intro count
  induction count with
  | zero =>
    intro address as m t h _ _ _ _ _ ok as' m' hrun
    cases hrun
    refine ⟨by simp [addPagesAllocs, newPages], fun new _ hnew => ?_⟩
    cases hnew
    exact ⟨rfl, by simp⟩
  | succ count ih =>
    intro address as m t h hroot hm hal hle hout ok as' m' hrun
    obtain ⟨b, as1, m1, hadd⟩ : ∃ b as1 m1,
        addressSpaceAddPage as address flags none 0 m = (b, as1, m1) := ⟨_, _, _, rfl⟩
    have hroom := h.addable hroot (by omega) hal huser hvalid fun p hp => by
      have := hout p hp
      omega
    have hiff : (addressSpaceAddPage as address flags none 0 m).1 = true ↔
        false ∉ addPageAllocs as address flags none 0 m :=
      addPage_true_iff h hroom
    obtain ⟨hk1, hcase⟩ := addressSpaceAddPage_spec h hadd
    rw [hadd] at hiff
    rw [addPages, hadd] at hrun
    rw [addPagesAllocs, hadd, List.mem_append, newPages]
    cases b with
    | false =>
      cases hrun
      have hbad : false ∈ addPageAllocs as address flags none 0 m := by simpa using hiff
      exact ⟨fun _ => rfl, fun new hno => absurd (.inl hbad) hno⟩
    | true =>
      have hgranted := hiff.mp rfl
      rcases hcase with ⟨hf, -⟩ | ⟨-, t1, page, h1, hadded, mid, -, hzero⟩
      · cases hf
      obtain rfl := hadded.push
      have hlast : (as.push page).pages.getLast? = some page := by simp [AddressSpace.push]
      have hm1 : good m1 := hgood hk1.part hm
      simp only [hlast, Option.bind_some] at hrun ⊢
      cases himage : image address with
      | none =>
        rw [hload.none hm1 himage] at hrun
        cases hrun
        exact ⟨fun _ => rfl, fun new _ hnew => by simp at hnew⟩
      | some bytes =>
        obtain ⟨m2, hl, hbytes⟩ := hload.some hm1 hzero himage
        rw [hl] at hrun ⊢
        obtain ⟨n, f, hn, rfl⟩ := hload.fills hl
        obtain ⟨h2, hk2⟩ := h1.write_last (f := f) hn
        have hview := view_push (hk1.trans hk2) hbytes
        have hm2 := hgood hk2.part hm1
        have hrest := ih (address + pageSize) _ _ _ h2 hroot hm2 (by unfold pageSize; omega)
          (by unfold pageSize; omega) (fun p hp => by
            unfold pageSize
            rcases List.mem_append.mp hp with hp | hp
            · have := hout p hp
              omega
            · rw [List.mem_singleton.mp hp, hadded.at_address]
              omega) hrun
        simp only [Option.bind_eq_bind, Option.bind_some, Option.bind_eq_none_iff,
          Option.bind_eq_some_iff, hgranted, false_or]
        refine ⟨?_, ?_⟩
        · rintro (hf | hnone)
          · exact hrest.1 (.inl hf)
          · refine hrest.1 (.inr ?_)
            cases hnp : newPages flags image count (address + pageSize) with
            | none => rfl
            | some new => exact absurd (hnone new hnp) (by simp)
        · rintro new hno ⟨new', hnew', hcons⟩
          obtain ⟨hok, hpages⟩ := hrest.2 new' hno hnew'
          cases hcons
          refine ⟨hok, ?_⟩
          rw [hpages, hview, hadded.at_address, hadded.with_flags]
          simp

theorem newPages_zero (flags : Nat) : ∀ count address,
    newPages flags (fun _ => some zeroPage) count address =
      some ((List.range count).map fun i => ⟨address + 4096 * i, flags, zeroPage⟩)
  | 0, _ => rfl
  | count + 1, address => by
    rw [newPages, newPages_zero flags count, List.range_succ_eq_map, List.map_cons, List.map_map]
    simp only [Option.bind_eq_bind, Option.bind_some, Nat.mul_zero, Nat.add_zero, Function.comp_def,
      pageSize, Nat.mul_succ, Nat.add_assoc, Nat.add_comm 4096]
    rfl

theorem loadsAs_loadNothing (good : Machine → Prop) :
    LoadsAs loadNothing (fun _ => some zeroPage) good :=
  ⟨fills_loadNothing, fun _ h => (by cases h), fun {_ _ m _} _ hzero h =>
    ⟨m, rfl, fun i => Option.some.inj h ▸ hzero i i.isLt⟩⟩

end Runs

/-! ## Mapping -/

/-- The blocks of a file are among the pages that are kept. -/
def Vnode.Kept (n : Vnode) (rest : Multiset Nat) : Prop :=
  n.data = none → ∀ b, n.blocks b ≠ 0 → n.blocks b ∈ rest

/-- An open file as the kernel keeps it: a regular file has the regular
operations, and its blocks are among the pages `rest`. -/
structure File.Kept (f : File) (rest : Multiset Nat) : Prop where
  ops : ∀ n, f.node = some n → n.type = .reg → f.ops = .regular
  blocks : ∀ n, f.node = some n → n.Kept rest

section Mmap

variable {file : Option File} {n : Vnode}

variable {f : File}

theorem Vnode.Kept.byte_eq (h : n.Kept rest) (hk : Keeps rest m m') :
    n.byte m'.mem = n.byte m.mem := by
  funext i
  exact Vnode.byte_congr fun hd hne => hk.bytes _ (h hd _ hne)

theorem File.Kept.mono {rest' : Multiset Nat} (h : f.Kept rest) (hle : rest ≤ rest') :
    f.Kept rest' :=
  ⟨h.ops, fun n hn hd b hb => Multiset.mem_of_le hle (h.blocks n hn hd b hb)⟩

/-- A file that may be mapped can be read. -/
theorem File.Kept.reads (h : f.Kept rest) (hm : mappable (some f) = true) :
    ∃ n, f.Reads n ∧ n.Kept rest := by
  rw [mappable] at hm
  cases hn : f.node with
  | none =>
    rw [hn] at hm
    cases hm
  | some n =>
    simp only [hn, Bool.and_eq_true, decide_eq_true_eq, bne_iff_ne] at hm
    refine ⟨n, ⟨h.ops n hn hm.1, hn, ?_, hm.2⟩, h.blocks n hn⟩
    rw [hm.1]
    exact NodeType.noConfusion

/-- The bytes of a file from an offset on, and zeros behind its end. -/
def Vnode.pageAt (mem : Memory) (n : Vnode) (offset : Nat) : Fin 4096 → UInt8 := fun i =>
  if offset + i < n.size then n.byte mem (offset + i) else 0

theorem getD_filePread {bytes : List UInt8} {mem : Memory} (hf : f.Reads n)
    (h : filePread mem f pageSize offset = .ok bytes) (i : Fin 4096) :
    bytes.getD i 0 = n.pageAt mem offset i := by
  rw [filePread_eq hf] at h
  cases h
  have hmin : i.val < min pageSize (n.size - offset) ↔ offset + i < n.size := by
    have := i.isLt
    unfold pageSize
    omega
  rw [List.getD_eq_getElem?_getD, List.getElem?_map, Vnode.pageAt]
  by_cases hi : offset + i < n.size
  · simp [List.getElem?_range (hmin.mpr hi), hi]
  · rw [List.getElem?_eq_none (by simpa using Nat.not_lt.mp (mt hmin.mp hi)), if_neg hi]
    rfl

/-- What a page of a file mapping shows. -/
theorem mmapImage_file (hf : f.Reads n) (hanon : mapflags &&& mapAnonymous = 0) (mem : Memory)
    (offset address at' : Nat) : mmapImage mem mapflags (some f) offset address at' =
      some (n.pageAt mem (offset + at' - address)) := by
  rw [mmapImage, if_neg (not_not.mpr hanon)]
  cases hread : filePread mem f pageSize (offset + at' - address) with
  | error e =>
    rw [filePread_eq hf] at hread
    cases hread
  | ok bytes => exact congrArg some (funext (getD_filePread hf hread))

/-- **The loading of a page** does what `mmapImage` says. -/
theorem loadsAs_mmapLoad
    (hfile : mapflags &&& mapAnonymous = 0 → ∃ f n, file = some f ∧ f.Reads n) (mem : Memory)
    (offset address : Nat) :
    LoadsAs (mmapLoad mapflags file offset address) (mmapImage mem mapflags file offset address)
      fun m => ∀ f n, file = some f → f.node = some n → n.byte m.mem = n.byte mem := by
  by_cases hanon : mapflags &&& mapAnonymous = 0
  · obtain ⟨f, n, rfl, hf⟩ := hfile hanon
    have himage := mmapImage_file hf hanon mem offset address
    have hload : mmapLoad mapflags (some f) offset address = loadFile f offset address := by
      rw [mmapLoad, if_neg (not_not.mpr hanon)]
    refine ⟨fills_mmapLoad _ _ _ _, fun {at' _ _} _ hnone => ?_,
      fun {at' page m bytes} hgood hzero hsome => ?_⟩
    · rw [himage] at hnone
      cases hnone
    rw [himage] at hsome
    cases hsome
    have hbyte := hgood f n rfl hf.node
    rw [hload, loadFile]
    cases hread : filePread m.mem f pageSize (offset + at' - address) with
    | error e =>
      rw [filePread_eq hf] at hread
      cases hread
    | ok bytes =>
      refine ⟨_, rfl, fun i => ?_⟩
      have hbytes := getD_filePread hf hread i
      simp only [Vnode.pageAt, hbyte] at hbytes ⊢
      rw [← hbytes]
      by_cases hi : i.val < bytes.length
      · exact fill_of_mem (f := fun i => bytes.getD i 0) hi
      rw [List.getD_eq_getElem?_getD, List.getElem?_eq_none (Nat.not_lt.mp hi), Option.getD_none]
      exact (fill_of_not_mem (f := fun i => bytes.getD i 0)
        (.inr (Nat.add_le_add_left (Nat.not_lt.mp hi) _))).trans (hzero i i.isLt)
  · have hload : mmapLoad mapflags file offset address = loadNothing := if_pos hanon
    have himage : mmapImage mem mapflags file offset address = fun _ => some zeroPage := by
      funext at'
      exact if_pos hanon
    rw [hload, himage]
    exact loadsAs_loadNothing _

/-- A call that changes neither the struct nor its pages leaves the view. -/
theorem view_congr (hk : Keeps (as.physicals + rest) m m') : as.view m'.mem = as.view m.mem := by
  rw [AddressSpace.view, hk.images, AddressSpace.view]

theorem Outcome.view_error {res : Except Errno Nat} {Done : Nat → Prop} {t' : Radix} {e : Errno}
    (h : Outcome P m m' as as' t shared rest objs res Done t') (hag : Agrees as.areas as.pages)
    (he : res = .error e) : as'.view m'.mem = as.view m.mem := by
  obtain ⟨rfl, -, hk⟩ := h.error e he hag
  exact view_congr hk

/-- `reserve` where there is room fails only for want of a record. -/
theorem reserve_cases (as : AddressSpace) (flags : Nat) (kind : AreaKind) {start stop : Nat}
    (hlt : start < stop) (hs : start % 4096 = 0) (he : stop % 4096 = 0) (hle : stop ≤ 2 ^ 38)
    (hv : vacant as.areas start stop = true) (m : Machine) :
    (reserveAllocs as start stop m = [false] ∧
      (addressSpaceReserve as start stop flags kind m).1 = false) ∨
    reserveAllocs as start stop m = [true] ∧ ∃ ptr m1,
      addressSpaceReserve as start stop flags kind m =
      (true, as.reserve ⟨ptr, start, stop, flags, kind⟩, m1) := by
  have hgood : ¬(stop ≤ start ∨ pageOffset start ≠ 0 ∨ pageOffset stop ≠ 0 ∨ userEnd < stop ∨
      vacant as.areas start stop = false) := by
    have hs' : pageOffset start = 0 := hs
    have he' : pageOffset stop = 0 := he
    simp only [not_or, not_le, not_lt, hs', he', hv, userEnd]
    exact ⟨hlt, by simp, by simp, hle, by simp⟩
  rw [reserveAllocs, if_neg hgood, addressSpaceReserve, if_neg hgood]
  obtain ⟨ptr, m1, hk⟩ : ∃ ptr m1, kmalloc vmAreaSize m = (ptr, m1) := ⟨_, _, rfl⟩
  rw [hk]
  cases ptr with
  | zero => exact .inl ⟨rfl, rfl⟩
  | succ ptr => exact .inr ⟨rfl, ptr + 1, m1, rfl⟩

/-- The error of a call that `mmap` refuses by its arguments alone. -/
def mmapRefusal (address length prot mapflags : Nat) (file : Option File) (offset : Nat) :
    Option Errno :=
  if mmapInvalid length prot mapflags offset then some .inval
  else if mapflags &&& mapAnonymous = 0 ∧ mappable file = false then some .badf
  else if 2 ^ 64 - 1 - pageUp length < offset ∨ pageOffset address ≠ 0 then some .inval
  else none

section Refusal

variable {address length prot : Nat}

theorem mmap_refused {e : Errno}
    (h : mmapRefusal address length prot mapflags file offset = some e) :
    (∀ as m, addressSpaceMmap as address length prot mapflags file offset m = (.error e, as, m)) ∧
    (∀ as m, mmapAllocs as address length prot mapflags file offset m = []) ∧
    ∀ mem (v : View), v.mmap mem address length prot mapflags file offset = (.error e, v) := by
  unfold mmapRefusal at h
  unfold addressSpaceMmap mmapAllocs View.mmap
  split at h
  · next hbad =>
    cases h
    simp only [if_pos hbad, implies_true, and_self]
  next hgood =>
  split at h
  · next hbad =>
    cases h
    simp only [if_neg hgood, if_pos hbad, implies_true, and_self]
  next hgood' =>
  split at h
  · next hbad =>
    cases h
    rcases hbad with hbad | hbad
    · simp only [if_neg hgood, if_neg hgood', if_pos hbad, implies_true, and_self]
    · simp only [if_neg hgood, if_neg hgood', if_pos hbad, ite_self, implies_true, and_self]
  · cases h

/-- The arguments of a call that `mmap` does not refuse. -/
structure MmapArgs (address length prot mapflags : Nat) (file : Option File) (offset : Nat) :
    Prop where
  valid : ¬ mmapInvalid length prot mapflags offset
  mappable : ¬ (mapflags &&& mapAnonymous = 0 ∧ mappable file = false)
  offset : ¬ 2 ^ 64 - 1 - pageUp length < offset
  aligned : ¬ pageOffset address ≠ 0

theorem mmapRefusal_none (h : mmapRefusal address length prot mapflags file offset = none) :
    MmapArgs address length prot mapflags file offset := by
  unfold mmapRefusal at h
  split at h
  · cases h
  next hvalid =>
  split at h
  · cases h
  next hmap =>
  split at h
  · cases h
  next hbad =>
  exact ⟨hvalid, hmap, fun hoff => hbad (.inl hoff), fun hal => hbad (.inr hal)⟩

end Refusal

/-- **`address_space_mmap`** does to the view what `View.mmap` says, given the
memory; without it, it returns `-E_NOMEM` and does nothing. -/
theorem mmap_view (h : Owned P m as t shared rest objs) (hag : Agrees as.areas as.pages)
    (hroot : as.root ≠ 0) (hfile : ∀ f, file = some f → f.Kept rest) {address length prot : Nat}
    {res : Except Errno Nat}
    (hrun : addressSpaceMmap as address length prot mapflags file offset m = (res, as', m')) :
    (false ∈ mmapAllocs as address length prot mapflags file offset m →
      res = .error .nomem ∧ as'.view m'.mem = as.view m.mem) ∧
    (false ∉ mmapAllocs as address length prot mapflags file offset m →
      (res, as'.view m'.mem) =
        (as.view m.mem).mmap m.mem address length prot mapflags file offset) := by
  obtain ⟨t', hout⟩ := addressSpaceMmap_keeps h hrun
  have herr : ∀ e, res = .error e → as'.view m'.mem = as.view m.mem := fun e => hout.view_error hag
  cases href : mmapRefusal address length prot mapflags file offset with
  | some e =>
    obtain ⟨hmmap, hallocs, hview⟩ := mmap_refused href
    rw [hmmap] at hrun
    rw [hallocs, hview]
    cases hrun
    exact ⟨by simp, fun _ => rfl⟩
  | none =>
  have hargs := mmapRefusal_none href
  have hlen := pageUp_of_valid hargs.valid
  have hplaces : mmapPlace (as.view m.mem).areas address (pageUp length) mapflags =
      mmapPlace as.areas address (pageUp length) mapflags := mmapPlace_bare _ _ _ _
  simp only [addressSpaceMmap, if_neg hargs.valid, if_neg hargs.mappable, if_neg hargs.offset,
    if_neg hargs.aligned] at hrun
  simp only [mmapAllocs, View.mmap, if_neg hargs.valid, if_neg hargs.mappable, if_neg hargs.offset,
    if_neg hargs.aligned, hplaces]
  cases hplace : mmapPlace as.areas address (pageUp length) mapflags with
  | error e =>
    rw [hplace] at hrun
    cases hrun
    exact ⟨by simp, fun _ => rfl⟩
  | ok place =>
    obtain ⟨hpal, hbase, hend, hvac⟩ :=
      mmapPlace_ok hplace (not_not.mp hargs.aligned) hlen.2.1 hlen.2.2
    have h38 : place + pageUp length ≤ 2 ^ 38 := by
      unfold mmapEnd at hend
      omega
    generalize hkind : (if mapflags &&& mapAnonymous ≠ 0 then AreaKind.anon else AreaKind.file) =
      kind
      at hrun ⊢
    simp only [hplace] at hrun ⊢
    rcases reserve_cases as (protFlags prot) kind (show place < place + pageUp length by omega) hpal
      (by omega) h38 hvac m with ⟨hallocs, hfail⟩ | ⟨hallocs, ptr, m1, hres⟩
    · rcases hres : addressSpaceReserve as place (place + pageUp length)
          (protFlags prot) kind m with ⟨b, as1, m1⟩
      rw [hres] at hfail hrun
      cases hfail
      cases hrun
      rw [hallocs]
      exact ⟨fun _ => ⟨rfl, herr _ rfl⟩, fun hno => absurd
        (List.mem_append_left _ List.mem_cons_self) hno⟩
    obtain ⟨hk1, h1, -⟩ := addressSpaceReserve_spec h hres
    have hcount := pageCount_run (a := place) hlen.2.2
    have hload : LoadsAs (mmapLoad mapflags file offset place)
        (mmapImage m.mem mapflags file offset place)
        fun m2 => ∀ f n, file = some f → f.node = some n → n.byte m2.mem = n.byte m.mem := by
      refine loadsAs_mmapLoad (fun hanon => ?_) m.mem offset place
      have hmap : mappable file = true := by simpa [hanon] using hargs.mappable
      cases file with
      | none => cases hmap
      | some f =>
        obtain ⟨n, hreads, -⟩ := (hfile f rfl).reads hmap
        exact ⟨f, n, rfl, hreads⟩
    have hkept : ∀ {m1 m2 : Machine}, Keeps rest m1 m2 →
        (∀ f n, file = some f → f.node = some n → n.byte m1.mem = n.byte m.mem) →
        ∀ f n, file = some f → f.node = some n → n.byte m2.mem = n.byte m.mem := by
      intro m1 m2 hk hgood f n hf hn
      rw [((hfile f hf).blocks n hn).byte_eq hk, hgood f n hf hn]
    rcases hadd : addPages (protFlags prot)
        (mmapLoad mapflags file offset place) (pageCount place (place + pageUp length)) place
        (as.reserve ⟨ptr, place, place + pageUp length, protFlags prot, kind⟩) m1 with ⟨b, as2, m2⟩
    obtain ⟨hflags, hleaf⟩ := flagsOk_protFlags hargs.valid
    have hview := addPages_view hload hkept hflags.user hleaf _ _ _ _ _ h1 hroot
      (hkept hk1.part fun _ _ _ _ => rfl) hpal (by omega)
      (fun p hp => by have := hag.outside_of_vacant hvac hp; omega) hadd
    obtain ⟨t2, new, hshape, -⟩ :=
      addPages_spec (fills_mmapLoad mapflags file offset place) _ _ _ _ _
      h1 hadd
    have hfail : b = false → res = .error .nomem := by
      rintro rfl
      simp only [hres, hadd] at hrun
      exact (congrArg Prod.fst hrun).symm
    simp only [hres, hallocs, List.mem_append, List.mem_singleton, Bool.false_eq_true, false_or]
    refine ⟨fun hno => ?_, fun hyes => ?_⟩
    · have hnomem := hfail (hview.1 (.inl hno))
      exact ⟨hnomem, herr _ hnomem⟩
    cases hnew : newPages (protFlags prot) (mmapImage m.mem mapflags file offset place)
        (pageCount place (place + pageUp length)) place with
    | none =>
      have hnomem := hfail (hview.1 (.inr hnew))
      rw [herr _ hnomem, hnomem]
    | some images =>
      obtain ⟨rfl, hpages⟩ := hview.2 images hyes hnew
      simp only [hres, hadd] at hrun
      cases hrun
      have hareas :
          as'.areas = as.areas ++ [⟨ptr, place, place + pageUp length, protFlags prot, kind⟩] := by
        rw [hshape]
        rfl
      refine Prod.ext rfl (View.ext ?_ (hpages.trans (congrArg (· ++ images) hk1.images)) ?_ ?_)
      · rw [AddressSpace.view, hareas, List.map_append]
        rfl
      · rw [hshape]
        rfl
      · rw [hshape]
        rfl

end Mmap

/-! ## Unmapping -/

section Munmap

variable {areas : List VmArea} {start split : Nat}

variable {a : VmArea}

theorem pinned_eq_false : View.pinned start stop a = false ↔
    (a.stop ≤ start ∨ stop ≤ a.start) ∨ a.kind = .anon ∨ a.kind = .file := by
  simp only [View.pinned, Bool.and_eq_false_iff, Bool.not_eq_false', Bool.or_eq_true,
    decide_eq_true_eq]

theorem pinned_eq_true : View.pinned start stop a = true ↔
    ¬(a.stop ≤ start ∨ stop ≤ a.start) ∧ a.kind ≠ .anon ∧ a.kind ≠ .file := by
  rw [← not_iff_not, Bool.not_eq_true, pinned_eq_false]
  tauto

/-- Past the range the preflight allocates nothing. -/
theorem preflightAllocs_beside (h : ∀ a ∈ areas, a.stop ≤ start ∨ stop ≤ a.start) :
    preflightAllocs start stop areas m = [] := by
  induction areas with
  | nil => rfl
  | cons a areas ih =>
    rw [preflightAllocs, if_pos (h a List.mem_cons_self)]
    exact ih fun b hb => h b (List.mem_cons_of_mem _ hb)

/-- **The preflight** refuses a range that meets a pinned area, and else fails
only for want of the record of a middle cut. -/
theorem munmapPreflight_view (hlt : start < stop) : ∀ (areas : List VmArea),
    areas.Pairwise VmArea.Apart → ∀ m : Machine, (areas.any (View.pinned start stop) = true →
      preflightAllocs start stop areas m = [] ∧
      (munmapPreflight start stop areas 0 m).1 = .error .perm) ∧
    (areas.any (View.pinned start stop) = false →
      (false ∈ preflightAllocs start stop areas m →
      (munmapPreflight start stop areas 0 m).1 = .error .nomem) ∧
      (false ∉ preflightAllocs start stop areas m →
        ∃ split, (munmapPreflight start stop areas 0 m).1 = .ok split))
  | [], _, m => ⟨by simp, fun _ => ⟨by simp [preflightAllocs], fun _ => ⟨0, rfl⟩⟩⟩
  | a :: areas, hap, m => by
    rw [List.pairwise_cons] at hap
    have ih := munmapPreflight_view hlt areas hap.2 m
    rw [List.any_cons, munmapPreflight, preflightAllocs]
    by_cases hout : a.stop ≤ start ∨ stop ≤ a.start
    · rw [if_pos hout, if_pos hout, pinned_eq_false.mpr (.inl hout), Bool.false_or]
      exact ih
    rw [if_neg hout, if_neg hout]
    by_cases hkind : a.kind ≠ .anon ∧ a.kind ≠ .file
    · rw [if_pos hkind, if_pos hkind, pinned_eq_true.mpr ⟨hout, hkind⟩, Bool.true_or]
      exact ⟨fun _ => ⟨rfl, rfl⟩, fun hno => by cases hno⟩
    rw [if_neg hkind, if_neg hkind, pinned_eq_false.mpr (.inr (by tauto)), Bool.false_or]
    by_cases haround : a.start < start ∧ stop < a.stop
    · -- the middle cut: no other area meets the range
      have hbeside : ∀ b ∈ areas, b.stop ≤ start ∨ stop ≤ b.start := fun b hb =>
        VmArea.Around.beside haround (hap.1 b hb)
      have hnone : areas.any (View.pinned start stop) = false := by
        rw [List.any_eq_false]
        exact fun b hb => Bool.eq_false_iff.mp (pinned_eq_false.mpr (.inl (hbeside b hb)))
      rw [if_pos haround, if_pos haround, hnone]
      rcases hk : kmalloc vmAreaSize m with ⟨ptr, m1⟩
      cases ptr with
      | zero =>
        exact ⟨fun hno => absurd hno Bool.false_ne_true,
          fun _ => ⟨fun _ => rfl, fun hno => absurd List.mem_cons_self hno⟩⟩
      | succ n =>
        simp only [munmapPreflight_beside hbeside, preflightAllocs_beside hbeside]
        exact ⟨fun hno => absurd hno Bool.false_ne_true,
          fun _ => ⟨fun hno => by simp at hno, fun _ => ⟨n + 1, rfl⟩⟩⟩
    · rw [if_neg haround, if_neg haround]
      exact ih

theorem any_pinned_bare : (areas.map VmArea.bare).any (View.pinned start stop) =
    areas.any (View.pinned start stop) := by
  rw [List.any_map]
  rfl

/-- The second piece of an area begins where the range ends. -/
theorem mem_drop_cutArea {b : VmArea} (h : b ∈ (cutArea start stop split a).drop 1) :
    b.start = stop := by
  unfold cutArea at h
  split at h
  · simp at h
  split at h
  · simp at h
  split at h
  · simp only [List.drop_succ_cons, List.drop_zero, List.mem_singleton] at h
    rw [h]
  · split at h <;> simp at h

/-- The pages outside a range, seen. -/
theorem without_view (as : AddressSpace) (mem : Memory) (start stop : Nat) :
    (as.view mem).without start stop =
      (as.pages.filter (outside start stop)).map (UserPage.image mem) := by
  rw [View.without, AddressSpace.view, List.filter_map]
  rfl

/-- **`address_space_munmap`** does to the view what `View.munmap` says, given the
record for a middle cut; without it, it returns `-E_NOMEM` and does nothing. -/
theorem munmap_view (h : Owned P m as t shared rest objs) (hag : Agrees as.areas as.pages)
    {length : Nat} {res : Except Errno Nat}
    (hrun : addressSpaceMunmap as start length m = (res, as', m')) :
    (false ∈ munmapAllocs as start length m →
      res = .error .nomem ∧ as'.view m'.mem = as.view m.mem) ∧
    (false ∉ munmapAllocs as start length m →
      (res, as'.view m'.mem) = (as.view m.mem).munmap start length) := by
  obtain ⟨t', hout⟩ := addressSpaceMunmap_keeps h hag.areas_ok.apart hrun
  have herr : ∀ e, res = .error e → as'.view m'.mem = as.view m.mem := fun e => hout.view_error hag
  unfold addressSpaceMunmap at hrun
  unfold munmapAllocs View.munmap
  split at hrun
  · next hbad =>
    rw [if_pos hbad, if_pos hbad]
    cases hrun
    exact ⟨by simp, fun _ => rfl⟩
  next hbad =>
  rw [if_neg hbad, if_neg hbad]
  simp only [not_or, not_le, not_lt, ne_eq, not_not] at hbad
  have hlt : start < pageUp (start + length) := by
    rw [pageUp_eq]
    omega
  dsimp only at hrun ⊢
  generalize pageUp (start + length) = stop at hrun hlt hout ⊢
  obtain ⟨hpinned, hfree⟩ := munmapPreflight_view hlt as.areas hag.areas_ok.apart m
  have hbare : (as.view m.mem).areas.any (View.pinned start stop) = as.areas.any
    (View.pinned start stop) :=
    any_pinned_bare
  rw [hbare]
  rcases hpre : munmapPreflight start stop as.areas 0 m with ⟨r, m1⟩
  rw [hpre] at hpinned hfree hrun
  cases hany : as.areas.any (View.pinned start stop) with
  | true =>
    obtain ⟨hallocs, rfl⟩ := hpinned hany
    cases hrun
    rw [hallocs]
    exact ⟨by simp, fun _ => by rw [herr _ rfl, if_pos rfl]⟩
  | false =>
    obtain ⟨hno, hyes⟩ := hfree hany
    refine ⟨fun hf => ?_, fun hf => ?_⟩
    · obtain rfl := hno hf
      cases hrun
      exact ⟨rfl, herr _ rfl⟩
    obtain ⟨split, rfl⟩ := hyes hf
    rcases hrem : removePages as start stop m1 with ⟨as2, m2⟩
    have has2 : as2.areas = as.areas := by
      rw [removePages] at hrem
      cases hrem
      rfl
    rcases htrim : trimAreas start stop as.areas split m2 with ⟨kept, pushed, split', m3⟩
    obtain ⟨hkept, hpushed⟩ := trimAreas_bare as.areas split m2 htrim
    have hagain : trimAreas start stop pushed split' m3 = (pushed, [], split', m3) := by
      refine trimAreas_beside fun b hb => .inr ?_
      have hmem : b.bare ∈ pushed.map VmArea.bare := List.mem_map_of_mem hb
      rw [hpushed] at hmem
      obtain ⟨a, -, hba⟩ := List.mem_flatMap.mp hmem
      exact Nat.le_of_eq (mem_drop_cutArea hba).symm
    simp only [hrem, has2, htrim, hagain, List.append_nil] at hrun
    cases hrun
    obtain ⟨hun, hk⟩ := hout.ok 0 rfl
    rw [if_neg Bool.false_ne_true]
    refine Prod.ext rfl (View.ext ?_ ?_ ?_ ?_)
    · exact (List.map_append ..).trans (congrArg₂ (· ++ ·) hkept hpushed)
    · refine hk.images.trans ?_
      rw [without_view, hun.eq]
    · rw [hun.eq]
      rfl
    · rw [hun.eq]
      rfl

end Munmap

/-! ## The break -/

section Brk

variable {l₁ l₂ : List VmArea} {heap : VmArea} {requested : Nat}

variable {res : Except Errno Nat}

/-- Without a heap area nothing is moved and nothing taken out. -/
theorem bare_heap_none {areas : List VmArea} (hnone : ∀ a ∈ areas, a.kind ≠ .heap) :
    (areas.map VmArea.bare).map (fun a => if a.kind = .heap then { a with stop := stop } else a) =
      areas.map VmArea.bare ∧
    (areas.map VmArea.bare).filter (·.kind ≠ .heap) = areas.map VmArea.bare := by
  constructor
  · rw [List.map_map]
    exact List.map_congr_left fun b hb => if_neg (hnone b hb)
  refine List.filter_eq_self.mpr fun b hb => ?_
  obtain ⟨a, ha, rfl⟩ := List.mem_map.mp hb
  exact decide_eq_true (hnone a ha)

/-- The heap area with its end moved, and everything but the heap area. -/
theorem bare_heap_split (stop : Nat) (hk : heap.kind = .heap)
    (hother : ∀ b ∈ l₁ ++ l₂, b.kind ≠ .heap) : ((l₁ ++ heap :: l₂).map VmArea.bare).map
    (fun a => if a.kind = .heap then { a with stop := stop } else a) =
      (l₁ ++ { heap with stop := stop } :: l₂).map VmArea.bare ∧
    ((l₁ ++ heap :: l₂).map VmArea.bare).filter (·.kind ≠ .heap) = (l₁ ++ l₂).map VmArea.bare := by
  have h1 := @bare_heap_none stop _ fun b hb => hother b (List.mem_append_left l₂ hb)
  have h2 := @bare_heap_none stop _ fun b hb => hother b (List.mem_append_right l₁ hb)
  constructor
  · simp only [List.map_append, List.map_cons, h1.1, h2.1, VmArea.bare_kind, hk, if_true]
    rfl
  · simp only [List.map_append, List.map_cons, List.filter_append, List.filter_cons, h1.2, h2.2,
      VmArea.bare_kind, hk]
    simp

theorem any_heap {areas : List VmArea} :
    (areas.map VmArea.bare).any (·.kind = .heap) = (findHeap areas).isSome := by
  rw [List.any_map]
  cases hheap : findHeap areas with
  | none =>
    rw [Option.isSome_none, List.any_eq_false]
    exact fun a ha hyes => findHeap_none hheap a ha (of_decide_eq_true hyes)
  | some heap =>
    obtain ⟨hin, hk⟩ := findHeap_some hheap
    rw [Option.isSome_some, List.any_eq_true]
    exact ⟨heap, hin, decide_eq_true hk⟩

/-- The new pages of a growing heap, once there is a record for its area. -/
theorem brk_addPages_view {m₀ : Machine} {objs' : Multiset Nat}
    (h₀ : Owned P m₀ as t shared rest objs') (hk : Keeps (as.physicals + rest) m m₀)
    (hag : Agrees as.areas as.pages) (hroot : as.root ≠ 0) {old : Nat}
    (hv : vacant as.areas old stop = true) (hlt : old < stop) (hs : old % 4096 = 0)
    (he : stop % 4096 = 0) (hle : stop ≤ 2 ^ 38) {ok : Bool}
    (hadd : addPages heapFlags loadNothing (pageCount old stop) old as m₀ = (ok, as', m')) :
    (∃ pages, as' = { as with pages := pages }) ∧
    (false ∈ addPagesAllocs heapFlags loadNothing (pageCount old stop) old as m₀ → ok = false) ∧
    (false ∉ addPagesAllocs heapFlags loadNothing (pageCount old stop) old as m₀ → ok = true ∧
      as'.pages.map (UserPage.image m'.mem) = as.pages.map (UserPage.image m.mem) ++
        (newPages heapFlags (fun _ => some zeroPage) (pageCount old stop) old).getD []) := by
  have hcount := pageCount_eq (Nat.le_of_lt hlt) hs he
  obtain ⟨-, new, hpages, -⟩ := addPages_spec fills_loadNothing _ _ _ _ _ h₀ hadd
  obtain ⟨hno, hyes⟩ := addPages_view (loadsAs_loadNothing fun _ => True) (fun _ h => h) (by decide)
    (fun _ => by decide)
    (pageCount old stop) old as m₀ t h₀ hroot trivial hs (by omega)
    (fun p hp => by have := hag.outside_of_vacant hv hp; omega) hadd
  refine ⟨⟨_, hpages⟩, fun hf => hno (.inl hf), fun hf => ?_⟩
  rw [newPages_zero, ← hk.images]
  exact hyes _ hf (newPages_zero heapFlags _ _)

variable (h : Owned P m as t shared rest objs)

include h

theorem brkGrow_view (hr : Reserved as)
    (hroot : as.root ≠ 0) (hge : heapBase ≤ requested) (hle : requested ≤ heapBase + maxMapping)
    (hlt : pageUp as.brkEnd < pageUp requested)
    (hrun : brkGrow as requested (pageUp as.brkEnd) (pageUp requested) m = (res, as', m')) :
    (false ∈ brkGrowAllocs as (pageUp as.brkEnd) (pageUp requested) m → res = .error .nomem) ∧
    (false ∉ brkGrowAllocs as (pageUp as.brkEnd) (pageUp requested) m →
      if vacant as.areas (pageUp as.brkEnd) (pageUp requested) = false then res = .error .nomem
      else res = .ok requested ∧ as'.view m'.mem = { as.view m.mem with
        areas := if (findHeap as.areas).isSome then
            (as.areas.map VmArea.bare).map fun a => if a.kind =
            .heap then { a with stop := pageUp requested } else a
          else as.areas.map VmArea.bare ++ [⟨0, as.brkBase, pageUp requested, heapFlags, .heap⟩]
        pages := as.pages.map (UserPage.image m.mem) ++
          (newPages heapFlags (fun _ => some zeroPage)
          (pageCount (pageUp as.brkEnd) (pageUp requested))
            (pageUp as.brkEnd)).getD []
        brkEnd := requested }) := by
  have hl := hr.laid
  obtain ⟨hlo, hhi, hal⟩ := pageUp_brk hge hle
  obtain ⟨hlo', hhi', hal'⟩ := pageUp_brk hl.brk_ge hl.brk_le
  have h38 : pageUp requested ≤ 2 ^ 38 := Nat.le_trans hhi (by decide)
  unfold brkGrow at hrun
  unfold brkGrowAllocs
  by_cases hv : vacant as.areas (pageUp as.brkEnd) (pageUp requested) = false
  · simp only [if_pos hv] at hrun ⊢
    cases hrun
    exact ⟨by simp, fun _ => rfl⟩
  simp only [if_neg hv] at hrun ⊢
  have hv' : vacant as.areas (pageUp as.brkEnd) (pageUp requested) = true := by simpa using hv
  cases hheap : findHeap as.areas with
  | some heap =>
    obtain ⟨hin, hk⟩ := findHeap_some hheap
    obtain ⟨l₁, l₂, hsplit, hnot⟩ := hl.areas_ok.split hin
    rcases hadd : addPages heapFlags loadNothing
        (pageCount (pageUp as.brkEnd) (pageUp requested)) (pageUp as.brkEnd) as m with ⟨b, as1, m1⟩
    obtain ⟨⟨pages, rfl⟩, hno, hyes⟩ :=
      brk_addPages_view h (Keeps.refl _ m) hr.agrees hroot hv' hlt hal' hal h38 hadd
    simp only [hheap, hadd] at hrun
    refine ⟨fun hf => ?_, fun hf => ?_⟩
    · obtain rfl := hno hf
      exact (congrArg Prod.fst hrun).symm
    obtain ⟨rfl, hpages⟩ := hyes hf
    cases hrun
    refine ⟨rfl, View.ext ?_ hpages rfl rfl⟩
    have hmap := (bare_heap_split (pageUp requested) hk (hl.other_beside hsplit hk)).1
    simp only [AddressSpace.view, Option.isSome_some, if_true, hsplit, replace_split hnot, hmap]
  | none =>
    rcases hkm : kmalloc vmAreaSize m with ⟨fresh, m0⟩
    simp only [hheap, hkm] at hrun ⊢
    rcases h.newRecord hkm with ⟨rfl, hsame⟩ | ⟨hfresh, h0, hk0⟩
    · cases hrun
      exact ⟨fun _ => rfl, fun hno => absurd List.mem_cons_self hno⟩
    obtain ⟨n, rfl⟩ := Nat.exists_eq_succ_of_ne_zero hfresh
    rcases hadd : addPages heapFlags loadNothing
        (pageCount (pageUp as.brkEnd) (pageUp requested)) (pageUp as.brkEnd) as m0 with ⟨b, as1, m1⟩
    obtain ⟨⟨pages, rfl⟩, hno, hyes⟩ :=
      brk_addPages_view h0 hk0 hr.agrees hroot hv' hlt hal' hal h38 hadd
    simp only [hadd, List.mem_cons, Bool.false_eq_true, false_or] at hrun ⊢
    refine ⟨fun hf => ?_, fun hf => ?_⟩
    · obtain rfl := hno hf
      exact (congrArg Prod.fst hrun).symm
    obtain ⟨rfl, hpages⟩ := hyes hf
    cases hrun
    refine ⟨rfl, View.ext ?_ hpages rfl rfl⟩
    simp [AddressSpace.view, VmArea.bare]

theorem brkShrink_view (hl : Laid as) {old : Nat}
    (hrun : brkShrink as requested old stop m = (res, as', m')) :
    res = .ok requested ∧ as'.view m'.mem = { as.view m.mem with
      areas := if stop = as.brkBase then (as.areas.map VmArea.bare).filter (·.kind ≠ .heap)
        else (as.areas.map VmArea.bare).map fun a => if a.kind = .heap then { a with stop := stop }
        else a
      pages := (as.view m.mem).without stop old
      brkEnd := requested } := by
  rcases hrem : removePages as stop old m with ⟨as1, m1⟩
  obtain ⟨rfl, t1, h1, -, hk1⟩ := removePages_spec h hrem
  have hpages : ∀ {m2 : Machine}, Keeps (({ as with pages := as.pages.filter (outside stop old) } :
      AddressSpace).physicals + rest) m m2 →
      (as.pages.filter (outside stop old)).map (UserPage.image m2.mem) = (as.view m.mem).without
        stop old := by
    intro m2 hk
    rw [without_view]
    exact hk.images
  simp only [brkShrink, hrem] at hrun
  cases hheap : findHeap as.areas with
  | none =>
    have hnone := @bare_heap_none stop _ (findHeap_none hheap)
    simp only [hheap] at hrun
    cases hrun
    refine ⟨rfl, View.ext ?_ (hpages hk1) rfl rfl⟩
    rw [hnone.1, hnone.2, ite_self]
    rfl
  | some heap =>
    obtain ⟨hin, hk⟩ := findHeap_some hheap
    have hat := hl.heap_at heap hin hk
    obtain ⟨l₁, l₂, hsplit, hnot⟩ := hl.areas_ok.split hin
    have hbare := bare_heap_split stop hk (hl.other_beside hsplit hk)
    rw [← hat.2.1]
    simp only [hheap] at hrun
    split at hrun
    · next hempty =>
      have hlive : heap.ptr ∈ liveBag m1.slabs := by
        rw [h1.live, AddressSpace.records]
        refine Multiset.mem_add.mpr (.inl (Multiset.mem_add.mpr (.inr ?_)))
        exact List.mem_map_of_mem hin
      obtain ⟨-, hk2, -⟩ := h1.tabled.kfree (Multiset.cons_erase hlive).symm
      cases hrun
      refine ⟨rfl, View.ext ?_ (hpages (hk1.trans hk2)) rfl rfl⟩
      rw [if_pos hempty, hsplit, hbare.2, AddressSpace.view]
      rw [erase_split hnot]
    · next hempty =>
      cases hrun
      refine ⟨rfl, View.ext ?_ (hpages hk1) rfl rfl⟩
      rw [if_neg hempty, hsplit, hbare.1, AddressSpace.view]
      rw [replace_split hnot]

/-- **`address_space_brk`** does to the view what `View.brk` says, given the
memory; without it, it returns `-E_NOMEM` and does nothing. -/
theorem brk_view (hr : Reserved as) (hroot : as.root ≠ 0)
    (hrun : addressSpaceBrk as requested m = (res, as', m')) :
    (false ∈ brkAllocs as requested m → res = .error .nomem ∧ as'.view m'.mem = as.view m.mem) ∧
    (false ∉ brkAllocs as requested m → (res, as'.view m'.mem) = (as.view m.mem).brk
      requested) := by
  have hbase := hr.laid.brk_base
  obtain ⟨t', hout⟩ := addressSpaceBrk_keeps h hr.laid hrun
  have herr : ∀ e, res = .error e → as'.view m'.mem = as.view m.mem :=
    fun e => hout.view_error hr.agrees
  have hvb : (as.view m.mem).brkBase = as.brkBase := rfl
  have hve : (as.view m.mem).brkEnd = as.brkEnd := rfl
  have hva : (as.view m.mem).areas = as.areas.map VmArea.bare := rfl
  have hvp : (as.view m.mem).pages = as.pages.map (UserPage.image m.mem) := rfl
  unfold addressSpaceBrk at hrun
  rw [brkAllocs, View.brk, hvb, hve]
  by_cases hzero : requested = 0
  · simp only [if_pos hzero] at hrun ⊢
    cases hrun
    exact ⟨by simp, fun _ => rfl⟩
  simp only [if_neg hzero] at hrun ⊢
  by_cases hbad : requested < as.brkBase ∨ as.brkBase + maxMapping < requested
  · simp only [if_pos hbad] at hrun ⊢
    cases hrun
    exact ⟨by simp, fun _ => rfl⟩
  simp only [if_neg hbad] at hrun ⊢
  rw [not_or, not_lt, not_lt, hbase] at hbad
  rw [hva, hvp, vacant_bare, any_heap]
  by_cases hgrow : pageUp as.brkEnd < pageUp requested
  · simp only [if_pos hgrow] at hrun ⊢
    obtain ⟨hno, hyes⟩ := brkGrow_view h hr hroot hbad.1 hbad.2 hgrow hrun
    refine ⟨fun hf => ⟨hno hf, herr _ (hno hf)⟩, fun hf => ?_⟩
    have hcase := hyes hf
    split at hcase
    · next hv => rw [if_pos hv, herr _ hcase, hcase]
    next hv =>
    rw [if_neg hv, hcase.1, hcase.2]
    rfl
  simp only [if_neg hgrow] at hrun ⊢
  by_cases hshrink : pageUp requested < pageUp as.brkEnd
  · rw [if_pos hshrink] at hrun ⊢
    obtain ⟨rfl, hview⟩ := brkShrink_view h hr.laid hrun
    refine ⟨by simp, fun _ => ?_⟩
    rw [hview]
    rfl
  · rw [if_neg hshrink] at hrun ⊢
    cases hrun
    exact ⟨by simp, fun _ => rfl⟩

end Brk

end MiniCore
