import MiniCore.Platform.DtbValues

/-!
# MiniCore.Platform.DtbRefine

The parser computes the boot information of the tree from any blob of it
(`dtb_parse_flattened`).

The loop over tokens is first freed of its count of rounds (`parseTokens`).  Then
each piece of the structure block is an equation: from the offset of the piece,
with what the parser has at that point, the loop does what the tree says and goes
on behind it.
-/

namespace MiniCore

open List

open DeviceTree

variable {view : FdtView} {s : StructureState} {rest : List UInt8}

variable {properties : List Property} {bytes name : List UInt8} {n offset : Nat} {α : Type}

theorem ok_bind {β : Type} (a : α) (f : α → Except DtbStop β) : (Except.ok a >>= f) = f a := rfl

theorem drop_add_of_append {l a b : List α} {i : Nat} (h : l.drop i = a ++ b) :
    l.drop (i + a.length) = b := by
  rw [← drop_drop, h, drop_left]

theorem drop_beBytes {k v : Nat} (h : bytes.drop offset = beBytes k v ++ rest) :
    bytes.drop (offset + k) = rest := by
  simpa only [length_beBytes] using drop_add_of_append h

theorem length_of_drop {l a b : List α} {i : Nat} (h : l.drop i = a ++ b) (ha : a ≠ []) :
    i + a.length + b.length = l.length := by
  have hlen := congrArg length h
  have hpos := length_pos_of_ne_nil ha
  rw [length_drop, length_append] at hlen
  omega

/-! ## The loop over tokens -/

/-- The rest of the loop, with rounds to spare. -/
def parseTokens (view : FdtView) (s : StructureState) : Except DtbStop BootInfo :=
  parseStructureFrom view (view.structure'.length + 1) s

/-- Rounds that are never used do not matter. -/
theorem parseStructureFrom_enough {n' : Nat} (hpos : 0 < n) (hpos' : 0 < n')
    (h : view.structure'.length < s.offset + 4 * n)
    (h' : view.structure'.length < s.offset + 4 * n') :
    parseStructureFrom view n s = parseStructureFrom view n' s := by
  induction n generalizing n' s with
  | zero => exact absurd hpos (Nat.lt_irrefl 0)
  | succ n ih =>
    obtain ⟨k, rfl⟩ : ∃ k, n' = k + 1 := ⟨n' - 1, by omega⟩
    rw [parseStructureFrom_succ, parseStructureFrom_succ]
    refine bind_congr_ok fun r hr => ?_
    cases r with
    | next s' =>
      obtain ⟨htoken, hoffset, -⟩ := structureRound_next hr
      exact ih (by omega) (by omega) (by omega) (by omega)
    | done info => rfl

/-- Go on after a round. -/
def Round.resume (view : FdtView) : Round → Except DtbStop BootInfo
  | .next s => parseTokens view s
  | .done info => .ok info

theorem parseTokens_round : parseTokens view s = structureRound view s >>= Round.resume view := by
  rw [parseTokens, parseStructureFrom_succ]
  refine bind_congr_ok fun r hr => ?_
  cases r with
  | next s' =>
    obtain ⟨htoken, hoffset, -⟩ := structureRound_next hr
    exact parseStructureFrom_enough (by omega) (by omega) (by omega) (by omega)
  | done info => rfl

/-- A round on a token that stands in the structure block. -/
theorem structureRound_token {t : Nat} (h : view.structure'.drop s.offset = beBytes 4 t ++ rest)
    (ht : t < 2 ^ 32) : structureRound view s =
      if t = fdtBeginNode then do
        return .next (← beginNode view { s with offset := s.offset + 4 })
      else if t = fdtEndNode then do return .next (← endNode { s with offset := s.offset + 4 })
      else if t = fdtProp then do return .next (← property view { s with offset := s.offset + 4 })
      else if t = fdtNop then .ok (.next { s with offset := s.offset + 4 })
      else if t = fdtEnd then do
        require (s.sawRoot && s.nodes.isEmpty) .struct
        return .done s.info
      else .error (.error .struct) := by
  have hlen := length_of_drop h (by simp [beBytes])
  rw [length_beBytes] at hlen
  rw [structureRound, require_bind, if_pos (rangeWithin_iff.mpr (by omega)), readBe32_at h ht]
  rfl

theorem parseTokens_begin (h : view.structure'.drop s.offset = beBytes 4 fdtBeginNode ++ rest) :
    parseTokens view s = beginNode view { s with offset := s.offset + 4 } >>= parseTokens view := by
  rw [parseTokens_round, structureRound_token h (by decide), if_pos rfl]
  simp only [bind_assoc, pure_bind]
  rfl

theorem parseTokens_endNode (h : view.structure'.drop s.offset = beBytes 4 fdtEndNode ++ rest) :
    parseTokens view s = endNode { s with offset := s.offset + 4 } >>= parseTokens view := by
  rw [parseTokens_round, structureRound_token h (by decide), if_neg (by decide), if_pos rfl]
  simp only [bind_assoc, pure_bind]
  rfl

theorem parseTokens_property (h : view.structure'.drop s.offset = beBytes 4 fdtProp ++ rest) :
    parseTokens view s = property view { s with offset := s.offset + 4 } >>= parseTokens view := by
  rw [parseTokens_round, structureRound_token h (by decide), if_neg (by decide), if_neg (by decide),
    if_pos rfl]
  simp only [bind_assoc, pure_bind]
  rfl

theorem parseTokens_end (h : view.structure'.drop s.offset = beBytes 4 fdtEnd ++ rest)
    (hroot : s.sawRoot = true) (hnodes : s.nodes = []) : parseTokens view s = .ok s.info := by
  rw [parseTokens_round, structureRound_token h (by decide), if_neg (by decide), if_neg (by decide),
    if_neg (by decide), if_neg (by decide), if_pos rfl, hroot, hnodes]
  rfl

@[simp] theorem length_fdtNops (n : Nat) : (fdtNops n).length = 4 * n := by
  induction n with
  | zero => rfl
  | succ n ih =>
    rw [fdtNops, replicate_succ, flatten_cons, length_append, length_beBytes]
    rw [fdtNops] at ih
    omega

/-- **`FDT_NOP` tokens** are passed over. -/
theorem parseTokens_nops (h : view.structure'.drop s.offset = fdtNops n ++ rest) :
    parseTokens view s = parseTokens view { s with offset := s.offset + 4 * n } := by
  induction n generalizing s with
  | zero => rfl
  | succ n ih =>
    have hsplit : view.structure'.drop s.offset = beBytes 4 fdtNop ++ (fdtNops n ++ rest) := by
      rw [h, fdtNops, replicate_succ, flatten_cons, append_assoc]
      rfl
    have hnext := drop_beBytes hsplit
    rw [parseTokens_round, structureRound_token hsplit (by decide), if_neg (by decide),
      if_neg (by decide), if_neg (by decide), if_pos rfl]
    show parseTokens view { s with offset := s.offset + 4 } = _
    rw [ih (s := { s with offset := s.offset + 4 }) hnext]
    have hoff : s.offset + 4 + 4 * n = s.offset + 4 * (n + 1) := by omega
    simp only [hoff]

/-! ## Names and values -/

theorem takeWhile_name {rest : List UInt8} (h : 0 ∉ name) :
    (name ++ 0 :: rest).takeWhile (· != 0) = name := by
  induction name with
  | nil => simp
  | cons b name ih =>
    have hb : b ≠ 0 := fun heq => h (heq ▸ mem_cons_self)
    have hrest : 0 ∉ name := fun hmem => h (mem_cons_of_mem _ hmem)
    rw [cons_append, takeWhile_cons, if_pos (by simpa using hb), ih hrest]

theorem length_fdtPad (bytes : List UInt8) : (fdtPad bytes).length = align4 bytes.length := by
  have := le_align4 bytes.length
  rw [fdtPad, length_append, length_replicate]
  omega

theorem align4_add {k : Nat} (h : n % 4 = 0) : align4 (n + k) = n + align4 k := by
  unfold align4
  omega

theorem align4_mod (n : Nat) : align4 n % 4 = 0 := by
  unfold align4
  omega

theorem propertyName_at (h : NameAt view.strings offset name) :
    propertyName view offset = .ok name ∧ offset < view.strings.length := by
  obtain ⟨hname, rest, hdrop⟩ := h
  have hlen := congrArg length hdrop
  rw [length_drop, length_append, length_cons] at hlen
  refine ⟨?_, by omega⟩
  rw [propertyName, require_bind, if_pos (by simp; omega), hdrop, takeWhile_name hname,
    require_bind, if_pos (by simp; omega)]
  rfl

theorem slice_at {part : List UInt8} (h : bytes.drop offset = part ++ rest)
    (hle : offset + part.length ≤ bytes.length) : slice bytes offset part.length = .ok part := by
  rw [slice, if_pos hle, h, take_left]

/-- A node's name is closed by its NUL, and what follows starts at a multiple of four. -/
theorem nodeName_at (hname : 0 ∉ name)
    (h : view.structure'.drop offset = fdtPad (name ++ [0]) ++ rest) (hoff : offset % 4 = 0) :
    (view.structure'.drop offset).takeWhile (· != 0) = name ∧
      offset + name.length ≠ view.structure'.length ∧
      align4 (offset + name.length + 1) = offset + align4 (name ++ [0]).length := by
  have hlen := length_of_drop h (by simp [fdtPad])
  have hpad := le_align4 (name ++ [0]).length
  rw [length_fdtPad] at hlen
  rw [length_append, length_singleton] at hlen hpad ⊢
  refine ⟨?_, by omega, by rw [Nat.add_assoc, align4_add hoff]⟩
  rw [h, fdtPad, append_assoc, append_assoc]
  exact takeWhile_name hname

/-- A property token with its header and value. -/
theorem property_at {node : DtbNode} {above : List DtbNode} {nameOffset : Nat}
    {value : List UInt8} {saw : Bool} {info : BootInfo}
    (h : view.structure'.drop offset = beBytes 4 value.length ++
      (beBytes 4 nameOffset ++ (fdtPad value ++ rest)))
    (hname : NameAt view.strings nameOffset name)
    (hblock : view.structure'.length < 2 ^ 32) (hstrings : view.strings.length < 2 ^ 32)
    (hoff : offset % 4 = 0) : property view ⟨offset, node :: above, saw, info⟩ =
      recordProperty node name value info >>= fun r =>
        .ok ⟨offset + 8 + (fdtPad value).length, r.1 :: above, saw, r.2⟩ := by
  obtain ⟨hread, hlt⟩ := propertyName_at hname
  have hlen := length_of_drop h (by simp [beBytes])
  have hnext := drop_beBytes h
  have hvalue := drop_beBytes hnext
  simp only [length_beBytes, length_append, length_fdtPad] at hlen
  have hpad := le_align4 value.length
  have hslice : slice view.structure' (offset + 8) value.length = .ok value := by
    rw [fdtPad, append_assoc] at hvalue
    exact slice_at hvalue (by omega)
  have halign : align4 (offset + 8 + value.length) = offset + 8 + (fdtPad value).length := by
    rw [length_fdtPad, align4_add (by omega)]
  simp only [property]
  rw [require_bind, if_pos (rangeWithin_iff.mpr (by omega)), readBe32_at h (by omega), ok_bind,
    readBe32_at hnext (by omega), ok_bind, require_bind, if_pos (rangeWithin_iff.mpr (by omega)),
    hread, ok_bind, hslice, ok_bind, halign]
  rfl

/-! ## Trees -/

theorem length_fdtProperty (offset : Nat) (value : List UInt8) :
    (fdtProperty offset value).length = 12 + (fdtPad value).length := by
  simp only [fdtProperty, length_append, length_beBytes]

theorem FlatProperties.length_mod {strings : List UInt8}
    (h : FlatProperties strings properties bytes) : bytes.length % 4 = 0 := by
  induction h with
  | nil => rfl
  | @cons nops offset name value rest bytes _ _ ih =>
    have := align4_mod value.length
    rw [length_append, length_append, length_fdtNops, length_fdtProperty, length_fdtPad]
    omega

theorem FlatTrees.length_mod {strings : List UInt8} {trees : List DeviceTree}
    (h : FlatTrees strings trees bytes) : bytes.length % 4 = 0 := by
  induction h with
  | nil => rfl
  | @cons nops nops' name properties children rest head inner bytes _ hprops _ _ ih ih' =>
    have := hprops.length_mod
    have := align4_mod (name ++ [0]).length
    simp only [length_append, length_fdtNops, length_beBytes, length_fdtPad] at this ⊢
    omega

variable {offset : Nat} {above : List DtbNode} {saw : Bool} {info : BootInfo}

/-- The properties of the node on top of the stack. -/
theorem parseTokens_properties {node : DtbNode}
    (hflat : FlatProperties view.strings properties bytes)
    (h : view.structure'.drop offset = bytes ++ rest) (hblock : view.structure'.length < 2 ^ 32)
    (hstrings : view.strings.length < 2 ^ 32) (hoff : offset % 4 = 0) :
    parseTokens view ⟨offset, node :: above, saw, info⟩ =
      properties.foldlM (fun s p => recordProperty s.1 p.1 p.2 s.2) (node, info) >>= fun r =>
        parseTokens view ⟨offset + bytes.length, r.1 :: above, saw, r.2⟩ := by
  induction hflat generalizing offset node info with
  | nil => rfl
  | @cons nops nameOffset name value properties bytes hname _ ih =>
    rw [append_assoc, append_assoc] at h
    rw [parseTokens_nops h]
    have htoken := drop_add_of_append h
    rw [length_fdtNops, fdtProperty] at htoken
    simp only [append_assoc] at htoken
    rw [parseTokens_property htoken]
    have hbody := drop_beBytes htoken
    rw [property_at hbody hname hblock hstrings (by omega), foldlM_cons, bind_assoc, bind_assoc]
    refine bind_congr_ok fun r _ => ?_
    have hmod := align4_mod value.length
    have hrest : view.structure'.drop (offset + 4 * nops + 4 + 8 + (fdtPad value).length) =
        bytes ++ rest := by
      have h1 := drop_beBytes hbody
      have h2 := drop_beBytes h1
      exact drop_add_of_append h2
    have hlength : (fdtNops nops ++ (fdtProperty nameOffset value ++ bytes)).length =
        4 * nops + (12 + (fdtPad value).length) + bytes.length := by
      rw [length_append, length_append, length_fdtNops, length_fdtProperty]
      omega
    rw [ok_bind, ih hrest (by rw [length_fdtPad]; omega), hlength]
    refine bind_congr_ok fun r' _ => ?_
    have hsum : offset + 4 * nops + 4 + 8 + (fdtPad value).length + bytes.length =
        offset + (4 * nops + (12 + (fdtPad value).length) + bytes.length) := by omega
    rw [hsum]

/-- Where the bytes begin, the loop collects the trees and goes on behind them. -/
def Collects (view : FdtView) (above : List DtbNode) (saw : Bool) (bytes : List UInt8)
    (trees : List DeviceTree) : Prop :=
  ∀ {offset : Nat} {info : BootInfo} {rest : List UInt8},
    view.structure'.drop offset = bytes ++ rest → offset % 4 = 0 →
    parseTokens view ⟨offset, above, saw, info⟩ =
      lift (collectAll above info trees) >>= fun info' =>
        parseTokens view ⟨offset + bytes.length, above, saw, info'⟩

/-- What comes behind the inside of a node. -/
theorem drop_inside {head inner : List UInt8} {nops : Nat}
    (h : view.structure'.drop offset = head ++
      (inner ++ (fdtNops nops ++ (beBytes 4 fdtEndNode ++ rest)))) :
    view.structure'.drop (offset + head.length + inner.length + 4 * nops + 4) = rest := by
  have h1 := drop_add_of_append h
  have h2 := drop_add_of_append h1
  have h3 := drop_add_of_append h2
  rw [length_fdtNops] at h3
  exact drop_beBytes h3

/-- What the loop does with the inside of a node, once it is open. -/
theorem parseTokens_inside {children : List DeviceTree} {head inner : List UInt8} {nops : Nat}
    (hprops : FlatProperties view.strings properties head)
    (hinner : ∀ node, Collects view (node :: above) saw inner children)
    (h : view.structure'.drop offset = head ++
      (inner ++ (fdtNops nops ++ (beBytes 4 fdtEndNode ++ rest))))
    (hblock : view.structure'.length < 2 ^ 32) (hstrings : view.strings.length < 2 ^ 32)
    (hoff : offset % 4 = 0) :
    parseTokens view ⟨offset, newNode name above.length :: above, saw, info⟩ =
      lift (collect above info (.node name properties children)) >>= fun info' =>
        parseTokens view ⟨offset + head.length + inner.length + 4 * nops + 4, above, saw,
        info'⟩ := by
  have hchildren := drop_add_of_append h
  have hnops := drop_add_of_append hchildren
  have hend := drop_add_of_append hnops
  rw [length_fdtNops] at hend
  have hhead := hprops.length_mod
  have hcpus : (newNode name above.length).cpus = (describe name above.length properties).cpus :=
    rfl
  rw [parseTokens_properties hprops h hblock hstrings hoff, recordProperties_lift, collect,
    ← describe_eq, hcpus]
  cases wordsOk (describe name above.length properties).cpus properties with
  | false => rfl
  | true =>
    rw [if_pos rfl, if_pos rfl, lift_ok, ok_bind, hinner _ hchildren (by omega),
      lift_bind, bind_assoc]
    refine bind_congr_ok fun info' _ => ?_
    rw [parseTokens_nops hnops, parseTokens_endNode hend]
    dsimp only [endNode]
    rw [finishNode_lift, bind_assoc]
    rfl

/-- The start of a node: the loop goes on behind its name.  Only the first node of
the block may be outermost, and it has no name. -/
theorem parseTokens_open (above : List DtbNode) (saw : Bool) (info : BootInfo) {nops : Nat}
    (hname : 0 ∉ name)
    (h : view.structure'.drop offset =
      fdtNops nops ++ (beBytes 4 fdtBeginNode ++ (fdtPad (name ++ [0]) ++ rest)))
    (hoff : offset % 4 = 0) (hdepth : above.length < fdtMaxDepth) :
    ∃ inside, inside = offset + 4 * nops + 4 + align4 (name ++ [0]).length ∧ inside % 4 = 0 ∧
      view.structure'.drop inside = rest ∧ parseTokens view ⟨offset, above, saw, info⟩ =
        if above = [] then
          if saw = false ∧ name = [] then
            parseTokens view ⟨inside, newNode name above.length :: above, true, info⟩
          else .error (.error .struct)
        else parseTokens view ⟨inside, newNode name above.length :: above, saw, info⟩ := by
  have htoken := drop_add_of_append h
  rw [length_fdtNops] at htoken
  have hbegin := drop_beBytes htoken
  have hbody := drop_add_of_append hbegin
  rw [length_fdtPad] at hbody
  obtain ⟨hscan, hnul, halign⟩ := nodeName_at hname hbegin (by omega)
  have hmod := align4_mod (name ++ [0]).length
  refine ⟨_, rfl, by omega, hbody, ?_⟩
  rw [parseTokens_nops h, parseTokens_begin htoken]
  simp only [beginNode, hscan]
  rw [require_bind, if_pos (by simpa using Nat.ne_of_lt hdepth), require_bind,
    if_pos (by simpa using hnul), halign]
  split
  · next hnil =>
    subst hnil
    rw [require_bind]
    cases saw <;> cases name <;> rfl
  · rfl

/-- **A list of subtrees**, below at least one open node. -/
theorem parseTokens_trees {trees : List DeviceTree} (hflat : FlatTrees view.strings trees bytes)
    (hblock : view.structure'.length < 2 ^ 32) (hstrings : view.strings.length < 2 ^ 32)
    (hnodes : above ≠ []) (hdepth : above.length + depthAll trees ≤ fdtMaxDepth) :
    Collects view above saw bytes trees := by
  intro offset info rest h hoff
  induction hflat generalizing offset above info rest with
  | nil => rfl
  | @cons nops nops' name properties children trees head inner bytes hname hprops hinner _ ih ih' =>
    simp only [depthAll, depth, fdtMaxDepth] at hdepth
    simp only [append_assoc] at h
    obtain ⟨inside, heq, hmod, hbody, hopen⟩ := parseTokens_open above saw info hname h hoff
      (by simp only [fdtMaxDepth]; omega)
    rw [hopen, if_neg hnodes, parseTokens_inside hprops ?_ hbody hblock hstrings hmod]
    · rw [collectAll, lift_bind, bind_assoc]
      refine bind_congr_ok fun info' _ => ?_
      have hhead := hprops.length_mod
      have hinner' := hinner.length_mod
      rw [ih' hnodes (by simp only [fdtMaxDepth]; omega) (drop_inside hbody) (by omega)]
      refine bind_congr_ok fun info'' _ => ?_
      rw [heq]
      simp only [length_append, length_fdtNops, length_beBytes, length_fdtPad]
      congr 2
      omega
    · intro node offset' info' rest' h' hoff'
      exact ih (cons_ne_nil _ _) (by simp only [length_cons, fdtMaxDepth]; omega) h' hoff'

/-- **The structure block** of a tree. -/
theorem parseStructure_tree {tree : DeviceTree} {nops : Nat}
    (hflat : FlatTrees view.strings [tree] bytes)
    (h : view.structure' = bytes ++ (fdtNops nops ++ beBytes 4 fdtEnd))
    (hblock : view.structure'.length < 2 ^ 32) (hstrings : view.strings.length < 2 ^ 32)
    (hdepth : tree.depth ≤ fdtMaxDepth) : parseStructure view info =
      lift (if tree.name = [] then collect [] info tree else .error .struct) := by
  have hstart : parseStructure view info = parseTokens view ⟨0, [], false, info⟩ :=
    parseStructureFrom_enough (by omega) (by omega) (by dsimp only; omega) (by dsimp only; omega)
  rw [hstart]
  cases hflat with
  | @cons nops1 nops2 name properties children _ head inner _ hname hprops hinner hrest =>
    cases hrest
    have htop : view.structure'.drop 0 = fdtNops nops1 ++ (beBytes 4 fdtBeginNode ++
        (fdtPad (name ++ [0]) ++ (head ++ (inner ++ (fdtNops nops2 ++ (beBytes 4 fdtEndNode ++
          (fdtNops nops ++ beBytes 4 fdtEnd))))))) := by
      rw [drop_zero, h]
      simp only [append_assoc, nil_append]
    simp only [depth, fdtMaxDepth] at hdepth
    obtain ⟨inside, -, hmod, hbody, hopen⟩ := parseTokens_open [] false info hname htop rfl
      (by decide)
    rw [hopen, if_pos rfl, DeviceTree.name]
    simp only [true_and]
    split
    · have hsub : ∀ node, Collects view [node] true inner children := fun node =>
        parseTokens_trees hinner hblock hstrings (cons_ne_nil _ _)
          (by simp only [length_cons, length_nil, fdtMaxDepth]; omega)
      have hend := drop_inside hbody
      have hlast := drop_add_of_append hend
      rw [length_fdtNops, ← append_nil (beBytes 4 fdtEnd)] at hlast
      rw [parseTokens_inside hprops hsub hbody hblock hstrings hmod]
      cases lift (collect [] info (.node name properties children)) with
      | error e => rfl
      | ok info' =>
        rw [ok_bind, parseTokens_nops hend]
        exact parseTokens_end hlast rfl rfl
    · rfl

/-! ## The header and the reservations -/

theorem regionsOverlap_false {a b k : Nat} (h : BlocksDisjoint a n b k) :
    regionsOverlap a n b k = false := by
  unfold BlocksDisjoint at h
  simp only [regionsOverlap, Bool.and_eq_false_iff, decide_eq_false_iff_not]
  omega

/-- The entries of the reservation block, up to its terminator. -/
theorem parseReservationsFrom_lift {rounds : Nat} {reserved entries : List PhysicalRange}
    (h : view.blob.drop offset = fdtReservations entries ++ rest)
    (hfits : offset + 16 * (entries.length + 1) ≤ view.totalSize)
    (hrounds : entries.length < rounds)
    (hblock : BlocksDisjoint offset (16 * (entries.length + 1)) view.structureOffset
      view.structure'.length)
    (hstrings : BlocksDisjoint offset (16 * (entries.length + 1)) view.stringsOffset
      view.strings.length)
    (hentries : ∀ r ∈ entries, r.base < 2 ^ 64 ∧ r.size < 2 ^ 64 ∧ ¬(r.base = 0 ∧ r.size = 0)) :
    parseReservationsFrom view rounds offset reserved =
      lift (entries.foldlM (keepRange bootMaxReservedRanges) reserved) := by
  induction entries generalizing rounds offset reserved with
  | nil =>
    obtain ⟨k, rfl⟩ : ∃ k, rounds = k + 1 := ⟨rounds - 1, by
      simp only [length_nil] at hrounds
      omega⟩
    have hzero : view.blob.drop offset = beBytes 8 0 ++ (beBytes 8 0 ++ rest) := h
    have hsecond := drop_beBytes hzero
    simp only [length_nil] at hfits hblock hstrings
    rw [parseReservationsFrom, require_bind, if_pos ?_, readBe64_at hzero (by decide), ok_bind,
      readBe64_at hsecond (by decide), ok_bind, if_pos ⟨rfl, rfl⟩]
    · rfl
    rw [regionsOverlap_false hblock, regionsOverlap_false hstrings,
      rangeWithin_iff.mpr (by omega)]
    rfl
  | cons r entries ih =>
    obtain ⟨k, rfl⟩ : ∃ k, rounds = k + 1 := ⟨rounds - 1, by omega⟩
    obtain ⟨hbase, hsize, hne⟩ := hentries r mem_cons_self
    have hentry : view.blob.drop offset =
        beBytes 8 r.base ++ (beBytes 8 r.size ++ (fdtReservations entries ++ rest)) := by
      rw [h, fdtReservations, flatMap_cons, fdtReservations]
      simp only [append_assoc]
    have hsecond := drop_beBytes hentry
    have hnext := drop_beBytes hsecond
    simp only [length_cons] at hfits hrounds hblock hstrings
    unfold BlocksDisjoint at hblock hstrings
    have hcheck : (rangeWithin view.totalSize offset 16 &&
        !regionsOverlap offset 16 view.structureOffset view.structure'.length &&
        !regionsOverlap offset 16 view.stringsOffset view.strings.length) = true := by
      rw [rangeWithin_iff.mpr (by omega),
        regionsOverlap_false (show BlocksDisjoint offset 16 _ _ by unfold BlocksDisjoint; omega),
        regionsOverlap_false (show BlocksDisjoint offset 16 _ _ by unfold BlocksDisjoint; omega)]
      rfl
    rw [parseReservationsFrom, require_bind, if_pos hcheck, readBe64_at hentry hbase, ok_bind,
      readBe64_at hsecond hsize, ok_bind, if_neg hne, addRange_lift hsize, foldlM_cons, lift_bind]
    refine bind_congr_ok fun reserved' _ => ?_
    refine ih hnext (by omega) (by omega) ?_ ?_ fun x hx => hentries x (mem_cons_of_mem _ hx)
    · unfold BlocksDisjoint
      omega
    · unfold BlocksDisjoint
      omega

theorem length_fdtReservations (entries : List PhysicalRange) :
    (fdtReservations entries).length = 16 * (entries.length + 1) := by
  induction entries with
  | nil => rfl
  | cons r entries ih =>
    rw [fdtReservations, length_append, length_beBytes] at ih ⊢
    rw [flatMap_cons, length_append, length_append, length_beBytes, length_beBytes,
      length_cons]
    omega

variable {tree : DeviceTree} {reservations : List PhysicalRange} {blob : List UInt8} {l : FdtLayout}

/-- What the parser sees of a blob. -/
def FdtLayout.seen (l : FdtLayout) (blob : List UInt8) : FdtView where
  blob := blob
  totalSize := l.totalSize
  structureOffset := l.structureOffset
  structure' := l.block
  stringsOffset := l.stringsOffset
  strings := l.strings
  reservationOffset := l.reservationOffset

theorem BlockAt.slice {total : Nat} (h : BlockAt blob total offset bytes)
    (htotal : total ≤ blob.length) : slice blob offset bytes.length = .ok bytes := by
  have := h.fits
  rw [MiniCore.slice, if_pos (by omega), h.there]

/-- **The header** leads the parser to the blocks. -/
theorem validateHeader_flattened (h : Flattened tree reservations blob l) :
    validateHeader blob = .ok (l.seen blob) := by
  obtain ⟨rest, hblob⟩ := h.header
  have hsmall := h.small
  have hb := h.block.fits
  have hs := h.strings.fits
  have hr := h.table.fits
  have hb' := h.block.behind
  have hs' := h.strings.behind
  have hr' := h.table.behind
  have hv := h.compatible
  unfold fdtMaxSize at hsmall
  rw [length_fdtReservations] at hr
  -- the words of the header, one after the other
  have h0 : blob.drop 0 = l.header ++ rest := by rw [drop_zero, ← hblob]
  simp only [FdtLayout.header, append_assoc] at h0
  have h4 := drop_beBytes h0
  have h8 := drop_beBytes h4
  have h12 := drop_beBytes h8
  have h16 := drop_beBytes h12
  have h20 := drop_beBytes h16
  have h24 := drop_beBytes h20
  have h28 := drop_beBytes h24
  have h32 := drop_beBytes h28
  have h36 := drop_beBytes h32
  have hchecks : (fdtHeaderSize ≤ l.structureOffset && fdtHeaderSize ≤ l.stringsOffset &&
      fdtHeaderSize ≤ l.reservationOffset && l.structureOffset % 4 == 0 &&
      l.reservationOffset % 8 == 0 && rangeWithin l.totalSize l.structureOffset l.block.length &&
      rangeWithin l.totalSize l.stringsOffset l.strings.length &&
      rangeWithin l.totalSize l.reservationOffset 16 &&
      !regionsOverlap l.structureOffset l.block.length l.stringsOffset l.strings.length) =
      true := by
    rw [regionsOverlap_false h.apart, rangeWithin_iff.mpr hb, rangeWithin_iff.mpr hs,
      rangeWithin_iff.mpr (by omega), h.aligned.1, h.aligned.2, decide_eq_true hb',
      decide_eq_true hs', decide_eq_true hr']
    rfl
  have hbounds : (fdtHeaderSize ≤ l.totalSize && l.totalSize ≤ fdtMaxSize) = true := by
    rw [decide_eq_true h.small, decide_eq_true (show fdtHeaderSize ≤ l.totalSize by omega)]
    rfl
  rw [validateHeader, readBe32_at h0 (by decide), ok_bind, require_bind, if_pos (by decide),
    readBe32_at h4 (by omega), ok_bind, readBe32_at h8 (by omega), ok_bind,
    readBe32_at h12 (by omega), ok_bind, readBe32_at h16 (by omega), ok_bind,
    readBe32_at h20 (by decide), ok_bind, readBe32_at h24 (by omega), ok_bind,
    readBe32_at h32 (by omega), ok_bind, readBe32_at h36 (by omega), ok_bind, require_bind,
    if_pos (by simp [fdtSupportedVersion, hv]), require_bind,
    if_pos hbounds, require_bind, if_pos hchecks, h.block.slice h.size, ok_bind,
    h.strings.slice h.size, ok_bind]
  rfl

/-- **`dtb_parse` computes what the tree says**, whichever blob of the tree it is
given: the same error, or the same boot information. -/
theorem dtb_parse_flattened {base : Nat} (hbase : base ≠ 0) (hdepth : tree.depth ≤ fdtMaxDepth)
    (h : Flattened tree reservations blob l) :
    dtbParse base blob = lift (tree.bootInfo base l.totalSize reservations) := by
  have hsmall := h.small
  have hb := h.block.fits
  have hs := h.strings.fits
  have hr := h.table.fits
  have hapart := h.apartBlock
  have hapart' := h.apartStrings
  unfold fdtMaxSize at hsmall
  rw [length_fdtReservations] at hr hapart hapart'
  have htable : (l.seen blob).blob.drop l.reservationOffset =
      fdtReservations reservations ++ blob.drop
        (l.reservationOffset + (fdtReservations reservations).length) := by
    have hsplit := take_append_drop (fdtReservations reservations).length
      (blob.drop l.reservationOffset)
    rw [h.table.there, drop_drop] at hsplit
    exact hsplit.symm
  obtain ⟨bytes, nops, hflat, htokens⟩ := h.tokens
  have hreserved : parseReservationsFrom (l.seen blob) (l.totalSize / 16 + 1)
    l.reservationOffset [] =
      lift (reservations.foldlM (keepRange bootMaxReservedRanges) []) :=
    parseReservationsFrom_lift htable hr (by omega) hapart hapart' h.entries
  have hinfo : parseReservations (l.seen blob) (initialInfo base (l.seen blob)) =
      lift (reservations.foldlM (keepRange bootMaxReservedRanges) []) >>= fun reserved =>
        .ok { initialInfo base (l.seen blob) with reserved := reserved } := by
    rw [← hreserved]
    rfl
  rw [dtbParse, require_bind, if_pos (by simpa using hbase), validateHeader_flattened h, ok_bind,
    bootInfo, lift_bind]
  refine (congrArg (· >>= _) hinfo).trans ?_
  rw [bind_assoc]
  refine bind_congr_ok fun reserved _ => ?_
  exact parseStructure_tree hflat htokens (by show l.block.length < _; omega)
    (by show l.strings.length < _; omega) hdepth

/-- The memory, and a serial port behind a bus that moves it. -/
def busTree : DeviceTree :=
  .node [] [] [.node (bytesOf "memory") [(bytesOf "device_type", bytesOf "memory" ++ [0]),
      (bytesOf "status", bytesOf "okay" ++ [0]),
      (bytesOf "reg", beBytes 8 0x80000000 ++ beBytes 4 0x8000000)] [],
    .node (bytesOf "soc")
      [(bytesOf "ranges", beBytes 8 0 ++ beBytes 8 0x10000000 ++ beBytes 4 0x10000)]
      [.node (bytesOf "uart") [(bytesOf "reg", beBytes 8 0x1000 ++ beBytes 4 0x100),
        (bytesOf "compatible", bytesOf "vendor,uart" ++ [0] ++ (bytesOf "ns16550a" ++ [0]))] []]]

/-- Its strings block, the names in an order of its own. -/
def busStrings : List UInt8 :=
  bytesOf "compatible" ++ [0] ++ (bytesOf "ranges" ++ [0]) ++ (bytesOf "reg" ++ [0]) ++
    (bytesOf "device_type" ++ [0]) ++ (bytesOf "status" ++ [0])

def uartTokens : List UInt8 :=
  fdtNops 2 ++ (beBytes 4 fdtBeginNode ++ (fdtPad (bytesOf "uart" ++ [0]) ++
    ((fdtNops 0 ++ (fdtProperty 18 (beBytes 8 0x1000 ++ beBytes 4 0x100) ++
      (fdtNops 1 ++ (fdtProperty 0 (bytesOf "vendor,uart" ++ [0] ++ (bytesOf "ns16550a" ++ [0])) ++
        [])))) ++
    ([] ++ (fdtNops 0 ++ (beBytes 4 fdtEndNode ++ []))))))

def socTokens : List UInt8 :=
  fdtNops 0 ++ (beBytes 4 fdtBeginNode ++ (fdtPad (bytesOf "soc" ++ [0]) ++
    ((fdtNops 0 ++ (fdtProperty 11 (beBytes 8 0 ++ beBytes 8 0x10000000 ++ beBytes 4 0x10000) ++
    [])) ++ (uartTokens ++ (fdtNops 1 ++ (beBytes 4 fdtEndNode ++ []))))))

def memoryTokens : List UInt8 :=
  fdtNops 1 ++ (beBytes 4 fdtBeginNode ++ (fdtPad (bytesOf "memory" ++ [0]) ++
    ((fdtNops 0 ++ (fdtProperty 22 (bytesOf "memory" ++ [0]) ++
      (fdtNops 0 ++ (fdtProperty 34 (bytesOf "okay" ++ [0]) ++
        (fdtNops 0 ++ (fdtProperty 18 (beBytes 8 0x80000000 ++ beBytes 4 0x8000000) ++ [])))))) ++
    ([] ++ (fdtNops 0 ++ (beBytes 4 fdtEndNode ++ socTokens))))))

def rootTokens : List UInt8 :=
  fdtNops 0 ++ (beBytes 4 fdtBeginNode ++ (fdtPad ([] ++ [0]) ++ ([] ++
    (memoryTokens ++ (fdtNops 0 ++ (beBytes 4 fdtEndNode ++ []))))))

theorem busTree_tokens : FlatTrees busStrings [busTree] rootTokens := by
  have hcompatible : NameAt busStrings 0 (bytesOf "compatible") := ⟨by decide +kernel, _, rfl⟩
  have hranges : NameAt busStrings 11 (bytesOf "ranges") := ⟨by decide +kernel, _, rfl⟩
  have hreg : NameAt busStrings 18 (bytesOf "reg") := ⟨by decide +kernel, _, rfl⟩
  have htype : NameAt busStrings 22 (bytesOf "device_type") := ⟨by decide +kernel, _, rfl⟩
  have hstatus : NameAt busStrings 34 (bytesOf "status") := ⟨by decide +kernel, _, rfl⟩
  refine .cons 0 0 (by decide) .nil (.cons 1 0 (by decide +kernel)
    (.cons 0 htype (.cons 0 hstatus (.cons 0 hreg .nil))) .nil ?_) .nil
  refine .cons 0 1 (by decide +kernel) (.cons 0 hranges .nil) ?_ .nil
  exact .cons 2 0 (by decide +kernel) (.cons 0 hreg (.cons 1 hcompatible .nil)) .nil .nil

def busLayout : FdtLayout where
  totalSize := 349
  structureOffset := 72
  stringsOffset := 308
  reservationOffset := 40
  lastCompatibleVersion := 16
  bootCpu := 0
  block := rootTokens ++ (fdtNops 0 ++ beBytes 4 fdtEnd)
  strings := busStrings

def busBlob : List UInt8 :=
  busLayout.header ++ (fdtReservations [⟨0x80000000, 0x1000⟩] ++ (busLayout.block ++ busStrings))

theorem busBlob_flattened : Flattened busTree [⟨0x80000000, 0x1000⟩] busBlob busLayout where
  header := ⟨_, rfl⟩
  compatible := by decide
  size := by decide +kernel
  small := by decide
  block := ⟨by decide, by decide +kernel, by decide +kernel⟩
  strings := ⟨by decide, by decide +kernel, by decide +kernel⟩
  table := ⟨by decide, by decide +kernel, by decide +kernel⟩
  aligned := by decide
  apart := .inl (by decide +kernel)
  apartBlock := .inl (by decide +kernel)
  apartStrings := .inl (by decide +kernel)
  entries := by decide
  tokens := ⟨rootTokens, 0, busTree_tokens, rfl⟩

/-- The memory is found, and the port at the address the bus gives it. -/
theorem dtb_parse_bus :
    dtbParse 1 busBlob = lift (busTree.bootInfo 1 busLayout.totalSize [⟨0x80000000, 0x1000⟩]) ∧
      (busTree.bootInfo 1 busLayout.totalSize [⟨0x80000000, 0x1000⟩]).toOption.map (fun info =>
        (info.memory, info.uart, info.reserved)) =
        some ([⟨0x80000000, 0x8000000⟩], ⟨0x10001000, 0x100⟩, [⟨0x80000000, 0x1000⟩]) :=
  ⟨dtb_parse_flattened (by decide) (by decide +kernel) busBlob_flattened, by decide +kernel⟩

end MiniCore
