import MiniCore.Platform.DtbRanges
import Mathlib.Data.List.Forall2

/-!
# MiniCore.Platform.DtbSafety

The device tree parser on arbitrary bytes: it reads nothing but the header and
the bytes the header declares, and every loop comes to an end
(`dtb_parse_safe`).

`Clean` says of a computation that it does not stray.  Each function is clean on
the values its callers hand it; only the two loops need more, a count of the
rounds left against the bytes left.
-/

namespace MiniCore

open Lib List

variable {ranges : List PhysicalRange} {base capacity i length n rounds size : Nat}
  {s s' : StructureState}

/-- No read outside the bytes at hand and no loop past its last round. -/
def Clean {α : Type} (r : Except DtbStop α) : Prop := r ≠ .error .stray

section

variable {α β : Type}

/-- A sequence is clean if its parts are, the second on what the first returns. -/
theorem Clean.bind {x : Except DtbStop α} {f : α → Except DtbStop β} (hx : Clean x)
    (hf : ∀ a, x = .ok a → Clean (f a)) : Clean (x >>= f) := by
  cases x with
  | error s =>
    intro h
    obtain rfl : s = .stray := Except.error.inj h
    exact hx rfl
  | ok a => exact hf a rfl

@[simp] theorem clean_ok (a : α) : Clean (.ok a : Except DtbStop α) := by simp [Clean]

@[simp] theorem clean_pure (a : α) : Clean (pure a : Except DtbStop α) := clean_ok a

@[simp] theorem clean_error (e : DtbError) : Clean (.error (.error e) : Except DtbStop α) := by
  simp [Clean]

@[simp] theorem clean_require (ok : Bool) (e : DtbError) : Clean (require ok e) := by
  cases ok <;> simp [Clean, require]

theorem clean_ite {c : Prop} [Decidable c] {x y : Except DtbStop α} (hx : Clean x) (hy : Clean y) :
    Clean (if c then x else y) := by
  split
  · exact hx
  · exact hy

/-- After a check the rest may rely on it. -/
theorem clean_require_bind {ok : Bool} {e : DtbError} {f : Unit → Except DtbStop β}
    (hf : ok = true → Clean (f ())) : Clean (require ok e >>= f) :=
  (clean_require ok e).bind fun _ h => hf (require_eq_ok.mp h)

end

/-! ## Reading -/

variable {bytes : List UInt8}

/-- Four bytes are there. -/
theorem readBe32_clean (h : i + 4 ≤ bytes.length) : Clean (readBe32 bytes i) := by
  unfold readBe32
  have hlen : 4 ≤ (bytes.drop i).length := by rw [length_drop]; omega
  match hd : bytes.drop i with
  | a :: b :: c :: d :: _ => exact clean_ok _
  | [] | [_] | [_, _] | [_, _, _] => simp [hd] at hlen

theorem readBe64_clean (h : i + 8 ≤ bytes.length) : Clean (readBe64 bytes i) :=
  (readBe32_clean (by omega)).bind fun _ _ =>
    (readBe32_clean (by omega)).bind fun _ _ => clean_pure _

theorem slice_clean {offset : Nat} (h : offset + length ≤ bytes.length) :
    Clean (slice bytes offset length) := by
  rw [slice, if_pos h]
  exact clean_ok _

/-- Each cell of a number lies within the data. -/
theorem decodeCells_clean {data : List UInt8} {cells : Nat} (h : cells * 4 ≤ data.length) :
    Clean (decodeCells data cells) := by
  refine clean_require_bind fun hle => ?_
  rw [decide_eq_true_eq] at hle
  have hall : ∀ (l : List Nat) (value : Nat), (∀ i ∈ l, i < cells) →
      Clean (l.foldlM (fun value i => do
        let cell ← readBe32 data (i * 4)
        return value <<< 32 ||| cell : Nat → Nat → Except DtbStop Nat) value) := by
    intro l
    induction l with
    | nil => exact fun value _ => clean_pure value
    | cons i l ih =>
      intro value hl
      have hi := hl i mem_cons_self
      rw [foldlM_cons]
      exact ((readBe32_clean (by omega)).bind fun _ _ => clean_pure _).bind fun v _ =>
        ih v fun j hj => hl j (mem_cons_of_mem _ hj)
  exact hall _ 0 fun i hi => List.mem_range.mp hi

/-- The entries of a property whose length is a multiple of the entry size. -/
theorem entry_fits {o : Nat} (ho : o ∈ (range (length / size)).map (· * size)) :
    o + size ≤ length := by
  obtain ⟨i, hi, rfl⟩ := List.mem_map.mp ho
  have hmul := Nat.mul_le_mul_right size (Nat.succ_le_of_lt (List.mem_range.mp hi))
  rw [Nat.succ_mul] at hmul
  exact hmul.trans (Nat.div_mul_le_self length size)

/-! ## Ranges -/

/-- The loop over the entries of a `ranges` property. -/
theorem findRange_clean {bus parent : DtbNode} {ranges : List UInt8} {address : Nat}
    {offsets : List Nat}
    (h : ∀ o ∈ offsets, o + (bus.addressCells + parent.addressCells + bus.sizeCells) * 4 ≤
      ranges.length) : Clean (findRange bus parent ranges size address offsets) := by
  induction offsets with
  | nil => exact clean_error _
  | cons offset rest ih =>
    have hfit := h offset mem_cons_self
    have hrest := ih fun o ho => h o (mem_cons_of_mem _ ho)
    rw [findRange]
    refine (decodeCells_clean (by rw [length_drop]; omega)).bind fun child _ => ?_
    refine (decodeCells_clean (by rw [length_drop]; omega)).bind fun above _ => ?_
    refine (decodeCells_clean (by rw [length_drop]; omega)).bind fun rangeSize _ => ?_
    split
    · exact clean_require_bind fun _ => clean_pure _
    · exact hrest

/-- The climb through the buses above a node. -/
theorem translateAddress_clean {ancestors : List DtbNode} {address : Nat} :
    Clean (translateAddress size ancestors address) := by
  induction ancestors generalizing address with
  | nil => exact clean_ok _
  | cons bus above ih =>
    cases above with
    | nil => exact clean_ok _
    | cons parent above =>
      rw [translateAddress]
      split
      · exact clean_error _
      · exact ih
      · refine clean_require_bind fun _ => clean_require_bind fun _ => ?_
        exact (findRange_clean fun o ho => entry_fits ho).bind fun _ _ => ih

theorem addRange_clean : Clean (addRange ranges capacity base size) := by
  unfold addRange
  split
  · exact clean_pure _
  · exact clean_require_bind fun _ => clean_require_bind fun _ => clean_pure _

/-- The loop over the tuples of a `reg` property. -/
theorem regTuples_clean {reg : List UInt8} {parent : DtbNode} {ancestors : List DtbNode}
    {offsets : List Nat}
    (h : ∀ o ∈ offsets, o + (parent.addressCells + parent.sizeCells) * 4 ≤ reg.length) :
    Clean (regTuples reg parent ancestors capacity offsets ranges) := by
  induction offsets generalizing ranges with
  | nil => exact clean_ok _
  | cons offset rest ih =>
    have hfit := h offset mem_cons_self
    rw [regTuples]
    refine (decodeCells_clean (by rw [length_drop]; omega)).bind fun _ _ => ?_
    refine (decodeCells_clean (by rw [length_drop]; omega)).bind fun _ _ => ?_
    refine translateAddress_clean.bind fun _ _ => addRange_clean.bind fun _ _ => ?_
    exact ih fun o ho => h o (mem_cons_of_mem _ ho)

variable {node : DtbNode} {ancestors : List DtbNode} {info : BootInfo} {view : FdtView}

theorem parseReg_clean : Clean (parseReg node ancestors ranges capacity) := by
  unfold parseReg
  split
  · exact clean_error _
  · exact clean_error _
  · refine clean_require_bind fun _ => clean_require_bind fun _ => ?_
    exact regTuples_clean fun o ho => entry_fits ho

theorem parseFirstReg_clean : Clean (parseFirstReg node ancestors) := by
  refine parseReg_clean.bind fun found _ => ?_
  split
  · exact clean_pure _
  · exact clean_error _

/-! ## Nodes -/

/-- A property that is read as a word has four bytes. -/
theorem optionalWord_clean {value : Option (List UInt8)} {e : DtbError} {default : Nat} :
    Clean (optionalWord value e default) := by
  cases value with
  | none => exact clean_ok _
  | some bytes =>
    refine clean_require_bind fun hlen => readBe32_clean ?_
    rw [beq_iff_eq] at hlen
    omega

/-- Memory, reserved memory, and the three kinds of device: a check, the window, an
optional word. -/
theorem finishNode_clean : Clean (finishNode node ancestors info) := by
  have hregs : ∀ {l n} {f : List PhysicalRange → BootInfo}, Clean (do
      return f (← parseReg node ancestors l n) : Except DtbStop BootInfo) :=
    parseReg_clean.bind fun _ _ => clean_pure _
  have hdevice : ∀ {ok : Bool} {e e' : DtbError} {value : Option (List UInt8)} {default : Nat}
      {f : PhysicalRange → Nat → BootInfo},
      Clean (do
        require ok e
        let window ← parseFirstReg node ancestors
        let word ← optionalWord value e' default
        return f window word : Except DtbStop BootInfo) := by
    intro ok e e' value default f
    exact clean_require_bind fun _ => parseFirstReg_clean.bind fun _ _ =>
      optionalWord_clean.bind fun _ _ => clean_pure _
  refine clean_ite ?_ (clean_pure _)
  refine Clean.bind (clean_ite hregs (clean_pure _)) fun _ _ => ?_
  refine Clean.bind (clean_ite hregs (clean_pure _)) fun _ _ => ?_
  refine Clean.bind (clean_ite hdevice (clean_pure _)) fun _ _ => ?_
  refine Clean.bind (clean_ite hdevice (clean_pure _)) fun _ _ => ?_
  exact clean_ite hdevice (clean_pure _)

/-- A property that sets a number has four bytes. -/
theorem recordProperty_clean {name value : List UInt8} :
    Clean (recordProperty node name value info) := by
  have hword : ∀ {f : Nat → DtbNode × BootInfo}, Clean (do
      require (value.length == 4) .property
      return f (← readBe32 value 0) : Except DtbStop (DtbNode × BootInfo)) := by
    intro f
    refine clean_require_bind fun hlen => (readBe32_clean ?_).bind fun _ _ => clean_pure _
    rw [beq_iff_eq] at hlen
    omega
  have hkeep : ∀ r : DtbNode × BootInfo, Clean (pure r : Except DtbStop _) := clean_pure
  exact clean_ite hword <| clean_ite hword <| clean_ite (hkeep _) <| clean_ite (hkeep _) <|
    clean_ite (hkeep _) <| clean_ite (hkeep _) <| clean_ite (hkeep _) <| clean_ite (hkeep _) <|
    clean_ite (hkeep _) <| clean_ite hword (hkeep _)

/-! ## The structure block -/

theorem beginNode_clean : Clean (beginNode view s) := by
  refine clean_require_bind fun _ => clean_require_bind fun _ => ?_
  split
  · exact clean_require_bind fun _ => clean_pure _
  · exact clean_pure _

theorem endNode_clean : Clean (endNode s) := by
  unfold endNode
  split
  · exact clean_error _
  · exact finishNode_clean.bind fun _ _ => clean_pure _

theorem propertyName_clean {offset : Nat} : Clean (propertyName view offset) :=
  clean_require_bind fun _ => clean_require_bind fun _ => clean_pure _

/-- The header and the value of a property lie within the block. -/
theorem property_clean : Clean (property view s) := by
  unfold property
  split
  · exact clean_error _
  refine clean_require_bind fun hwords => ?_
  rw [rangeWithin_iff] at hwords
  refine (readBe32_clean (by omega)).bind fun length _ => ?_
  refine (readBe32_clean (by omega)).bind fun nameOffset _ => ?_
  refine clean_require_bind fun hvalue => propertyName_clean.bind fun name _ => ?_
  refine (slice_clean (rangeWithin_iff.mp hvalue)).bind fun value _ => ?_
  exact recordProperty_clean.bind fun _ _ => clean_pure _

/-- **One round** reads within the structure block. -/
theorem structureRound_clean : Clean (structureRound view s) := by
  refine clean_require_bind fun htoken => ?_
  refine (readBe32_clean (rangeWithin_iff.mp htoken)).bind fun token _ => ?_
  refine clean_ite (beginNode_clean.bind fun _ _ => clean_pure _) <|
    clean_ite (endNode_clean.bind fun _ _ => clean_pure _) <|
    clean_ite (property_clean.bind fun _ _ => clean_pure _) <|
    clean_ite (clean_pure _) <| clean_ite ?_ (clean_error _)
  exact clean_require_bind fun _ => clean_pure _

/-- **The structure block is read to its end at most**: every round takes four
bytes or more. -/
theorem parseStructureFrom_clean {rounds : Nat} (hpos : 0 < rounds)
    (hrounds : view.structure'.length < s.offset + 4 * rounds) :
    Clean (parseStructureFrom view rounds s) := by
  induction rounds generalizing s with
  | zero => exact absurd hpos (Nat.lt_irrefl 0)
  | succ rounds ih =>
    rw [parseStructureFrom_succ]
    refine structureRound_clean.bind fun r hr => ?_
    cases r with
    | next s' =>
      obtain ⟨htoken, hoffset, -⟩ := structureRound_next hr
      exact ih (by omega) (by omega)
    | done info => exact clean_ok info

/-- **The reservation block is read to the end of the blob at most.** -/
theorem parseReservationsFrom_clean {offset : Nat} {reserved : List PhysicalRange}
    (hblob : view.totalSize ≤ view.blob.length) (hpos : 0 < rounds)
    (hrounds : view.totalSize < offset + 16 * rounds) :
    Clean (parseReservationsFrom view rounds offset reserved) := by
  induction rounds generalizing offset reserved with
  | zero => exact absurd hpos (Nat.lt_irrefl 0)
  | succ rounds ih =>
    refine clean_require_bind fun hin => ?_
    simp only [Bool.and_eq_true, rangeWithin_iff] at hin
    have hentry := hin.1.1
    refine (readBe64_clean (by omega)).bind fun address _ => ?_
    refine (readBe64_clean (by omega)).bind fun size _ => clean_ite (clean_pure _) ?_
    exact addRange_clean.bind fun _ _ => ih (by omega) (by omega)

/-! ## The header -/

/-- `total_size` as the header declares it; 0 if there is no header. -/
def declaredSize (blob : List UInt8) : Nat :=
  match readBe32 blob 4 with
  | .ok size => size
  | .error _ => 0

theorem declaredSize_eq {blob : List UInt8} (h : readBe32 blob 4 = .ok size) :
    declaredSize blob = size := by
  rw [declaredSize, h]

variable {blob : List UInt8}

/-- The header is there, and the blocks it declares lie within the blob. -/
theorem validateHeader_clean (hheader : 40 ≤ blob.length)
    (hsize : declaredSize blob ≤ blob.length) : Clean (validateHeader blob) := by
  have hword : ∀ i ≤ 36, Clean (readBe32 blob i) := fun i hi => readBe32_clean (by omega)
  refine (hword 0 (by omega)).bind fun magic _ => clean_require_bind fun _ => ?_
  refine (hword 4 (by omega)).bind fun totalSize htotal => ?_
  rw [declaredSize_eq htotal] at hsize
  refine (hword 8 (by omega)).bind fun structureOffset _ => ?_
  refine (hword 12 (by omega)).bind fun stringsOffset _ => ?_
  refine (hword 16 (by omega)).bind fun reservationOffset _ => ?_
  refine (hword 20 (by omega)).bind fun version _ => ?_
  refine (hword 24 (by omega)).bind fun lastCompatibleVersion _ => ?_
  refine (hword 32 (by omega)).bind fun stringsSize _ => ?_
  refine (hword 36 (by omega)).bind fun structureSize _ => ?_
  refine clean_require_bind fun _ => clean_require_bind fun _ => clean_require_bind fun hin => ?_
  simp only [Bool.and_eq_true, rangeWithin_iff] at hin
  obtain ⟨⟨⟨⟨-, hstructure⟩, hstrings⟩, -⟩, -⟩ := hin
  refine (slice_clean (by omega)).bind fun _ _ => ?_
  exact (slice_clean (by omega)).bind fun _ _ => clean_pure _

/-- What the view takes over from the header. -/
theorem validateHeader_view (h : validateHeader blob = .ok view) :
    view.blob = blob ∧ view.totalSize = declaredSize blob ∧ 40 ≤ view.totalSize := by
  simp only [validateHeader, bind_eq_ok, pure_eq_ok, require_eq_ok, exists_const] at h
  obtain ⟨magic, -, -, totalSize, htotal, so, -, sto, -, ro, -, ver, -, last, -, sts, -, ss, -, -,
    hbounds, -, structure', -, strings, -, rfl⟩ := h
  rw [Bool.and_eq_true] at hbounds
  exact ⟨rfl, (declaredSize_eq htotal).symm, of_decide_eq_true hbounds.1⟩

/-- **The parser does not stray** on bytes that have a header and reach as far
as it declares. -/
theorem dtbParse_clean (hheader : 40 ≤ blob.length) (hsize : declaredSize blob ≤ blob.length) :
    Clean (dtbParse base blob) := by
  refine clean_require_bind fun _ => (validateHeader_clean hheader hsize).bind fun view hview => ?_
  obtain ⟨rfl, htotal, -⟩ := validateHeader_view hview
  have hreserved : Clean (parseReservations view (initialInfo base view)) := by
    refine (parseReservationsFrom_clean (by omega) (by omega) ?_).bind fun _ _ => clean_pure _
    omega
  exact hreserved.bind fun info _ => parseStructureFrom_clean (by omega) (by dsimp only; omega)

/-! ## What lies behind the declared size -/

/-- A read in front of the cut. -/
theorem readBe32_take (h : i + 4 ≤ n) : readBe32 (bytes.take n) i = readBe32 bytes i := by
  unfold readBe32
  rw [drop_take]
  obtain ⟨k, hk⟩ : ∃ k, n - i = k + 4 := ⟨n - i - 4, by omega⟩
  rw [hk]
  match bytes.drop i with
  | a :: b :: c :: d :: rest => simp
  | [] | [_] | [_, _] | [_, _, _] => simp

theorem readBe64_take (h : i + 8 ≤ n) : readBe64 (bytes.take n) i = readBe64 bytes i := by
  rw [readBe64, readBe64, readBe32_take (by omega), readBe32_take (by omega)]

theorem slice_take {offset : Nat} (h : offset + length ≤ n) :
    slice (bytes.take n) offset length = slice bytes offset length := by
  have hle : offset + length ≤ (bytes.take n).length ↔ offset + length ≤ bytes.length := by
    rw [length_take]
    omega
  unfold slice
  simp only [hle, drop_take, take_take]
  rw [Nat.min_eq_left (by omega)]

theorem declaredSize_take (h : 40 ≤ n) : declaredSize (blob.take n) = declaredSize blob := by
  rw [declaredSize, declaredSize, readBe32_take (by omega)]

/-- Two computations that agree where the first steps succeed. -/
theorem bind_congr_ok {α β : Type} {x : Except DtbStop α} {f g : α → Except DtbStop β}
    (h : ∀ a, x = .ok a → f a = g a) : (x >>= f) = (x >>= g) := by
  cases x with
  | error s => rfl
  | ok a => exact h a rfl

/-- The loop over reservations reads below the declared size. -/
theorem parseReservationsFrom_congr {blob' : List UInt8} {offset : Nat}
    {reserved : List PhysicalRange}
    (h : ∀ i, i + 8 ≤ view.totalSize → readBe64 blob' i = readBe64 view.blob i) :
    parseReservationsFrom { view with blob := blob' } rounds offset reserved =
      parseReservationsFrom view rounds offset reserved := by
  induction rounds generalizing offset reserved with
  | zero => rfl
  | succ rounds ih =>
    rw [parseReservationsFrom, parseReservationsFrom]
    refine bind_congr_ok fun _ hin => ?_
    simp only [require_eq_ok, Bool.and_eq_true, rangeWithin_iff] at hin
    have hentry := hin.1.1
    dsimp only
    rw [h offset (by omega), h (offset + 8) (by omega)]
    simp only [ih]

/-- The loop over tokens reads the structure block only. -/
theorem parseStructureFrom_congr {blob' : List UInt8} :
    parseStructureFrom { view with blob := blob' } rounds s = parseStructureFrom view rounds s := by
  have hround : ∀ s, structureRound { view with blob := blob' } s = structureRound view s :=
    fun _ => rfl
  induction rounds generalizing s with
  | zero => rfl
  | succ rounds ih =>
    rw [parseStructureFrom_succ, parseStructureFrom_succ, hround]
    refine bind_congr_ok fun r _ => ?_
    cases r with
    | next s' => exact ih
    | done info => rfl

/-- The header and the blocks do not depend on bytes behind the declared size. -/
theorem validateHeader_take (hheader : 40 ≤ n) (hsize : declaredSize blob ≤ n) :
    validateHeader (blob.take n) =
      (validateHeader blob >>= fun view => pure { view with blob := blob.take n }) := by
  have hword : ∀ i ≤ 36, readBe32 (blob.take n) i = readBe32 blob i :=
    fun i hi => readBe32_take (by omega)
  unfold validateHeader
  rw [hword 0 (by omega), hword 4 (by omega), hword 8 (by omega), hword 12 (by omega),
    hword 16 (by omega), hword 20 (by omega), hword 24 (by omega), hword 32 (by omega),
    hword 36 (by omega)]
  simp only [bind_assoc, pure_bind]
  refine bind_congr_ok fun magic _ => bind_congr_ok fun _ _ => ?_
  refine bind_congr_ok fun totalSize htotal => bind_congr_ok fun structureOffset _ => ?_
  refine bind_congr_ok fun stringsOffset _ => bind_congr_ok fun reservationOffset _ => ?_
  refine bind_congr_ok fun version _ => bind_congr_ok fun lastCompatibleVersion _ => ?_
  refine bind_congr_ok fun stringsSize _ => bind_congr_ok fun structureSize _ => ?_
  refine bind_congr_ok fun _ _ => bind_congr_ok fun _ _ => bind_congr_ok fun _ hin => ?_
  rw [declaredSize_eq htotal] at hsize
  simp only [require_eq_ok, Bool.and_eq_true, rangeWithin_iff] at hin
  obtain ⟨⟨⟨⟨-, hstructure⟩, hstrings⟩, -⟩, -⟩ := hin
  rw [slice_take (by omega), slice_take (by omega)]

/-- The parser does not see what lies behind the declared size. -/
theorem dtbParse_take (hheader : 40 ≤ n) (hsize : declaredSize blob ≤ n) :
    dtbParse base (blob.take n) = dtbParse base blob := by
  unfold dtbParse
  refine bind_congr_ok fun _ _ => ?_
  rw [validateHeader_take hheader hsize]
  simp only [bind_assoc, pure_bind]
  refine bind_congr_ok fun view hview => ?_
  obtain ⟨rfl, htotal, -⟩ := validateHeader_view hview
  unfold parseReservations parseStructure
  dsimp only
  rw [parseReservationsFrom_congr fun i hi => readBe64_take (by omega)]
  refine bind_congr_ok fun info _ => ?_
  exact parseStructureFrom_congr

/-! ## The stack of open nodes and the devices found -/

/-- **The stack of open nodes has 32 places.** -/
theorem LoopState.nodes_le (hs : LoopState base blob s) : s.nodes.length ≤ fdtMaxDepth := by
  refine hs.invariant (I := fun s => s.nodes.length ≤ fdtMaxDepth) (fun _ _ _ => Nat.zero_le _) ?_
  intro view s s' _ _ h hcase
  cases hcase with
  | opened hroom hlen => omega
  | closed _ hnodes =>
    rw [hnodes, length_cons] at h
    omega
  | stays hlen => omega

/-- The window and the interrupt of one virtio node, in the round that reads the
token at its end. -/
def OneNode (base : Nat) (blob : List UInt8) (window : PhysicalRange) (irq : Nat) : Prop :=
  ∃ view s node ancestors, validateHeader blob = .ok view ∧ LoopState base blob s ∧
    readBe32 view.structure' s.offset = .ok fdtEndNode ∧ s.nodes = node :: ancestors ∧
    compatibleHas node "virtio,mmio" = true ∧ parseFirstReg node ancestors = .ok window ∧
    (node.interrupts = none ∧ irq = 0 ∨
      ∃ value, node.interrupts = some value ∧ value.length = 4 ∧ readBe32 value 0 = .ok irq)

/-- The word, or the default. -/
theorem optionalWord_eq_ok {value : Option (List UInt8)} {e : DtbError} {v : Nat}
    (h : optionalWord value e 0 = .ok v) :
    value = none ∧ v = 0 ∨ ∃ bytes, value = some bytes ∧ bytes.length = 4 ∧
      readBe32 bytes 0 = .ok v := by
  cases value with
  | none =>
    cases h
    exact .inl ⟨rfl, rfl⟩
  | some bytes =>
    simp only [optionalWord, bind_eq_ok, require_eq_ok, beq_iff_eq, exists_const] at h
    exact .inr ⟨bytes, rfl, h⟩

/-- What closing a node adds to the virtio devices: nothing, or its window and
its interrupt. -/
theorem finishNode_virtio {info' : BootInfo} (h : finishNode node ancestors info = .ok info') :
    info'.virtio = info.virtio ∧ info'.virtioIrqs = info.virtioIrqs ∨
    compatibleHas node "virtio,mmio" = true ∧ ∃ window irq,
      parseFirstReg node ancestors = .ok window ∧
      optionalWord node.interrupts .unsupported 0 = .ok irq ∧
      info'.virtio = info.virtio ++ [window] ∧ info'.virtioIrqs = info.virtioIrqs ++ [irq] := by
  have hsame : ∀ {info info' : BootInfo}, finishMemory node ancestors info = .ok info' ∨
      finishReserved node ancestors info = .ok info' ∨ finishUart node ancestors info = .ok info' ∨
      finishPlic node ancestors info = .ok info' →
      info'.virtio = info.virtio ∧ info'.virtioIrqs = info.virtioIrqs := by
    intro info info' h
    simp only [finishMemory, finishReserved, finishUart, finishPlic, ite_eq_ok, bind_eq_ok,
      pure_eq_ok] at h
    rcases h with (⟨-, _, -, rfl⟩ | ⟨-, rfl⟩) | (⟨-, _, -, rfl⟩ | ⟨-, rfl⟩) |
      (⟨-, _, -, _, -, _, -, rfl⟩ | ⟨-, rfl⟩) | (⟨-, _, -, _, -, _, -, rfl⟩ | ⟨-, rfl⟩)
    all_goals exact ⟨rfl, rfl⟩
  simp only [finishNode, ite_eq_ok, bind_eq_ok, pure_eq_ok] at h
  rcases h with ⟨-, a, ha, b, hb, c, hc, d, hd, h⟩ | ⟨-, rfl⟩
  · obtain ⟨ha1, ha2⟩ := hsame (.inl ha)
    obtain ⟨hb1, hb2⟩ := hsame (.inr (.inl hb))
    obtain ⟨hc1, hc2⟩ := hsame (.inr (.inr (.inl hc)))
    obtain ⟨hd1, hd2⟩ := hsame (.inr (.inr (.inr hd)))
    have hvirtio : d.virtio = info.virtio := by rw [hd1, hc1, hb1, ha1]
    have hirqs : d.virtioIrqs = info.virtioIrqs := by rw [hd2, hc2, hb2, ha2]
    simp only [finishVirtio, ite_eq_ok, bind_eq_ok, pure_eq_ok] at h
    rcases h with ⟨hcompat, -, -, window, hwindow, irq, hirq, rfl⟩ | ⟨-, rfl⟩
    · exact .inr ⟨hcompat, window, irq, hwindow, hirq, by rw [hvirtio], by rw [hirqs]⟩
    · exact .inl ⟨hvirtio, hirqs⟩
  · exact .inl ⟨rfl, rfl⟩

/-- Every window stands beside the interrupt of its node. -/
theorem LoopState.virtio (hs : LoopState base blob s) :
    Forall₂ (OneNode base blob) s.info.virtio s.info.virtioIrqs := by
  refine hs.invariant
    (I := fun s => Forall₂ (OneNode base blob) s.info.virtio s.info.virtioIrqs) ?_ ?_
  · intro view info hinfo
    simp only [parseReservations, bind_eq_ok, pure_eq_ok] at hinfo
    obtain ⟨reserved, -, rfl⟩ := hinfo
    exact .nil
  intro view s s' hview hloop h hcase
  cases hcase with
  | opened _ _ hinfo =>
    rw [hinfo]
    exact h
  | closed htoken hnodes hfinish =>
    rcases finishNode_virtio hfinish with ⟨hv, hi⟩ | ⟨hcompat, window, irq, hwindow, hirq, hv, hi⟩
    · rw [hv, hi]
      exact h
    rw [hv, hi]
    exact rel_append h (.cons ⟨view, s, _, _, hview, hloop, htoken, hnodes, hcompat, hwindow,
      optionalWord_eq_ok hirq⟩ .nil)
  | stays _ hinfo =>
    obtain ⟨f, hinfo⟩ := hinfo
    rw [hinfo]
    exact h

/-- **`dtb_parse` on any bytes.**  Given 40 bytes and as many as the header
declares, the parser comes to an end and sees nothing behind them, even if there
is nothing behind them; its stack never holds more than 32 nodes; and what it
accepts fits the arrays, has no empty or wrapping range, and pairs the window and
the interrupt of one and the same node. -/
theorem dtb_parse_safe (base : Nat) {blob : List UInt8} (hheader : fdtHeaderSize ≤ blob.length)
    (hsize : declaredSize blob ≤ blob.length) :
    Clean (dtbParse base (blob.take (max fdtHeaderSize (declaredSize blob)))) ∧
    dtbParse base blob = dtbParse base (blob.take (max fdtHeaderSize (declaredSize blob))) ∧
    (∀ s, LoopState base blob s → s.nodes.length ≤ fdtMaxDepth) ∧
    ∀ info, dtbParse base blob = .ok info → info.Ok ∧
      Forall₂ (OneNode base blob) info.virtio info.virtioIrqs := by
  have h40 : 40 ≤ max fdtHeaderSize (declaredSize blob) := Nat.le_max_left _ _
  have hdeclared : declaredSize blob ≤ max fdtHeaderSize (declaredSize blob) := Nat.le_max_right _ _
  have hlen : (blob.take (max fdtHeaderSize (declaredSize blob))).length =
      max fdtHeaderSize (declaredSize blob) := by
    rw [length_take]
    exact Nat.min_eq_left (Nat.max_le.mpr ⟨hheader, hsize⟩)
  refine ⟨dtbParse_clean (by rw [hlen]; exact h40) ?_, (dtbParse_take h40 hdeclared).symm, ?_, ?_⟩
  · rw [declaredSize_take h40, hlen]
    exact hdeclared
  · exact fun s hs => hs.nodes_le
  · intro info hrun
    obtain ⟨s, hs, rfl⟩ := dtbParse_last hrun
    exact ⟨dtbParse_ok hrun, hs.virtio⟩

/-- A tree with one virtio device, followed by bytes that are not part of it. -/
def virtioBlob : List UInt8 :=
  fdtBlob (fdtNode "virtio@10001000" (fdtProperty 16 (bytesOf "virtio,mmio" ++ [0]) ++
    fdtReg [⟨0x10001000, 0x1000⟩] ++ fdtProperty 27 (beBytes 4 7)))
    (fdtNames ++ bytesOf "interrupts" ++ [0]) ++ [1, 2, 3]

theorem dtb_parse_safe_virtio :
    ∃ info, dtbParse 1 virtioBlob = .ok info ∧ info.virtio = [⟨0x10001000, 0x1000⟩] ∧
      info.virtioIrqs = [7] ∧ declaredSize virtioBlob + 3 = virtioBlob.length ∧
      Forall₂ (OneNode 1 virtioBlob) info.virtio info.virtioIrqs := by
  have hfacts : (dtbParse 1 virtioBlob).toOption.map (fun info => (info.virtio, info.virtioIrqs)) =
      some ([⟨0x10001000, 0x1000⟩], [7]) := by decide +kernel
  obtain ⟨info, hinfo, hfacts⟩ := Option.map_eq_some_iff.mp hfacts
  have hrun : dtbParse 1 virtioBlob = .ok info := by
    cases hparse : dtbParse 1 virtioBlob with
    | error e => simp [hparse, Except.toOption] at hinfo
    | ok info' => simpa [hparse, Except.toOption] using hinfo
  have hlen : declaredSize virtioBlob + 3 = virtioBlob.length := by decide +kernel
  have hheader : fdtHeaderSize ≤ virtioBlob.length := by decide +kernel
  have hsafe := dtb_parse_safe 1 hheader (by omega)
  exact ⟨info, hrun, congrArg Prod.fst hfacts, congrArg Prod.snd hfacts, hlen,
    (hsafe.2.2.2 info hrun).2⟩

end MiniCore
