import MiniCore.Platform.DtbTree
import MiniCore.Platform.DtbSafety

/-!
# MiniCore.Platform.DtbValues

What the parser computes from properties is what the tree says: numbers, ranges
and the contribution of one node, function by function (`…_lift`).  `lift` turns
the errors of the tree's meaning into stops of the parser.
-/

namespace MiniCore

open List

variable {bytes : List UInt8} {i offset : Nat}

/-- An error of the tree's meaning as a stop of the parser. -/
def lift {α : Type} (x : Except DtbError α) : Except DtbStop α := x.mapError .error

section

variable {α β : Type}

@[simp] theorem lift_ok (a : α) : lift (.ok a : Except DtbError α) = .ok a := rfl

@[simp] theorem lift_pure (a : α) : lift (pure a : Except DtbError α) = .ok a := rfl

@[simp] theorem lift_error (e : DtbError) :
    lift (.error e : Except DtbError α) = .error (.error e) := rfl

theorem lift_bind (x : Except DtbError α) (f : α → Except DtbError β) :
    lift (x >>= f) = lift x >>= fun a => lift (f a) := by
  cases x <;> rfl

theorem lift_ite {c : Prop} [Decidable c] (x y : Except DtbError α) :
    lift (if c then x else y) = if c then lift x else lift y := by
  split <;> rfl

/-- A check is a branch. -/
theorem require_bind (ok : Bool) (e : DtbError) (f : Unit → Except DtbStop α) :
    (require ok e >>= f) = if ok = true then f () else .error (.error e) := by
  cases ok <;> rfl

end

/-! ## Numbers -/

theorem foldl_bytes (bytes : List UInt8) (value : Nat) :
    bytes.foldl (fun value byte => value * 256 + byte.toNat) value =
      value * 256 ^ bytes.length + beNat bytes := by
  induction bytes generalizing value with
  | nil => simp [beNat]
  | cons b bytes ih =>
    have hbe : beNat (b :: bytes) = b.toNat * 256 ^ bytes.length + beNat bytes := by
      rw [beNat, foldl_cons, ih, Nat.zero_mul, Nat.zero_add]
    rw [foldl_cons, ih, hbe, length_cons, Nat.pow_succ', Nat.add_mul, Nat.mul_assoc,
      Nat.add_assoc]

theorem beNat_append (a b : List UInt8) : beNat (a ++ b) = beNat a * 256 ^ b.length + beNat b := by
  rw [beNat, foldl_append]
  exact foldl_bytes b (beNat a)

theorem beNat_lt (bytes : List UInt8) : beNat bytes < 256 ^ bytes.length := by
  induction bytes with
  | nil => exact Nat.one_pos
  | cons b bytes ih =>
    have hb := b.toNat_lt
    have hmul : (b.toNat + 1) * 256 ^ bytes.length ≤ 256 * 256 ^ bytes.length :=
      Nat.mul_le_mul_right _ hb
    rw [Nat.add_mul, Nat.one_mul] at hmul
    rw [← singleton_append, beNat_append, length_append, length_singleton,
      Nat.pow_add, Nat.pow_one]
    have hone : beNat [b] = b.toNat := by simp [beNat]
    rw [hone]
    omega

theorem beNat_beBytes (w n : Nat) : beNat (beBytes w n) = n % 256 ^ w := by
  induction w generalizing n with
  | zero => simp [beBytes, beNat, Nat.mod_one]
  | succ w ih =>
    have hone : beNat [UInt8.ofNat n] = n % 256 := by simp [beNat]
    rw [beBytes, beNat_append, ih, hone, length_singleton, Nat.pow_one, Nat.pow_succ',
      Nat.mod_mul]
    omega

@[simp] theorem length_beBytes (w n : Nat) : (beBytes w n).length = w := by
  induction w generalizing n with
  | zero => rfl
  | succ w ih => rw [beBytes, length_append, ih, length_singleton]

theorem or_shift (a b k : Nat) (hb : b < 2 ^ k) : a <<< k ||| b = a * 2 ^ k + b := by
  rw [← Nat.shiftLeft_add_eq_or_of_lt hb, Nat.shiftLeft_eq]

theorem readBe32_eq (h : i + 4 ≤ bytes.length) : readBe32 bytes i = .ok (cellsAt bytes i 1) := by
  unfold readBe32 cellsAt
  have hlen : 4 ≤ (bytes.drop i).length := by rw [length_drop]; omega
  match hd : bytes.drop i with
  | a :: b :: c :: d :: rest =>
    have ha := a.toNat_lt
    have hb := b.toNat_lt
    have hc := c.toNat_lt
    have hd' := d.toNat_lt
    have h1 : a.toNat <<< 24 ||| b.toNat <<< 16 = (a.toNat * 2 ^ 8 + b.toNat) <<< 16 := by
      rw [or_shift _ _ 24 (by rw [Nat.shiftLeft_eq]; omega), Nat.shiftLeft_eq, Nat.shiftLeft_eq]
      omega
    have h2 : (a.toNat * 2 ^ 8 + b.toNat) <<< 16 ||| c.toNat <<< 8 =
        ((a.toNat * 2 ^ 8 + b.toNat) * 2 ^ 8 + c.toNat) <<< 8 := by
      rw [or_shift _ _ 16 (by rw [Nat.shiftLeft_eq]; omega), Nat.shiftLeft_eq, Nat.shiftLeft_eq]
      omega
    have htake : (a :: b :: c :: d :: rest).take (1 * 4) = [a, b, c, d] := by simp
    have hbe : beNat [a, b, c, d] = ((a.toNat * 256 + b.toNat) * 256 + c.toNat) * 256 +
        d.toNat := by
      simp [beNat]
    show Except.ok (a.toNat <<< 24 ||| b.toNat <<< 16 ||| c.toNat <<< 8 ||| d.toNat) = _
    rw [h1, h2, or_shift _ _ 8 (by omega), htake, hbe]
    rfl
  | [] | [_] | [_, _] | [_, _, _] => simp [hd] at hlen

/-- A word of the blob as it was written. -/
theorem readBe32_at {rest : List UInt8} {v : Nat} (h : bytes.drop i = beBytes 4 v ++ rest)
    (hv : v < 2 ^ 32) : readBe32 bytes i = .ok v := by
  have hlen := congrArg length h
  rw [length_drop, length_append, length_beBytes] at hlen
  rw [readBe32_eq (by omega), cellsAt, h, take_left' (by simp), beNat_beBytes,
    show 256 ^ 4 = 2 ^ 32 from rfl, Nat.mod_eq_of_lt hv]

theorem cellsAt_lt {cells : Nat} (hc : cells ≤ 2) : cellsAt bytes offset cells < 2 ^ 64 := by
  have hlt := beNat_lt ((bytes.drop offset).take (cells * 4))
  have hlen : ((bytes.drop offset).take (cells * 4)).length ≤ 8 := by
    rw [length_take]
    omega
  have hpow : 256 ^ ((bytes.drop offset).take (cells * 4)).length ≤ 256 ^ 8 :=
    Nat.pow_le_pow_right (by omega) hlen
  have h64 : 256 ^ 8 = 2 ^ 64 := by decide
  unfold cellsAt
  omega

/-- Two cells are a high and a low word. -/
theorem cellsAt_two (h : offset + 8 ≤ bytes.length) :
    cellsAt bytes offset 2 = cellsAt bytes offset 1 * 2 ^ 32 + cellsAt bytes (offset + 4) 1 := by
  have hsplit : (bytes.drop offset).take (2 * 4) =
      (bytes.drop offset).take (1 * 4) ++ (bytes.drop (offset + 4)).take (1 * 4) := by
    rw [show 2 * 4 = 1 * 4 + 1 * 4 from rfl, take_add, drop_drop]
  have hlen : ((bytes.drop (offset + 4)).take (1 * 4)).length = 4 := by
    rw [length_take, length_drop]
    omega
  unfold cellsAt
  rw [hsplit, beNat_append, hlen, show 256 ^ 4 = 2 ^ 32 from rfl]

theorem cellsAt_one_lt : cellsAt bytes offset 1 < 2 ^ 32 := by
  have hlt := beNat_lt ((bytes.drop offset).take (1 * 4))
  have hlen : ((bytes.drop offset).take (1 * 4)).length ≤ 4 := by
    rw [length_take]
    omega
  have hpow : 256 ^ ((bytes.drop offset).take (1 * 4)).length ≤ 256 ^ 4 :=
    Nat.pow_le_pow_right (by omega) hlen
  have h32 : 256 ^ 4 = 2 ^ 32 := by decide
  unfold cellsAt
  omega

theorem readBe64_eq (h : i + 8 ≤ bytes.length) : readBe64 bytes i = .ok (cellsAt bytes i 2) := by
  rw [readBe64, readBe32_eq (by omega), readBe32_eq (by omega)]
  show Except.ok (cellsAt bytes i 1 <<< 32 ||| cellsAt bytes (i + 4) 1) = _
  rw [or_shift _ _ 32 cellsAt_one_lt, cellsAt_two h]

theorem readBe64_at {rest : List UInt8} {v : Nat} (h : bytes.drop i = beBytes 8 v ++ rest)
    (hv : v < 2 ^ 64) : readBe64 bytes i = .ok v := by
  have hlen := congrArg length h
  rw [length_drop, length_append, length_beBytes] at hlen
  rw [readBe64_eq (by omega), cellsAt, h, take_left' (by simp), beNat_beBytes,
    show 256 ^ 8 = 2 ^ 64 from rfl, Nat.mod_eq_of_lt hv]

/-- **Cells** are a number. -/
theorem decodeCells_eq {cells : Nat} (hc : cells ≤ 2) (h : offset + cells * 4 ≤ bytes.length) :
    decodeCells (bytes.drop offset) cells = .ok (cellsAt bytes offset cells) := by
  have hdrop : ∀ k, cellsAt (bytes.drop offset) k 1 = cellsAt bytes (offset + k) 1 := by
    intro k
    rw [cellsAt, cellsAt, drop_drop]
  have hlen : (bytes.drop offset).length = bytes.length - offset := length_drop
  rw [decodeCells, require_bind, if_pos (decide_eq_true hc)]
  obtain rfl | rfl | rfl : cells = 0 ∨ cells = 1 ∨ cells = 2 := by omega
  · simp [cellsAt, beNat, pure, Except.pure]
  · simp only [range_succ, range_zero, nil_append, foldlM_cons, foldlM_nil,
      Nat.zero_mul, readBe32_eq (show 0 + 4 ≤ (bytes.drop offset).length by omega), hdrop,
      Nat.add_zero, Nat.zero_shiftLeft, Nat.zero_or]
    rfl
  simp only [range_succ, range_zero, nil_append, cons_append, foldlM_cons,
    foldlM_nil, Nat.zero_mul, Nat.one_mul,
    readBe32_eq (show 0 + 4 ≤ (bytes.drop offset).length by omega),
    readBe32_eq (show 4 + 4 ≤ (bytes.drop offset).length by omega), hdrop, Nat.add_zero,
    Nat.zero_shiftLeft, Nat.zero_or]
  show Except.ok (cellsAt bytes offset 1 <<< 32 ||| cellsAt bytes (offset + 4) 1) = _
  rw [or_shift _ _ 32 cellsAt_one_lt, cellsAt_two h]

/-! ## Ranges -/

theorem addOverflows_iff {left right : Nat} (h : right < 2 ^ 64) :
    addOverflows left right = true ↔ 2 ^ 64 ≤ left + right := by
  rw [addOverflows, decide_eq_true_eq]
  omega

theorem addRange_lift {ranges : List PhysicalRange} {capacity base size : Nat} (h : size < 2 ^ 64) :
    addRange ranges capacity base size = lift (keepRange capacity ranges ⟨base, size⟩) := by
  unfold addRange keepRange
  by_cases h0 : size = 0
  · rw [if_pos h0, if_pos h0]
    rfl
  simp only [if_neg h0, require_bind, Bool.not_eq_true', ← Bool.not_eq_true, addOverflows_iff h,
    bne_iff_ne, lift_ite, lift_error, lift_ok]
  by_cases hover : 2 ^ 64 ≤ base + size
  · rw [if_neg (not_not_intro hover), if_pos hover]
  rw [if_pos hover, if_neg hover]
  by_cases hfull : ranges.length = capacity
  · rw [if_neg (not_not_intro hfull), if_pos hfull]
  · rw [if_pos hfull, if_neg hfull]
    rfl

section

variable {bus parent : DtbNode} {ranges : List UInt8} {size address : Nat}

/-- One entry of `ranges`. -/
def windowAt (bus parent : DtbNode) (ranges : List UInt8) (offset : Nat) : Nat × Nat × Nat :=
  (cellsAt ranges offset bus.addressCells,
    cellsAt ranges (offset + bus.addressCells * 4) parent.addressCells,
    cellsAt ranges (offset + bus.addressCells * 4 + parent.addressCells * 4) bus.sizeCells)

/-- The search through `ranges` finds the first window that holds the address. -/
theorem findRange_eq {offsets : List Nat}
    (hcells : bus.addressCells ≤ 2 ∧ parent.addressCells ≤ 2 ∧ bus.sizeCells ≤ 2)
    (haddr : address < 2 ^ 64) (h : ∀ o ∈ offsets,
      o + (bus.addressCells + parent.addressCells + bus.sizeCells) * 4 ≤ ranges.length) :
    findRange bus parent ranges size address offsets =
      match (offsets.map (windowAt bus parent ranges)).find? fun w =>
        w.1 ≤ address ∧ address + size ≤ w.1 + w.2.2 with
      | none => .error (.error .property)
      | some w =>
        if w.2.1 + (address - w.1) < 2 ^ 64 then .ok (w.2.1 + (address - w.1))
        else .error (.error .property) := by
  induction offsets with
  | nil => rfl
  | cons offset rest ih =>
    have hfit := h offset mem_cons_self
    have hrest := ih fun o ho => h o (mem_cons_of_mem _ ho)
    rw [findRange, decodeCells_eq hcells.1 (by omega), map_cons, find?_cons]
    show (decodeCells (ranges.drop (offset + bus.addressCells * 4)) parent.addressCells >>= _) = _
    rw [decodeCells_eq hcells.2.1 (by omega)]
    show (decodeCells (ranges.drop (offset + bus.addressCells * 4 + parent.addressCells * 4))
      bus.sizeCells >>= _) = _
    rw [decodeCells_eq hcells.2.2 (by omega)]
    have hiff : (cellsAt ranges offset bus.addressCells ≤ address ∧
        size ≤ cellsAt ranges (offset + bus.addressCells * 4 + parent.addressCells * 4)
        bus.sizeCells ∧ address - cellsAt ranges offset bus.addressCells ≤
          cellsAt ranges (offset + bus.addressCells * 4 + parent.addressCells * 4)
          bus.sizeCells - size) ↔
        ((windowAt bus parent ranges offset).1 ≤ address ∧ address + size ≤
          (windowAt bus parent ranges offset).1 + (windowAt bus parent ranges offset).2.2) := by
      simp only [windowAt]
      omega
    by_cases hin : (windowAt bus parent ranges offset).1 ≤ address ∧ address + size ≤
        (windowAt bus parent ranges offset).1 + (windowAt bus parent ranges offset).2.2
    · simp only [decide_eq_true hin]
      refine (if_pos (hiff.mpr hin)).trans ?_
      rw [require_bind]
      have hover : addOverflows (windowAt bus parent ranges offset).2.1
          (address - (windowAt bus parent ranges offset).1) = true ↔
          2 ^ 64 ≤ (windowAt bus parent ranges offset).2.1 +
            (address - (windowAt bus parent ranges offset).1) :=
        addOverflows_iff (by omega)
      by_cases hlt : (windowAt bus parent ranges offset).2.1 +
          (address - (windowAt bus parent ranges offset).1) < 2 ^ 64
      · have hno : addOverflows (windowAt bus parent ranges offset).2.1
            (address - (windowAt bus parent ranges offset).1) = false := by
          rw [← Bool.not_eq_true, hover]
          omega
        rw [if_pos hlt]
        refine if_pos ?_
        simpa [windowAt] using hno
      · have hyes := hover.mpr (by omega)
        rw [if_neg hlt]
        refine if_neg ?_
        simpa [windowAt] using hyes
    · simp only [decide_eq_false hin]
      refine (if_neg fun hc => hin (hiff.mp hc)).trans ?_
      exact hrest

/-- **An address goes up** as the tree says. -/
theorem translateAddress_lift {ancestors : List DtbNode} {address : Nat}
    (haddr : address < 2 ^ 64) :
    translateAddress size ancestors address = lift (physicalAddress size ancestors address) := by
  induction ancestors generalizing address with
  | nil => rfl
  | cons bus above ih =>
    cases above with
    | nil => rfl
    | cons parent above =>
      rw [translateAddress, physicalAddress]
      cases hranges : bus.ranges with
      | none => rfl
      | some ranges =>
        cases ranges with
        | nil => exact ih haddr
        | cons b bytes =>
          simp only [require_bind, lift_ite, lift_error]
          by_cases hcells : 2 < bus.addressCells ∨ 2 < parent.addressCells ∨ 2 < bus.sizeCells
          · rw [if_pos hcells]
            refine if_neg ?_
            simp only [Bool.and_eq_true, decide_eq_true_eq]
            omega
          have hle : bus.addressCells ≤ 2 ∧ parent.addressCells ≤ 2 ∧ bus.sizeCells ≤ 2 := by
            omega
          rw [if_neg hcells, if_pos (by simp [hle])]
          by_cases hentry : (bus.addressCells + parent.addressCells + bus.sizeCells) * 4 = 0 ∨
              (b :: bytes).length %
                ((bus.addressCells + parent.addressCells + bus.sizeCells) * 4) ≠ 0
          · rw [if_pos hentry]
            refine if_neg ?_
            simp only [Bool.and_eq_true, bne_iff_ne, beq_iff_eq]
            tauto
          rw [if_neg hentry, if_pos (by
            simp only [Bool.and_eq_true, bne_iff_ne, beq_iff_eq]
            tauto), findRange_eq hle haddr fun o ho => entry_fits ho, map_map]
          have hwindows : (List.range ((b :: bytes).length /
              ((bus.addressCells + parent.addressCells + bus.sizeCells) * 4))).map
              (windowAt bus parent (b :: bytes) ∘ fun i =>
                i * ((bus.addressCells + parent.addressCells + bus.sizeCells) * 4)) =
              busWindows bus parent (b :: bytes) := rfl
          rw [hwindows]
          cases (busWindows bus parent (b :: bytes)).find? fun w =>
            w.1 ≤ address ∧ address + size ≤ w.1 + w.2.2 with
          | none => rfl
          | some w =>
            by_cases hlt : w.2.1 + (address - w.1) < 2 ^ 64
            · simp only [if_pos hlt]
              exact ih hlt
            · simp only [if_neg hlt]
              rfl

end

section

variable {node : DtbNode} {ancestors : List DtbNode} {ranges : List PhysicalRange} {capacity : Nat}

/-- One tuple of `reg`. -/
def registerAt (parent : DtbNode) (reg : List UInt8) (offset : Nat) : PhysicalRange :=
  ⟨cellsAt reg offset parent.addressCells,
    cellsAt reg (offset + parent.addressCells * 4) parent.sizeCells⟩

theorem regTuples_lift {reg : List UInt8} {parent : DtbNode} {offsets : List Nat}
    (hcells : parent.addressCells ≤ 2 ∧ parent.sizeCells ≤ 2)
    (h : ∀ o ∈ offsets, o + (parent.addressCells + parent.sizeCells) * 4 ≤ reg.length) :
    regTuples reg parent ancestors capacity offsets ranges =
      lift ((offsets.map (registerAt parent reg)).foldlM (fun ranges r => do
        let base ← physicalAddress r.size ancestors r.base
        keepRange capacity ranges ⟨base, r.size⟩) ranges) := by
  induction offsets generalizing ranges with
  | nil => rfl
  | cons offset rest ih =>
    have hfit := h offset mem_cons_self
    have hin : ∀ o ∈ rest, o + (parent.addressCells + parent.sizeCells) * 4 ≤ reg.length :=
      fun o ho => h o (mem_cons_of_mem _ ho)
    rw [regTuples, decodeCells_eq hcells.1 (by omega)]
    show (decodeCells (reg.drop (offset + parent.addressCells * 4)) parent.sizeCells >>= _) = _
    rw [decodeCells_eq hcells.2 (by omega), map_cons, foldlM_cons, lift_bind, lift_bind]
    show (translateAddress _ ancestors _ >>= _) = _
    rw [translateAddress_lift (cellsAt_lt hcells.1)]
    simp only [registerAt, bind_assoc]
    refine bind_congr_ok fun base _ => ?_
    rw [addRange_lift (cellsAt_lt hcells.2)]
    exact bind_congr_ok fun _ _ => ih hin

/-- `parse_reg` keeps the ranges of the node, or fails as they do. -/
theorem parseReg_lift :
    parseReg node ancestors ranges capacity = lift (nodeRanges node ancestors capacity ranges) := by
  unfold parseReg nodeRanges
  cases node.reg with
  | none => rfl
  | some reg =>
    cases ancestors with
    | nil => rfl
    | cons parent above =>
      simp only [require_bind, lift_ite, lift_error]
      by_cases hcells : 2 < parent.addressCells ∨ 2 < parent.sizeCells
      · rw [if_pos hcells]
        refine if_neg ?_
        simp only [Bool.and_eq_true, decide_eq_true_eq]
        omega
      have hle : parent.addressCells ≤ 2 ∧ parent.sizeCells ≤ 2 := by omega
      rw [if_neg hcells, if_pos (by simp [hle])]
      by_cases htuple : (parent.addressCells + parent.sizeCells) * 4 = 0 ∨ reg = [] ∨
          reg.length % ((parent.addressCells + parent.sizeCells) * 4) ≠ 0
      · rw [if_pos htuple]
        refine if_neg ?_
        simp only [Bool.and_eq_true, bne_iff_ne, beq_iff_eq, ne_eq, length_eq_zero_iff]
        tauto
      · rw [if_neg htuple, if_pos (by
          simp only [Bool.and_eq_true, bne_iff_ne, beq_iff_eq, ne_eq, length_eq_zero_iff]
          tauto), regTuples_lift hle fun o ho => entry_fits ho, map_map]
        rfl

theorem parseFirstReg_lift : parseFirstReg node ancestors = lift (deviceWindow node ancestors) := by
  rw [parseFirstReg, deviceWindow, parseReg_lift, lift_bind]
  refine bind_congr_ok fun found _ => ?_
  cases found with
  | nil => rfl
  | cons range rest => cases rest <;> rfl

theorem optionalWord_lift {value : Option (List UInt8)} {e : DtbError} {default : Nat} :
    optionalWord value e default = lift (wordOr value e default) := by
  cases value with
  | none => rfl
  | some bytes =>
    rw [optionalWord, wordOr, require_bind, lift_ite]
    by_cases h4 : bytes.length = 4
    · rw [if_pos (by simpa using h4), if_pos h4, readBe32_eq (by omega), cellsAt, drop_zero,
        take_of_length_le (by omega)]
      rfl
    · rw [if_neg (by simpa using h4), if_neg h4]
      rfl

/-- A device: refused if its place is taken, else its window and its word. -/
theorem device_lift {ok : Bool} {e e' : DtbError} {value : Option (List UInt8)} {default : Nat}
    {f : PhysicalRange → Nat → BootInfo} : (do
      require ok e
      let window ← parseFirstReg node ancestors
      let word ← optionalWord value e' default
      return f window word : Except DtbStop BootInfo) =
    lift (if ok = true then do
      let window ← deviceWindow node ancestors
      let word ← wordOr value e' default
      return f window word else .error e) := by
  rw [require_bind, lift_ite, lift_bind, parseFirstReg_lift]
  simp only [lift_bind, optionalWord_lift]
  rfl

/-- The loop of `compatible_has` takes one string of the list in each round. -/
theorem compatibleFrom_eq (wanted : List UInt8) : ∀ {rounds : Nat} {bytes : List UInt8},
    bytes.length ≤ rounds →
    compatibleFrom wanted rounds bytes = decide (wanted ∈ stringList bytes)
  | 0, bytes, h => by
    rw [eq_nil_of_length_eq_zero (Nat.le_zero.mp h)]
    rfl
  | rounds + 1, bytes, h => by
    have hbytes : bytes.takeWhile (· != 0) ++ bytes.dropWhile (· != 0) = bytes :=
      takeWhile_append_dropWhile
    have hclean : 0 ∉ bytes.takeWhile (· != 0) := fun hmem => by
      simpa using all_eq_true.mp all_takeWhile 0 hmem
    rw [compatibleFrom]
    cases hrest : bytes.dropWhile (· != 0) with
    | nil =>
      -- no terminator is left: the list has no further string
      rw [hrest, append_nil] at hbytes
      have hnone : stringList bytes = [] := by
        rw [stringList, splitOn_eq_singleton (hbytes ▸ hclean)]
        rfl
      simp [hbytes, hnone]
    | cons b rest =>
      have hb : b = 0 := by
        have hne : bytes.dropWhile (· != 0) ≠ [] := by simp [hrest]
        simpa [hrest] using head_dropWhile_not (· != 0) hne
      rw [hrest, hb] at hbytes
      generalize bytes.takeWhile (· != 0) = string at hbytes hclean
      subst hbytes
      have hlist : stringList (string ++ 0 :: rest) = string :: stringList rest := by
        rw [stringList, splitOn_append_cons_self, splitOn_eq_singleton hclean, singleton_append,
          dropLast_cons_of_ne_nil (splitOn_ne_nil _ _)]
        rfl
      have hdrop : (string ++ 0 :: rest).drop (string.length + 1) = rest := by simp
      rw [length_append, length_cons] at h
      simp only [hdrop, compatibleFrom_eq wanted (show rest.length ≤ rounds by omega), hlist]
      by_cases heq : string = wanted
      · simp [heq]
      · simp [heq, Ne.symm heq]

theorem compatibleHas_eq (node : DtbNode) (model : String) :
    compatibleHas node model = isCompatible node model :=
  compatibleFrom_eq _ Nat.le.refl

theorem bytesEqualString_eq {string : String} (h : 0 ∉ bytesOf string) (value : List UInt8) :
    bytesEqualString value string = isString string value := by
  rw [bytesEqualString, isString, decide_eq_decide]
  constructor
  · rintro rfl
    rw [splitOn_append_cons_self, splitOn_eq_singleton h]
    rfl
  · intro hsplit
    simpa [hsplit] using (@intercalate_splitOn UInt8 value _ _ 0).symm

theorem nodeEnabled_eq (node : DtbNode) : nodeEnabled node = isEnabled node := by
  rw [nodeEnabled, isEnabled]
  cases node.status with
  | none => rfl
  | some status =>
    simp only [bytesEqualString_eq (show 0 ∉ bytesOf "okay" by decide), Option.all_some,
      bytesEqualString_eq (show 0 ∉ bytesOf "ok" by decide)]

variable {info : BootInfo}

/-- **Closing a node** adds to the boot information what the tree says. -/
theorem finishNode_lift :
    finishNode node ancestors info = lift (contribute node ancestors info) := by
  have hmemory : ∀ info, finishMemory node ancestors info = lift
      (addMemory node ancestors info) := by
    intro info
    have htype : (node.deviceType.map (bytesEqualString · "memory")).getD false =
        node.deviceType.any (isString "memory") := by
      cases node.deviceType with
      | none => rfl
      | some value => exact bytesEqualString_eq (by decide) value
    rw [finishMemory, addMemory, lift_ite, lift_bind, parseReg_lift, htype]
    rfl
  have hreserved : ∀ info,
      finishReserved node ancestors info = lift (addReserved node ancestors info) := by
    intro info
    rw [finishReserved, addReserved, lift_ite, lift_bind, parseReg_lift]
    rfl
  have huart : ∀ info, finishUart node ancestors info = lift (addUart node ancestors info) := by
    intro info
    rw [finishUart, addUart, lift_ite, device_lift, compatibleHas_eq, compatibleHas_eq]
    cases info.uartPresent <;> rfl
  have hplic : ∀ info, finishPlic node ancestors info = lift (addPlic node ancestors info) := by
    intro info
    rw [finishPlic, addPlic, lift_ite, device_lift, compatibleHas_eq, compatibleHas_eq]
    cases info.plicPresent <;> rfl
  have hvirtio : ∀ info, finishVirtio node ancestors info = lift
      (addVirtio node ancestors info) := by
    intro info
    rw [finishVirtio, addVirtio, lift_ite, device_lift, compatibleHas_eq]
    by_cases hfull : info.virtio.length = bootMaxVirtioDevices
    · simp only [hfull, bne_self_eq_false, if_true]
      rfl
    have hroom : (info.virtio.length != bootMaxVirtioDevices) = true := by simpa using hfull
    simp only [hfull, hroom, if_true, if_false]
    rfl
  rw [finishNode, contribute, lift_ite, nodeEnabled_eq]
  simp only [lift_bind, hmemory, hreserved, huart, hplic, hvirtio]
  rfl

end

/-! ## Properties -/

/-- A node after some properties. -/
def DtbNode.update (n : DtbNode) (properties : List Property) : DtbNode where
  name := n.name
  addressCells := (lastWord "#address-cells" properties).getD n.addressCells
  sizeCells := (lastWord "#size-cells" properties).getD n.sizeCells
  ranges := (lastValue "ranges" properties).or n.ranges
  reg := (lastValue "reg" properties).or n.reg
  compatible := (lastValue "compatible" properties).or n.compatible
  deviceType := (lastValue "device_type" properties).or n.deviceType
  status := (lastValue "status" properties).or n.status
  interrupts := (lastValue "interrupts" properties).or n.interrupts
  plicSourceCount := (lastValue "riscv,ndev" properties).or n.plicSourceCount
  reservedMemory := n.reservedMemory
  cpus := n.cpus

theorem describe_eq (name : List UInt8) (above : Nat) (properties : List Property) :
    describe name above properties = (newNode name above).update properties := by
  simp [describe, DtbNode.update, newNode]

theorem lastValue_cons (name : String) (p : Property) (rest : List Property) :
    lastValue name (p :: rest) = (lastValue name rest).or (lastValue name [p]) := by
  simp [lastValue]

theorem lastWord_cons (name : String) (p : Property) (rest : List Property) (default : Nat) :
    (lastWord name (p :: rest)).getD default =
      (lastWord name rest).getD ((lastWord name [p]).getD default) := by
  rw [lastWord, lastValue_cons, lastWord, lastWord]
  cases lastValue name rest <;> rfl

/-- Properties are read one after the other. -/
theorem DtbNode.update_cons (n : DtbNode) (p : Property) (rest : List Property) :
    n.update (p :: rest) = (n.update [p]).update rest := by
  simp only [update, lastWord_cons _ p rest, lastValue_cons _ p rest, Option.or_assoc]

theorem timebase_cons (cpus : Bool) (p : Property) (rest : List Property) (old : Nat) :
    timebase cpus (p :: rest) old = timebase cpus rest (timebase cpus [p] old) := by
  unfold timebase
  cases cpus with
  | false => rfl
  | true => exact lastWord_cons _ p rest old

@[simp] theorem lastValue_single (name : String) (p : Property) :
    lastValue name [p] = if p.1 = bytesOf name then some p.2 else none := by
  simp [lastValue]

@[simp] theorem lastWord_single (name : String) (p : Property) :
    lastWord name [p] = if p.1 = bytesOf name then some (beNat p.2) else none := by
  rw [lastWord, lastValue_single]
  split <;> rfl

/-- One property, looked up by its name. -/
theorem recordProperty_lift {node : DtbNode} {p : Property} {info : BootInfo} :
    recordProperty node p.1 p.2 info =
      lift (if wordsOk node.cpus [p] then .ok (node.update [p],
        { info with timebaseFrequency := timebase node.cpus [p] info.timebaseFrequency })
      else .error .property) := by
  obtain ⟨name, value⟩ := p
  have hword : value.length = 4 → readBe32 value 0 = .ok (beNat value) := by
    intro h4
    rw [readBe32_eq (by omega), cellsAt, drop_zero, take_of_length_le (by omega)]
  have hreq : ∀ {f : Nat → DtbNode × BootInfo}, (do
      require (value.length == 4) .property
      return f (← readBe32 value 0) : Except DtbStop (DtbNode × BootInfo)) =
      if value.length = 4 then .ok (f (beNat value)) else .error (.error .property) := by
    intro f
    rw [require_bind]
    by_cases h4 : value.length = 4
    · rw [if_pos (by simpa using h4), if_pos h4, hword h4]
      rfl
    · rw [if_neg (by simpa using h4), if_neg h4]
  unfold recordProperty
  by_cases h1 : name = bytesOf "#address-cells"
  · subst h1
    rw [if_pos rfl, hreq]
    simp +decide [wordsOk, isWord, DtbNode.update, timebase, lift_ite]
  by_cases h2 : name = bytesOf "#size-cells"
  · subst h2
    rw [if_neg h1, if_pos rfl, hreq]
    simp +decide [wordsOk, isWord, DtbNode.update, timebase, lift_ite]
  by_cases h3 : name = bytesOf "ranges"
  · subst h3
    rw [if_neg h1, if_neg h2, if_pos rfl]
    simp +decide [wordsOk, isWord, DtbNode.update, timebase, pure, Except.pure]
  by_cases h₄ : name = bytesOf "reg"
  · subst h₄
    rw [if_neg h1, if_neg h2, if_neg h3, if_pos rfl]
    simp +decide [wordsOk, isWord, DtbNode.update, timebase, pure, Except.pure]
  by_cases h5 : name = bytesOf "compatible"
  · subst h5
    rw [if_neg h1, if_neg h2, if_neg h3, if_neg h₄, if_pos rfl]
    simp +decide [wordsOk, isWord, DtbNode.update, timebase, pure, Except.pure]
  by_cases h6 : name = bytesOf "device_type"
  · subst h6
    rw [if_neg h1, if_neg h2, if_neg h3, if_neg h₄, if_neg h5, if_pos rfl]
    simp +decide [wordsOk, isWord, DtbNode.update, timebase, pure, Except.pure]
  by_cases h7 : name = bytesOf "status"
  · subst h7
    rw [if_neg h1, if_neg h2, if_neg h3, if_neg h₄, if_neg h5, if_neg h6, if_pos rfl]
    simp +decide [wordsOk, isWord, DtbNode.update, timebase, pure, Except.pure]
  by_cases h8 : name = bytesOf "interrupts"
  · subst h8
    rw [if_neg h1, if_neg h2, if_neg h3, if_neg h₄, if_neg h5, if_neg h6, if_neg h7, if_pos rfl]
    simp +decide [wordsOk, isWord, DtbNode.update, timebase, pure, Except.pure]
  by_cases h9 : name = bytesOf "riscv,ndev"
  · subst h9
    rw [if_neg h1, if_neg h2, if_neg h3, if_neg h₄, if_neg h5, if_neg h6, if_neg h7,
      if_neg h8, if_pos rfl]
    simp +decide [wordsOk, isWord, DtbNode.update, timebase, pure, Except.pure]
  rw [if_neg h1, if_neg h2, if_neg h3, if_neg h₄, if_neg h5, if_neg h6, if_neg h7,
    if_neg h8, if_neg h9]
  have hsame : node.update [(name, value)] = node := by
    simp [DtbNode.update, h1, h2, h3, h₄, h5, h6, h7, h8, h9]
  rw [hsame]
  by_cases hc : (node.cpus && name = bytesOf "timebase-frequency") = true
  · rw [if_pos hc, hreq]
    rw [Bool.and_eq_true, decide_eq_true_eq] at hc
    obtain ⟨hcpus, rfl⟩ := hc
    simp +decide [wordsOk, isWord, timebase, lift_ite, hcpus]
  rw [if_neg hc]
  have hwords : wordsOk node.cpus [(name, value)] = true := by
    have hword : isWord node.cpus name = false := by
      rw [isWord, Bool.eq_false_iff.mpr hc, decide_eq_false h1, decide_eq_false h2]
      rfl
    simp [wordsOk, hword]
  have htime : timebase node.cpus [(name, value)] info.timebaseFrequency =
      info.timebaseFrequency := by
    rw [Bool.and_eq_true, decide_eq_true_eq] at hc
    rw [timebase, lastWord_single]
    split
    · next hcpus => rw [if_neg fun heq => hc ⟨hcpus, heq⟩, Option.getD_none]
    · rfl
  rw [hwords, htime]
  rfl

/-- **The properties of a node** make it what the tree describes. -/
theorem recordProperties_lift {node : DtbNode} {properties : List Property} {info : BootInfo} :
    properties.foldlM (fun s p => recordProperty s.1 p.1 p.2 s.2) (node, info) =
      lift (if wordsOk node.cpus properties then .ok (node.update properties,
        { info with timebaseFrequency := timebase node.cpus properties info.timebaseFrequency })
      else .error .property) := by
  induction properties generalizing node info with
  | nil =>
    have htime : timebase node.cpus [] info.timebaseFrequency = info.timebaseFrequency := by
      cases node.cpus <;> rfl
    rw [htime]
    rfl
  | cons p rest ih =>
    have hall : wordsOk node.cpus (p :: rest) =
        (wordsOk node.cpus [p] && wordsOk node.cpus rest) := by
      simp [wordsOk]
    rw [foldlM_cons, recordProperty_lift, hall]
    cases wordsOk node.cpus [p] with
    | false => rfl
    | true =>
      refine ih.trans ?_
      rw [DtbNode.update_cons node p rest, timebase_cons _ p rest]
      rfl

end MiniCore
