import MiniCore.Lib.Transition
import MiniCore.Platform.Dtb

/-!
# MiniCore.Platform.DtbRanges

What a parsed device tree guarantees: every range recorded in the boot
information is not empty and ends below 2⁶⁴, and no array overflows
(`dtbParse_ok`).

Ranges enter through `addRange` alone, so the proof follows the calls from there
up to the loop over the structure block.  What a round of that loop can do is said
once (`structureRound_next`), and every invariant of the parser is derived from it
(`LoopState.invariant`).
-/

namespace MiniCore

open Lib List

/-- Not empty, and the end is a 64-bit address. -/
structure PhysicalRange.Ok (r : PhysicalRange) : Prop where
  size_ne : r.size ≠ 0
  end_lt : r.base + r.size < 2 ^ 64

/-- An array of `capacity` good ranges at most. -/
structure RangesOk (capacity : Nat) (ranges : List PhysicalRange) : Prop where
  ok : ∀ r ∈ ranges, r.Ok
  fits : ranges.length ≤ capacity

structure BootInfo.Ok (info : BootInfo) : Prop where
  memory : RangesOk bootMaxMemoryRanges info.memory
  reserved : RangesOk bootMaxReservedRanges info.reserved
  uart : info.uartPresent = true → info.uart.Ok
  plic : info.plicPresent = true → info.plic.Ok
  virtio : RangesOk bootMaxVirtioDevices info.virtio
  irqs : info.virtioIrqs.length = info.virtio.length

/-! ## Stepping through the parser -/

section Steps

variable {α β : Type} {e : DtbError}

/-- A sequence succeeds if both parts do. -/
theorem bind_eq_ok {x : Except DtbStop α} {f : α → Except DtbStop β} {b : β} :
    (x >>= f) = .ok b ↔ ∃ a, x = .ok a ∧ f a = .ok b := by
  cases x with
  | error s => simp [bind, Except.bind]
  | ok a => simp [bind, Except.bind]

theorem require_eq_ok {ok : Bool} {u : Unit} : require ok e = .ok u ↔ ok = true := by
  cases ok <;> simp [require]

theorem pure_eq_ok {a b : α} : (pure a : Except DtbStop α) = .ok b ↔ a = b := by
  simp [pure, Except.pure]

theorem ite_eq_ok {c : Prop} [Decidable c] {x y : Except DtbStop α} {a : α} :
    (if c then x else y) = .ok a ↔ c ∧ x = .ok a ∨ ¬c ∧ y = .ok a := by
  by_cases hc : c <;> simp [hc]

end Steps

/-! ## Numbers -/

/-- A cell has 32 bits. -/
theorem readBe32_lt {bytes : List UInt8} {i v : Nat} (h : readBe32 bytes i = .ok v) :
    v < 2 ^ 32 := by
  unfold readBe32 at h
  split at h
  next a b c d _ _ =>
    cases h
    have ha := a.toNat_lt
    have hb := b.toNat_lt
    have hc := c.toNat_lt
    have hd := d.toNat_lt
    simp only [Nat.shiftLeft_eq]
    refine Nat.or_lt_two_pow (Nat.or_lt_two_pow (Nat.or_lt_two_pow ?_ ?_) ?_) ?_ <;> omega
  next => cases h

/-- Two cells make a 64-bit number. -/
theorem word_lt {high low : Nat} (hh : high < 2 ^ 32) (hl : low < 2 ^ 32) :
    high <<< 32 ||| low < 2 ^ 64 := by
  refine Nat.or_lt_two_pow ?_ (by omega)
  rw [Nat.shiftLeft_eq]
  omega

theorem readBe64_lt {bytes : List UInt8} {i v : Nat} (h : readBe64 bytes i = .ok v) :
    v < 2 ^ 64 := by
  simp only [readBe64, bind_eq_ok, pure_eq_ok] at h
  obtain ⟨high, hh, low, hl, rfl⟩ := h
  exact word_lt (readBe32_lt hh) (readBe32_lt hl)

/-- A number of at most two cells has 64 bits. -/
theorem decodeCells_lt {data : List UInt8} {cells v : Nat} (h : decodeCells data cells = .ok v) :
    v < 2 ^ 64 := by
  simp only [decodeCells, bind_eq_ok, require_eq_ok, decide_eq_true_eq, exists_const] at h
  obtain ⟨hle, h⟩ := h
  obtain rfl | rfl | rfl : cells = 0 ∨ cells = 1 ∨ cells = 2 := by omega
  · cases h
    decide
  · simp only [range_succ, range_zero, nil_append, foldlM_cons, foldlM_nil,
      bind_eq_ok, pure_eq_ok] at h
    obtain ⟨v, ⟨cell, hcell, rfl⟩, rfl⟩ := h
    exact word_lt (by decide) (readBe32_lt hcell)
  · simp only [range_succ, range_zero, nil_append, cons_append, foldlM_cons,
      foldlM_nil, bind_eq_ok, pure_eq_ok] at h
    obtain ⟨-, ⟨high, hhigh, rfl⟩, v, ⟨low, hlow, rfl⟩, rfl⟩ := h
    refine word_lt ?_ (readBe32_lt hlow)
    simpa using readBe32_lt hhigh

/-! ## Ranges -/

variable {node : DtbNode} {ancestors : List DtbNode} {ranges ranges' : List PhysicalRange}
  {capacity : Nat} {info info' : BootInfo} {view : FdtView}

section

variable (h : RangesOk capacity ranges)

include h

/-- There is a place for one more range. -/
theorem RangesOk.concat (hfull : ranges.length ≠ capacity) {r : PhysicalRange} (hr : r.Ok) :
    RangesOk capacity (ranges ++ [r]) := by
  have hlen := h.fits
  refine ⟨?_, ?_⟩
  · simpa [or_imp, forall_and] using ⟨h.ok, hr⟩
  · rw [length_append, length_singleton]
    omega

/-- A range that is recorded ends below 2⁶⁴. -/
theorem addRange_ok {base size : Nat} (hlt : size < 2 ^ 64)
    (hrun : addRange ranges capacity base size = .ok ranges') : RangesOk capacity ranges' := by
  unfold addRange at hrun
  split at hrun
  · cases hrun
    exact h
  next hsize =>
  simp only [bind_eq_ok, require_eq_ok, pure_eq_ok, bne_iff_ne, exists_const] at hrun
  obtain ⟨hover, hfull, rfl⟩ := hrun
  simp only [addOverflows, Bool.not_eq_true', decide_eq_false_iff_not] at hover
  exact h.concat hfull ⟨hsize, show base + size < 2 ^ 64 by omega⟩

/-- The loop over the tuples of a `reg` property. -/
theorem regTuples_ok {reg : List UInt8} {parent : DtbNode} {offsets : List Nat}
    (hrun : regTuples reg parent ancestors capacity offsets ranges = .ok ranges') :
    RangesOk capacity ranges' := by
  induction offsets generalizing ranges with
  | nil =>
    cases hrun
    exact h
  | cons offset offsets ih =>
    simp only [regTuples, bind_eq_ok] at hrun
    obtain ⟨address, -, size, hsize, address', -, added, hadd, hrest⟩ := hrun
    exact ih (addRange_ok h (decodeCells_lt hsize) hadd) hrest

theorem parseReg_ok
    (hrun : parseReg node ancestors ranges capacity = .ok ranges') : RangesOk capacity ranges' := by
  unfold parseReg at hrun
  split at hrun
  · cases hrun
  · cases hrun
  simp only [bind_eq_ok] at hrun
  obtain ⟨-, -, -, -, hrun⟩ := hrun
  exact regTuples_ok h hrun

end

theorem parseFirstReg_ok {r : PhysicalRange} (hrun : parseFirstReg node ancestors = .ok r) :
    r.Ok := by
  simp only [parseFirstReg, bind_eq_ok] at hrun
  obtain ⟨found, hfound, hrun⟩ := hrun
  have h := parseReg_ok ⟨by simp, by simp⟩ hfound
  split at hrun
  · cases hrun
    exact h.ok r mem_cons_self
  · cases hrun

/-! ## Nodes -/

section

variable (h : info.Ok)

include h

theorem finishMemory_ok (hrun : finishMemory node ancestors info = .ok info') : info'.Ok := by
  simp only [finishMemory, ite_eq_ok, bind_eq_ok, pure_eq_ok] at hrun
  obtain ⟨-, memory, hmemory, rfl⟩ | ⟨-, rfl⟩ := hrun
  · exact { h with memory := parseReg_ok h.memory hmemory }
  · exact h

theorem finishReserved_ok (hrun : finishReserved node ancestors info = .ok info') : info'.Ok := by
  simp only [finishReserved, ite_eq_ok, bind_eq_ok, pure_eq_ok] at hrun
  obtain ⟨-, reserved, hreserved, rfl⟩ | ⟨-, rfl⟩ := hrun
  · exact { h with reserved := parseReg_ok h.reserved hreserved }
  · exact h

theorem finishUart_ok (hrun : finishUart node ancestors info = .ok info') : info'.Ok := by
  simp only [finishUart, ite_eq_ok, bind_eq_ok, pure_eq_ok] at hrun
  obtain ⟨-, -, -, uart, huart, irq, -, rfl⟩ | ⟨-, rfl⟩ := hrun
  · exact { h with uart := fun _ => parseFirstReg_ok huart }
  · exact h

theorem finishPlic_ok (hrun : finishPlic node ancestors info = .ok info') : info'.Ok := by
  simp only [finishPlic, ite_eq_ok, bind_eq_ok, pure_eq_ok] at hrun
  obtain ⟨-, -, -, plic, hplic, count, -, rfl⟩ | ⟨-, rfl⟩ := hrun
  · exact { h with plic := fun _ => parseFirstReg_ok hplic }
  · exact h

/-- A virtio window is counted, and there is a place for it. -/
theorem finishVirtio_ok (hrun : finishVirtio node ancestors info = .ok info') : info'.Ok := by
  simp only [finishVirtio, ite_eq_ok, bind_eq_ok, pure_eq_ok, require_eq_ok, bne_iff_ne,
    exists_const] at hrun
  obtain ⟨-, hfull, window, hwindow, irq, -, rfl⟩ | ⟨-, rfl⟩ := hrun
  · exact { h with
      virtio := h.virtio.concat hfull (parseFirstReg_ok hwindow), irqs := by simp [h.irqs] }
  · exact h

/-- **`finish_node`** keeps the boot information good. -/
theorem finishNode_ok (hrun : finishNode node ancestors info = .ok info') : info'.Ok := by
  unfold finishNode at hrun
  split at hrun
  · simp only [bind_eq_ok] at hrun
    obtain ⟨a, ha, b, hb, c, hc, d, hd, hrun⟩ := hrun
    exact finishVirtio_ok
      (finishPlic_ok (finishUart_ok (finishReserved_ok (finishMemory_ok h ha) hb) hc) hd) hrun
  · cases hrun
    exact h

end

/-- A property sets the time base at most. -/
theorem recordProperty_info {node' : DtbNode} {name value : List UInt8}
    (hrun : recordProperty node name value info = .ok (node', info')) :
    ∃ f, info' = { info with timebaseFrequency := f } := by
  simp only [recordProperty, ite_eq_ok, bind_eq_ok, pure_eq_ok, Prod.mk.injEq] at hrun
  have hcases : info' = info ∨ ∃ f, info' = { info with timebaseFrequency := f } := by grind
  exact hcases.elim (fun heq => ⟨info.timebaseFrequency, heq⟩) id

/-! ## Blocks -/

/-- The loop over the reservation block. -/
theorem parseReservationsFrom_ok {rounds offset : Nat} (h : RangesOk bootMaxReservedRanges ranges)
    (hrun : parseReservationsFrom view rounds offset ranges = .ok ranges') :
    RangesOk bootMaxReservedRanges ranges' := by
  induction rounds generalizing offset ranges with
  | zero => cases hrun
  | succ rounds ih =>
    simp only [parseReservationsFrom, bind_eq_ok] at hrun
    obtain ⟨-, -, address, -, size, hsize, hrun⟩ := hrun
    split at hrun
    · cases hrun
      exact h
    simp only [bind_eq_ok] at hrun
    obtain ⟨added, hadd, hrun⟩ := hrun
    exact ih (addRange_ok h (readBe64_lt hsize) hadd) hrun

theorem parseReservations_ok (h : info.Ok) (hrun : parseReservations view info = .ok info') :
    info'.Ok := by
  simp only [parseReservations, bind_eq_ok, pure_eq_ok] at hrun
  obtain ⟨reserved, hreserved, rfl⟩ := hrun
  exact ⟨h.memory, parseReservationsFrom_ok h.reserved hreserved, h.uart, h.plic, h.virtio, h.irqs⟩

/-! ## The loop over the structure block -/

/-- What one round of the loop in `parse_structure` comes to. -/
inductive Round where
  | next (s : StructureState)
  | done (info : BootInfo)

/-- One round of the loop. -/
def structureRound (view : FdtView) (s : StructureState) : Except DtbStop Round := do
  require (rangeWithin view.structure'.length s.offset 4) .struct
  let token ← readBe32 view.structure' s.offset
  let s := { s with offset := s.offset + 4 }
  if token = fdtBeginNode then return .next (← beginNode view s)
  else if token = fdtEndNode then return .next (← endNode s)
  else if token = fdtProp then return .next (← property view s)
  else if token = fdtNop then return .next s
  else if token = fdtEnd then do
    require (s.sawRoot && s.nodes.isEmpty) .struct
    return .done s.info
  else .error (.error .struct)

/-- Go on after a round. -/
def Round.elim (view : FdtView) (rounds : Nat) : Round → Except DtbStop BootInfo
  | .next s => parseStructureFrom view rounds s
  | .done info => .ok info

variable {s s' : StructureState} {base rounds : Nat} {blob : List UInt8}

/-- The loop is its rounds. -/
theorem parseStructureFrom_succ :
    parseStructureFrom view (rounds + 1) s = structureRound view s >>= Round.elim view rounds := by
  have hite :
    ∀ {c : Prop} [Decidable c] {x y : Except DtbStop Round} {x' y' : Except DtbStop BootInfo},
      x' = x >>= Round.elim view rounds → y' = y >>= Round.elim view rounds →
      (if c then x' else y') = (if c then x else y) >>= Round.elim view rounds := by
    intro c _ x y x' y' hx hy
    split
    · exact hx
    · exact hy
  rw [parseStructureFrom, structureRound]
  simp only [bind_assoc]
  congr 1
  funext _
  congr 1
  funext token
  refine hite ?_ (hite ?_ (hite ?_ (hite rfl (hite ?_ rfl))))
  all_goals
    simp only [bind_assoc, pure_bind]
    rfl

/-- What a round that goes on has done to the open nodes and to the boot
information: it opened a node, closed the last one, or set the time base at most. -/
inductive RoundCase (view : FdtView) (s s' : StructureState) : Prop
  | opened : s.nodes.length ≠ fdtMaxDepth → s'.nodes.length = s.nodes.length + 1 →
      s'.info = s.info → RoundCase view s s'
  | closed {node : DtbNode} : readBe32 view.structure' s.offset = .ok fdtEndNode →
      s.nodes = node :: s'.nodes → finishNode node s'.nodes s.info = .ok s'.info →
      RoundCase view s s'
  | stays : s'.nodes.length = s.nodes.length →
      (∃ f, s'.info = { s.info with timebaseFrequency := f }) → RoundCase view s s'

theorem rangeWithin_iff {total offset length : Nat} :
    rangeWithin total offset length = true ↔ offset + length ≤ total := by
  simp only [rangeWithin, Bool.and_eq_true, decide_eq_true_eq]
  omega

theorem le_align4 (n : Nat) : n ≤ align4 n := by
  unfold align4
  omega

/-- `FDT_BEGIN_NODE` opens a node, if there is a place on the stack. -/
theorem beginNode_case (h : beginNode view { s with offset := s.offset + 4 } = .ok s') :
    s.offset + 4 ≤ s'.offset ∧ RoundCase view s s' := by
  simp only [beginNode, bind_eq_ok, require_eq_ok, bne_iff_ne, exists_const] at h
  obtain ⟨hroom, -, h⟩ := h
  have halign := le_align4 (s.offset + 4 +
    ((view.structure'.drop (s.offset + 4)).takeWhile (· != 0)).length + 1)
  split at h
  · next hnil =>
    simp only [bind_eq_ok, pure_eq_ok] at h
    obtain ⟨-, -, rfl⟩ := h
    exact ⟨by dsimp only; omega, .opened hroom (by simp [hnil]) rfl⟩
  · cases h
    exact ⟨by dsimp only; omega, .opened hroom rfl rfl⟩

/-- `FDT_END_NODE` closes the node on top of the stack. -/
theorem endNode_case (htoken : readBe32 view.structure' s.offset = .ok fdtEndNode)
    (h : endNode { s with offset := s.offset + 4 } = .ok s') :
    s.offset + 4 ≤ s'.offset ∧ RoundCase view s s' := by
  unfold endNode at h
  split at h
  · cases h
  next node ancestors hnodes =>
  simp only [bind_eq_ok, pure_eq_ok] at h
  obtain ⟨info, hfinish, rfl⟩ := h
  exact ⟨Nat.le_refl _, .closed htoken hnodes hfinish⟩

/-- `FDT_PROP` changes the node on top of the stack. -/
theorem property_case (h : property view { s with offset := s.offset + 4 } = .ok s') :
    s.offset + 4 ≤ s'.offset ∧ RoundCase view s s' := by
  unfold property at h
  split at h
  · cases h
  next node ancestors hnodes =>
  simp only [bind_eq_ok, pure_eq_ok] at h
  obtain ⟨-, -, length, -, nameOffset, -, -, -, name, -, value, -, ⟨node', info⟩, hrecord, rfl⟩ := h
  have := le_align4 (s.offset + 4 + 8 + length)
  exact ⟨by dsimp only; omega, .stays (congrArg List.length hnodes).symm
    (recordProperty_info hrecord)⟩

/-- **One round** takes four bytes or more of the structure block. -/
theorem structureRound_next (h : structureRound view s = .ok (.next s')) :
    s.offset + 4 ≤ view.structure'.length ∧ s.offset + 4 ≤ s'.offset ∧ RoundCase view s s' := by
  simp only [structureRound, bind_eq_ok, require_eq_ok, exists_const, ite_eq_ok, pure_eq_ok,
    Round.next.injEq, reduceCtorEq, and_false, or_false] at h
  obtain ⟨htoken, token, hread, h⟩ := h
  refine ⟨rangeWithin_iff.mp htoken, ?_⟩
  rcases h with ⟨-, s1, h, rfl⟩ | ⟨-, ⟨rfl, s1, h, rfl⟩ | ⟨-, ⟨-, s1, h, rfl⟩ | ⟨-, -, rfl⟩⟩⟩
  · exact beginNode_case h
  · exact endNode_case hread h
  · exact property_case h
  · exact ⟨Nat.le_refl _, .stays rfl ⟨_, rfl⟩⟩

/-- The last round returns what the loop has. -/
theorem structureRound_done (h : structureRound view s = .ok (.done info)) : s.info = info := by
  simp only [structureRound, bind_eq_ok, require_eq_ok, exists_const, ite_eq_ok, pure_eq_ok,
    Round.done.injEq, reduceCtorEq, and_false, or_false, false_or, exists_false] at h
  obtain ⟨-, token, -, h⟩ := h
  exact h.2.2.2.2.2.2

/-- The loop of `parse_structure` as a transition system. -/
def structureStep (view : FdtView) (s : StructureState) (_ : Unit) : Option StructureState :=
  match structureRound view s with
  | .ok (.next s') => some s'
  | _ => none

/-- The boot information the parser starts from. -/
def initialInfo (base : Nat) (view : FdtView) : BootInfo :=
  { BootInfo.zero with dtbBase := base, dtbSize := view.totalSize }

/-- The states the loop goes through when `dtb_parse` is called on the blob. -/
def LoopState (base : Nat) (blob : List UInt8) (s : StructureState) : Prop :=
  ∃ view info, validateHeader blob = .ok view ∧
    parseReservations view (initialInfo base view) = .ok info ∧
    Reach (structureStep view) Always ⟨0, [], false, info⟩ s

theorem structureStep_some {u : Unit} (h : structureStep view s u = some s') :
    structureRound view s = .ok (.next s') := by
  unfold structureStep at h
  split at h
  · next s1 hround =>
    cases h
    exact hround
  · cases h

/-- **Invariant rule of the loop**: what holds after the reservations and is kept
by every round. -/
theorem LoopState.invariant {I : StructureState → Prop} (hs : LoopState base blob s)
    (hinit : ∀ view info, parseReservations view (initialInfo base view) = .ok info →
      I ⟨0, [], false, info⟩)
    (hstep : ∀ view s s', validateHeader blob = .ok view → LoopState base blob s → I s →
      RoundCase view s s' → I s') : I s := by
  obtain ⟨view, info, hview, hinfo, hreach⟩ := hs
  refine (Reach.invariant (I := fun s => LoopState base blob s ∧ I s) ?_ ?_ hreach).2
  · exact ⟨⟨view, info, hview, hinfo, .refl⟩, hinit view info hinfo⟩
  rintro s u s' ⟨⟨view', info', hview', hinfo', hreach'⟩, h⟩ - hstep'
  obtain rfl : view = view' := Except.ok.inj (hview.symm.trans hview')
  refine ⟨⟨view, info', hview, hinfo', .tail hreach' trivial hstep'⟩, ?_⟩
  exact hstep view s s' hview ⟨view, info', hview, hinfo', hreach'⟩ h
    (structureRound_next (structureStep_some hstep')).2.2

/-- The result of the parser is the boot information of its last state. -/
theorem dtbParse_last (h : dtbParse base blob = .ok info) :
    ∃ s, LoopState base blob s ∧ s.info = info := by
  simp only [dtbParse, bind_eq_ok] at h
  obtain ⟨-, -, view, hview, info0, hinfo, hrun⟩ := h
  have hlast : ∀ (rounds : Nat) (s : StructureState),
      Reach (structureStep view) Always ⟨0, [], false, info0⟩ s →
      parseStructureFrom view rounds s = .ok info → ∃ s, LoopState base blob s ∧ s.info = info := by
    intro rounds
    induction rounds with
    | zero =>
      intro s _ h
      cases h
    | succ rounds ih =>
      intro s hreach h
      rw [parseStructureFrom_succ, bind_eq_ok] at h
      obtain ⟨r, hr, h⟩ := h
      cases r with
      | next s' => exact ih s' (hreach.tail (a := ()) trivial (by rw [structureStep, hr])) h
      | done info' =>
        cases h
        exact ⟨s, ⟨view, info0, hview, hinfo, hreach⟩, structureRound_done hr⟩
  exact hlast _ _ .refl hrun

/-- **Parsed boot information is good**, round by round. -/
theorem dtbParse_ok (hrun : dtbParse base blob = .ok info) : info.Ok := by
  obtain ⟨s, hs, rfl⟩ := dtbParse_last hrun
  refine hs.invariant (I := fun s => s.info.Ok) ?_ ?_
  · intro view info hinfo
    refine parseReservations_ok (?_ : (initialInfo base view).Ok) hinfo
    constructor <;> simp [initialInfo, BootInfo.zero]
    all_goals exact ⟨by simp, by simp⟩
  intro view s s' _ _ h hcase
  cases hcase with
  | opened _ _ hinfo =>
    rw [hinfo]
    exact h
  | closed _ _ hfinish => exact finishNode_ok h hfinish
  | stays _ hinfo =>
    obtain ⟨f, hinfo⟩ := hinfo
    rw [hinfo]
    exact { h with }

end MiniCore
