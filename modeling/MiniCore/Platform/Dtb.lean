import MiniCore.Abi
import Mathlib.Algebra.Order.Ring.Nat

/-!
# MiniCore.Platform.Dtb

The flattened device tree parser (`src/platform/dtb.c`).

The blob is a list of bytes, and so are the blocks and property values that the
source keeps as pointers into it.  A read outside the bytes at hand, or a block
or value that reaches beyond them, has no meaning in C; here it stops the parser
with `stray`, as does a loop that would go on after its last possible round.  All numbers read are
below 2³² or 2⁶⁴, and no sum of the source wraps where it is not checked, so they are plain `Nat`s.
-/

namespace MiniCore

/-- `enum dtb_error` -/
inductive DtbError where
  | argument | magic | version | bounds | struct | property | unsupported | capacity
deriving DecidableEq, Repr

inductive DtbStop where
  | error (e : DtbError)
  | stray
deriving DecidableEq, Repr

def fdtMagic : Nat := 0xd00dfeed
def fdtBeginNode : Nat := 1
def fdtEndNode : Nat := 2
def fdtProp : Nat := 3
def fdtNop : Nat := 4
def fdtEnd : Nat := 9
def fdtHeaderSize : Nat := 40
def fdtSupportedVersion : Nat := 17
def fdtMaxSize : Nat := 16 * 1024 * 1024
def fdtMaxDepth : Nat := 32
def bootMaxMemoryRanges : Nat := 8
def bootMaxReservedRanges : Nat := 16
def bootMaxVirtioDevices : Nat := 16

/-- `struct physical_range` -/
structure PhysicalRange where
  base : Nat
  size : Nat
deriving DecidableEq, Repr

/-- `struct boot_info`; an array with its count is a list. -/
structure BootInfo where
  memory : List PhysicalRange
  reserved : List PhysicalRange
  uart : PhysicalRange
  uartIrq : Nat
  plic : PhysicalRange
  plicSourceCount : Nat
  virtio : List PhysicalRange
  virtioIrqs : List Nat
  timebaseFrequency : Nat
  dtbBase : Nat
  dtbSize : Nat
  uartPresent : Bool
  plicPresent : Bool
deriving DecidableEq, Repr

/-- `memset(info, 0, sizeof(*info))` -/
def BootInfo.zero : BootInfo := ⟨[], [], ⟨0, 0⟩, 0, ⟨0, 0⟩, 0, [], [], 0, 0, 0, false, false⟩

/-- `struct fdt_view` -/
structure FdtView where
  blob : List UInt8
  totalSize : Nat
  structureOffset : Nat
  structure' : List UInt8
  stringsOffset : Nat
  strings : List UInt8
  reservationOffset : Nat

/-- `struct node`: `none` is a property that did not occur. -/
structure DtbNode where
  name : List UInt8
  addressCells : Nat
  sizeCells : Nat
  ranges : Option (List UInt8)
  reg : Option (List UInt8)
  compatible : Option (List UInt8)
  deviceType : Option (List UInt8)
  status : Option (List UInt8)
  interrupts : Option (List UInt8)
  plicSourceCount : Option (List UInt8)
  reservedMemory : Bool
  cpus : Bool
deriving DecidableEq, Repr

/-! ## Reading -/

def readBe32 (bytes : List UInt8) (i : Nat) : Except DtbStop Nat :=
  match bytes.drop i with
  | a :: b :: c :: d :: _ =>
    .ok (a.toNat <<< 24 ||| b.toNat <<< 16 ||| c.toNat <<< 8 ||| d.toNat)
  | _ => .error .stray

def readBe64 (bytes : List UInt8) (i : Nat) : Except DtbStop Nat := do
  let high ← readBe32 bytes i
  let low ← readBe32 bytes (i + 4)
  return high <<< 32 ||| low

/-- The `length` bytes at `offset`, all of which have to be there. -/
def slice (bytes : List UInt8) (offset length : Nat) : Except DtbStop (List UInt8) :=
  if offset + length ≤ bytes.length then .ok ((bytes.drop offset).take length) else .error .stray

def rangeWithin (total offset length : Nat) : Bool := offset ≤ total && length ≤ total - offset

def addOverflows (left right : Nat) : Bool := 2 ^ 64 - 1 - right < left

def regionsOverlap (firstOffset firstSize secondOffset secondSize : Nat) : Bool :=
  firstOffset < secondOffset + secondSize && secondOffset < firstOffset + firstSize

/-- Return the error unless the condition holds. -/
def require (ok : Bool) (e : DtbError) : Except DtbStop Unit :=
  if ok then .ok () else .error (.error e)

def bytesEqualString (bytes : List UInt8) (string : String) : Bool := bytes = bytesOf string ++ [0]

/-- The loop of `compatible_has` over the strings left. -/
def compatibleFrom (wanted : List UInt8) : Nat → List UInt8 → Bool
  | 0, _ => false
  | rounds + 1, bytes =>
    if bytes = [] then false
    else
      let string := bytes.takeWhile (· != 0)
      if string.length = bytes.length then false
      else if string = wanted then true
      else compatibleFrom wanted rounds (bytes.drop (string.length + 1))

def compatibleHas (node : DtbNode) (wanted : String) : Bool :=
  let bytes := node.compatible.getD []
  compatibleFrom (bytesOf wanted) bytes.length bytes

def nodeEnabled (node : DtbNode) : Bool :=
  match node.status with
  | none => true
  | some status => bytesEqualString status "okay" || bytesEqualString status "ok"

/-! ## Ranges -/

def decodeCells (data : List UInt8) (cells : Nat) : Except DtbStop Nat := do
  require (cells ≤ 2) .unsupported
  (List.range cells).foldlM (fun value i => do
    let cell ← readBe32 data (i * 4)
    return value <<< 32 ||| cell) 0

/-- The loop over the entries of `ranges`: the parent address of the first that
contains the whole range. -/
def findRange (bus parent : DtbNode) (ranges : List UInt8) (size address : Nat) :
    List Nat → Except DtbStop Nat
  | [] => .error (.error .property)
  | offset :: rest => do
    let child ← decodeCells (ranges.drop offset) bus.addressCells
    let offset := offset + bus.addressCells * 4
    let parentAddress ← decodeCells (ranges.drop offset) parent.addressCells
    let offset := offset + parent.addressCells * 4
    let rangeSize ← decodeCells (ranges.drop offset) bus.sizeCells
    if child ≤ address ∧ size ≤ rangeSize ∧ address - child ≤ rangeSize - size then do
      require (!addOverflows parentAddress (address - child)) .property
      return parentAddress + (address - child)
    else findRange bus parent ranges size address rest

/-- `translate_address`, from the bus of a node up to the root. -/
def translateAddress (size : Nat) : List DtbNode → Nat → Except DtbStop Nat
  | bus :: parent :: above, address =>
    match bus.ranges with
    | none => .error (.error .unsupported)
    | some [] => translateAddress size (parent :: above) address
    | some ranges => do
      require (bus.addressCells ≤ 2 && parent.addressCells ≤ 2 && bus.sizeCells ≤ 2) .unsupported
      let entrySize := (bus.addressCells + parent.addressCells + bus.sizeCells) * 4
      require (entrySize != 0 && ranges.length % entrySize == 0) .property
      let offsets := (List.range (ranges.length / entrySize)).map (· * entrySize)
      let address ← findRange bus parent ranges size address offsets
      translateAddress size (parent :: above) address
  | _, address => .ok address

def addRange (ranges : List PhysicalRange) (capacity base size : Nat) :
    Except DtbStop (List PhysicalRange) := do
  if size = 0 then return ranges
  require (!addOverflows base size) .property
  require (ranges.length != capacity) .capacity
  return ranges ++ [⟨base, size⟩]

/-- The loop over the tuples of `reg`. -/
def regTuples (reg : List UInt8) (parent : DtbNode) (ancestors : List DtbNode) (capacity : Nat) :
    List Nat → List PhysicalRange → Except DtbStop (List PhysicalRange)
  | [], ranges => .ok ranges
  | offset :: rest, ranges => do
    let address ← decodeCells (reg.drop offset) parent.addressCells
    let size ← decodeCells (reg.drop (offset + parent.addressCells * 4)) parent.sizeCells
    let address ← translateAddress size ancestors address
    let ranges ← addRange ranges capacity address size
    regTuples reg parent ancestors capacity rest ranges

/-- `parse_reg`; `ancestors` are the nodes above, nearest first. -/
def parseReg (node : DtbNode) (ancestors : List DtbNode) (ranges : List PhysicalRange)
    (capacity : Nat) :
    Except DtbStop (List PhysicalRange) :=
  match node.reg, ancestors with
  | none, _ => .error (.error .property)
  | some _, [] => .error (.error .struct)
  | some reg, parent :: _ => do
    require (parent.addressCells ≤ 2 && parent.sizeCells ≤ 2) .unsupported
    let tupleSize := (parent.addressCells + parent.sizeCells) * 4
    require (tupleSize != 0 && reg.length != 0 && reg.length % tupleSize == 0) .property
    let offsets := (List.range (reg.length / tupleSize)).map (· * tupleSize)
    regTuples reg parent ancestors capacity offsets ranges

def parseFirstReg (node : DtbNode) (ancestors : List DtbNode) : Except DtbStop PhysicalRange := do
  match ← parseReg node ancestors [] 1 with
  | [range] => return range
  | _ => .error (.error .property)

/-! ## Nodes -/

/-- The word of an optional property of four bytes, or `default`. -/
def optionalWord (value : Option (List UInt8)) (e : DtbError) (default : Nat) :
    Except DtbStop Nat :=
  match value with
  | none => .ok default
  | some bytes => do
    require (bytes.length == 4) e
    readBe32 bytes 0

def finishMemory (node : DtbNode) (ancestors : List DtbNode) (info : BootInfo) :
    Except DtbStop BootInfo := do
  if (node.deviceType.map (bytesEqualString · "memory")).getD false then
    return { info with memory := ← parseReg node ancestors info.memory bootMaxMemoryRanges }
  else return info

def finishReserved (node : DtbNode) (ancestors : List DtbNode) (info : BootInfo) :
    Except DtbStop BootInfo := do
  if (ancestors.head?.map DtbNode.reservedMemory).getD false && node.reg.isSome then
    return { info with reserved := ← parseReg node ancestors info.reserved bootMaxReservedRanges }
  else return info

def finishUart (node : DtbNode) (ancestors : List DtbNode) (info : BootInfo) :
    Except DtbStop BootInfo := do
  if compatibleHas node "ns16550a" || compatibleHas node "sifive,uart0" then do
    require (!info.uartPresent) .capacity
    let uart ← parseFirstReg node ancestors
    let irq ← optionalWord node.interrupts .unsupported info.uartIrq
    return { info with uart := uart, uartIrq := irq, uartPresent := true }
  else return info

def finishPlic (node : DtbNode) (ancestors : List DtbNode) (info : BootInfo) :
    Except DtbStop BootInfo := do
  if compatibleHas node "sifive,plic-1.0.0" || compatibleHas node "riscv,plic0" then do
    require (!info.plicPresent) .capacity
    let plic ← parseFirstReg node ancestors
    let count ← optionalWord node.plicSourceCount .property info.plicSourceCount
    return { info with plic := plic, plicSourceCount := count, plicPresent := true }
  else return info

def finishVirtio (node : DtbNode) (ancestors : List DtbNode) (info : BootInfo) :
    Except DtbStop BootInfo := do
  if compatibleHas node "virtio,mmio" then do
    require (info.virtio.length != bootMaxVirtioDevices) .capacity
    let window ← parseFirstReg node ancestors
    let irq ← optionalWord node.interrupts .unsupported 0
    return { info with virtio := info.virtio ++ [window], virtioIrqs := info.virtioIrqs ++ [irq] }
  else return info

/-- `finish_node` -/
def finishNode (node : DtbNode) (ancestors : List DtbNode) (info : BootInfo) :
    Except DtbStop BootInfo := do
  if nodeEnabled node then do
    let info ← finishMemory node ancestors info
    let info ← finishReserved node ancestors info
    let info ← finishUart node ancestors info
    let info ← finishPlic node ancestors info
    finishVirtio node ancestors info
  else return info

/-! ## Blocks -/

def validateHeader (blob : List UInt8) : Except DtbStop FdtView := do
  let magic ← readBe32 blob 0
  require (magic == fdtMagic) .magic
  let totalSize ← readBe32 blob 4
  let structureOffset ← readBe32 blob 8
  let stringsOffset ← readBe32 blob 12
  let reservationOffset ← readBe32 blob 16
  let version ← readBe32 blob 20
  let lastCompatibleVersion ← readBe32 blob 24
  let stringsSize ← readBe32 blob 32
  let structureSize ← readBe32 blob 36
  require (fdtSupportedVersion ≤ version && lastCompatibleVersion ≤ fdtSupportedVersion) .version
  require (fdtHeaderSize ≤ totalSize && totalSize ≤ fdtMaxSize) .bounds
  require (fdtHeaderSize ≤ structureOffset && fdtHeaderSize ≤ stringsOffset &&
    fdtHeaderSize ≤ reservationOffset && structureOffset % 4 == 0 && reservationOffset % 8 == 0 &&
    rangeWithin totalSize structureOffset structureSize &&
    rangeWithin totalSize stringsOffset stringsSize && rangeWithin totalSize reservationOffset 16 &&
    !regionsOverlap structureOffset structureSize stringsOffset stringsSize) .bounds
  return {
    blob := blob
    totalSize := totalSize
    structureOffset := structureOffset
    structure' := ← slice blob structureOffset structureSize
    stringsOffset := stringsOffset
    strings := ← slice blob stringsOffset stringsSize
    reservationOffset := reservationOffset }

/-- The loop of `parse_reservations`. -/
def parseReservationsFrom (view : FdtView) : Nat → Nat → List PhysicalRange →
    Except DtbStop (List PhysicalRange)
  | 0, _, _ => .error .stray
  | rounds + 1, offset, reserved => do
    require (rangeWithin view.totalSize offset 16 &&
      !regionsOverlap offset 16 view.structureOffset view.structure'.length &&
      !regionsOverlap offset 16 view.stringsOffset view.strings.length) .bounds
    let address ← readBe64 view.blob offset
    let size ← readBe64 view.blob (offset + 8)
    if address = 0 ∧ size = 0 then return reserved
    else
      let reserved ← addRange reserved bootMaxReservedRanges address size
      parseReservationsFrom view rounds (offset + 16) reserved

def parseReservations (view : FdtView) (info : BootInfo) : Except DtbStop BootInfo := do
  return { info with reserved :=
    ← parseReservationsFrom view (view.totalSize / 16 + 1) view.reservationOffset info.reserved }

def propertyName (view : FdtView) (offset : Nat) : Except DtbStop (List UInt8) := do
  require (offset < view.strings.length) .bounds
  let name := (view.strings.drop offset).takeWhile (· != 0)
  require (offset + name.length != view.strings.length) .bounds
  return name

def recordProperty (node : DtbNode) (name value : List UInt8) (info : BootInfo) :
    Except DtbStop (DtbNode × BootInfo) := do
  if name = bytesOf "#address-cells" then do
    require (value.length == 4) .property
    return ({ node with addressCells := ← readBe32 value 0 }, info)
  else if name = bytesOf "#size-cells" then do
    require (value.length == 4) .property
    return ({ node with sizeCells := ← readBe32 value 0 }, info)
  else if name = bytesOf "ranges" then return ({ node with ranges := some value }, info)
  else if name = bytesOf "reg" then return ({ node with reg := some value }, info)
  else if name = bytesOf "compatible" then return ({ node with compatible := some value }, info)
  else if name = bytesOf "device_type" then return ({ node with deviceType := some value }, info)
  else if name = bytesOf "status" then return ({ node with status := some value }, info)
  else if name = bytesOf "interrupts" then return ({ node with interrupts := some value }, info)
  else if name = bytesOf "riscv,ndev" then return ({ node with plicSourceCount := some value },
    info)
  else if node.cpus && name = bytesOf "timebase-frequency" then do
    require (value.length == 4) .property
    return (node, { info with timebaseFrequency := ← readBe32 value 0 })
  else return (node, info)

/-! ## The structure block -/

/-- The variables of the loop in `parse_structure`; the top of the stack of open
nodes comes first. -/
structure StructureState where
  offset : Nat
  nodes : List DtbNode
  sawRoot : Bool
  info : BootInfo

/-- A node as `FDT_BEGIN_NODE` sets it up below `above` open ones. -/
def newNode (name : List UInt8) (above : Nat) : DtbNode where
  name := name
  addressCells := 2
  sizeCells := 1
  ranges := none
  reg := none
  compatible := none
  deviceType := none
  status := none
  interrupts := none
  plicSourceCount := none
  reservedMemory := above == 1 && name == bytesOf "reserved-memory"
  cpus := above == 1 && name == bytesOf "cpus"

/-- The next multiple of four. -/
def align4 (offset : Nat) : Nat := (offset + 3) / 4 * 4

def beginNode (view : FdtView) (s : StructureState) : Except DtbStop StructureState := do
  require (s.nodes.length != fdtMaxDepth) .capacity
  let name := (view.structure'.drop s.offset).takeWhile (· != 0)
  require (s.offset + name.length != view.structure'.length) .bounds
  let node := newNode name s.nodes.length
  let offset := align4 (s.offset + name.length + 1)
  if s.nodes = [] then do
    require (!s.sawRoot && name.isEmpty) .struct
    return { s with offset := offset, nodes := [node], sawRoot := true }
  else return { s with offset := offset, nodes := node :: s.nodes }

def endNode (s : StructureState) : Except DtbStop StructureState :=
  match s.nodes with
  | [] => .error (.error .struct)
  | node :: ancestors => do
    let info ← finishNode node ancestors s.info
    return { s with nodes := ancestors, info := info }

def property (view : FdtView) (s : StructureState) : Except DtbStop StructureState :=
  match s.nodes with
  | [] => .error (.error .struct)
  | node :: ancestors => do
    require (rangeWithin view.structure'.length s.offset 8) .struct
    let length ← readBe32 view.structure' s.offset
    let nameOffset ← readBe32 view.structure' (s.offset + 4)
    let offset := s.offset + 8
    require (rangeWithin view.structure'.length offset length) .bounds
    let name ← propertyName view nameOffset
    let value ← slice view.structure' offset length
    let (node, info) ← recordProperty node name value s.info
    return { s with offset := align4 (offset + length), nodes := node :: ancestors, info := info }

/-- The loop of `parse_structure`. -/
def parseStructureFrom (view : FdtView) : Nat → StructureState → Except DtbStop BootInfo
  | 0, _ => .error .stray
  | rounds + 1, s => do
    require (rangeWithin view.structure'.length s.offset 4) .struct
    let token ← readBe32 view.structure' s.offset
    let s := { s with offset := s.offset + 4 }
    if token = fdtBeginNode then
      parseStructureFrom view rounds (← beginNode view s)
    else if token = fdtEndNode then
      parseStructureFrom view rounds (← endNode s)
    else if token = fdtProp then
      parseStructureFrom view rounds (← property view s)
    else if token = fdtNop then parseStructureFrom view rounds s
    else if token = fdtEnd then do
      require (s.sawRoot && s.nodes.isEmpty) .struct
      return s.info
    else .error (.error .struct)

def parseStructure (view : FdtView) (info : BootInfo) : Except DtbStop BootInfo :=
  parseStructureFrom view (view.structure'.length / 4 + 1) ⟨0, [], false, info⟩

/-- `dtb_parse` of the blob at the virtual address `base`. -/
def dtbParse (base : Nat) (blob : List UInt8) : Except DtbStop BootInfo := do
  require (base != 0) .argument
  let view ← validateHeader blob
  let info := { BootInfo.zero with dtbBase := base, dtbSize := view.totalSize }
  let info ← parseReservations view info
  parseStructure view info

/-! ## Trees as blobs -/

/-- The last `w` bytes of `n`, high byte first. -/
def beBytes : Nat → Nat → List UInt8
  | 0, _ => []
  | w + 1, n => beBytes w (n / 256) ++ [UInt8.ofNat n]

/-- Pad to a multiple of four bytes. -/
def fdtPad (bytes : List UInt8) : List UInt8 :=
  bytes ++ List.replicate (align4 bytes.length - bytes.length) 0

def fdtProperty (nameOffset : Nat) (value : List UInt8) : List UInt8 :=
  beBytes 4 fdtProp ++ beBytes 4 value.length ++ beBytes 4 nameOffset ++ fdtPad value

def fdtNode (name : String) (body : List UInt8) : List UInt8 :=
  beBytes 4 fdtBeginNode ++ fdtPad (bytesOf name ++ [0]) ++ body ++ beBytes 4 fdtEndNode

/-- A tree with the given body of its root, without reservations. -/
def fdtBlob (body strings : List UInt8) : List UInt8 :=
  let block := fdtNode "" body ++ beBytes 4 fdtEnd
  let stringsOffset := 56 + block.length
  beBytes 4 fdtMagic ++ beBytes 4 (stringsOffset + strings.length) ++ beBytes 4 56 ++
    beBytes 4 stringsOffset ++ beBytes 4 40 ++ beBytes 4 17 ++ beBytes 4 16 ++ beBytes 4 0 ++
    beBytes 4 strings.length ++ beBytes 4 block.length ++ beBytes 16 0 ++ block ++ strings

/-- The names `device_type`, `reg` and `compatible`, at 0, 12 and 16. -/
def fdtNames : List UInt8 :=
  bytesOf "device_type" ++ [0] ++ bytesOf "reg" ++ [0] ++ bytesOf "compatible" ++ [0]

/-- The tuples of a `reg` below the root. -/
def fdtReg (ranges : List PhysicalRange) : List UInt8 :=
  fdtProperty 12 (ranges.flatMap fun r => beBytes 8 r.base ++ beBytes 4 r.size)

def fdtMemory (ranges : List PhysicalRange) : List UInt8 :=
  fdtNode "memory" (fdtProperty 0 (bytesOf "memory" ++ [0]) ++ fdtReg ranges)

end MiniCore
