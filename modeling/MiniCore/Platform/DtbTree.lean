import MiniCore.Platform.Dtb

/-!
# MiniCore.Platform.DtbTree

Device trees as trees, what boot information they stand for, and how they are
laid out as blobs.

`DeviceTree.bootInfo` is the meaning of a tree, by recursion over it and in exact
arithmetic: the properties of a node are looked up, not scanned, its registers
and the windows of its buses are decoded as lists, and an address goes up through
the first window that contains the whole range.  `Flattened` says which blobs
represent a tree; neither the places of the blocks nor those of `FDT_NOP` tokens
or of the names in the strings block are fixed.
-/

namespace MiniCore

/-- A property: its name and its value. -/
abbrev Property := List UInt8 × List UInt8

inductive DeviceTree where
  | node (name : List UInt8) (properties : List Property) (children : List DeviceTree)

namespace DeviceTree

mutual

/-- Number of nodes on the longest path down. -/
def depth : DeviceTree → Nat
  | node _ _ children => depthAll children + 1

def depthAll : List DeviceTree → Nat
  | [] => 0
  | tree :: rest => max tree.depth (depthAll rest)

end

def name : DeviceTree → List UInt8
  | node name _ _ => name

end DeviceTree

/-! ## Values -/

/-- The number that the bytes spell, high byte first. -/
def beNat (bytes : List UInt8) : Nat := bytes.foldl (fun value byte => value * 256 + byte.toNat) 0

/-- The number in the `cells` cells at an offset. -/
def cellsAt (bytes : List UInt8) (offset cells : Nat) : Nat :=
  beNat ((bytes.drop offset).take (cells * 4))

/-- The value of the last property of that name. -/
def lastValue (name : String) : List Property → Option (List UInt8)
  | [] => none
  | property :: rest =>
    (lastValue name rest).or (if property.1 = bytesOf name then some property.2 else none)

/-- The last property of that name as a number. -/
def lastWord (name : String) (properties : List Property) : Option Nat :=
  (lastValue name properties).map beNat

/-- The strings of a value: a zero byte ends each, and bytes behind the last zero
are none. -/
def stringList (value : List UInt8) : List (List UInt8) := (value.splitOn 0).dropLast

/-- The value is that one string. -/
def isString (string : String) (value : List UInt8) : Bool := value.splitOn 0 = [bytesOf string, []]

/-- What the properties of a node say, `above` being the number of its ancestors. -/
def describe (name : List UInt8) (above : Nat) (properties : List Property) : DtbNode where
  name := name
  addressCells := (lastWord "#address-cells" properties).getD 2
  sizeCells := (lastWord "#size-cells" properties).getD 1
  ranges := lastValue "ranges" properties
  reg := lastValue "reg" properties
  compatible := lastValue "compatible" properties
  deviceType := lastValue "device_type" properties
  status := lastValue "status" properties
  interrupts := lastValue "interrupts" properties
  plicSourceCount := lastValue "riscv,ndev" properties
  reservedMemory := above == 1 && name == bytesOf "reserved-memory"
  cpus := above == 1 && name == bytesOf "cpus"

/-- The properties that are read as one word, and have to be one. -/
def isWord (cpus : Bool) (name : List UInt8) : Bool :=
  name = bytesOf "#address-cells" || name = bytesOf "#size-cells" ||
    cpus && name = bytesOf "timebase-frequency"

def wordsOk (cpus : Bool) (properties : List Property) : Bool :=
  properties.all fun p => !isWord cpus p.1 || p.2.length == 4

/-- The time base after the properties of a node. -/
def timebase (cpus : Bool) (properties : List Property) (old : Nat) : Nat :=
  if cpus then (lastWord "timebase-frequency" properties).getD old else old

/-! ## Ranges -/

/-- The windows of a bus: address below, address above, size. -/
def busWindows (bus parent : DtbNode) (ranges : List UInt8) : List (Nat × Nat × Nat) :=
  let entry := (bus.addressCells + parent.addressCells + bus.sizeCells) * 4
  (List.range (ranges.length / entry)).map fun i =>
    (cellsAt ranges (i * entry) bus.addressCells,
      cellsAt ranges (i * entry + bus.addressCells * 4) parent.addressCells,
      cellsAt ranges (i * entry + bus.addressCells * 4 + parent.addressCells * 4) bus.sizeCells)

/-- The physical address of a range of `size` bytes at an address below the
ancestors, nearest first. -/
def physicalAddress (size : Nat) : List DtbNode → Nat → Except DtbError Nat
  | bus :: parent :: above, address =>
    match bus.ranges with
    | none => .error .unsupported
    | some [] => physicalAddress size (parent :: above) address
    | some ranges =>
      if 2 < bus.addressCells ∨ 2 < parent.addressCells ∨ 2 < bus.sizeCells then
        .error .unsupported
      else if (bus.addressCells + parent.addressCells + bus.sizeCells) * 4 = 0 ∨
          ranges.length % ((bus.addressCells + parent.addressCells + bus.sizeCells) * 4) ≠ 0 then
        .error .property
      else
        match (busWindows bus parent ranges).find? fun w =>
          w.1 ≤ address ∧ address + size ≤ w.1 + w.2.2 with
        | none => .error .property
        | some w =>
          if w.2.1 + (address - w.1) < 2 ^ 64 then
            physicalAddress size (parent :: above) (w.2.1 + (address - w.1))
          else .error .property
  | _, address => .ok address

/-- Add a range to an array of `capacity` places; an empty one is left out. -/
def keepRange (capacity : Nat) (ranges : List PhysicalRange) (range : PhysicalRange) :
    Except DtbError (List PhysicalRange) :=
  if range.size = 0 then .ok ranges
  else if 2 ^ 64 ≤ range.base + range.size then .error .property
  else if ranges.length = capacity then .error .capacity
  else .ok (ranges ++ [range])

/-- The pairs of address and size in a `reg` below `parent`. -/
def registers (parent : DtbNode) (reg : List UInt8) : List PhysicalRange :=
  let tuple := (parent.addressCells + parent.sizeCells) * 4
  (List.range (reg.length / tuple)).map fun i =>
    ⟨cellsAt reg (i * tuple) parent.addressCells,
      cellsAt reg (i * tuple + parent.addressCells * 4) parent.sizeCells⟩

/-- The registers of a node at their physical addresses. -/
def nodeRanges (node : DtbNode) (ancestors : List DtbNode) (capacity : Nat)
    (ranges : List PhysicalRange) : Except DtbError (List PhysicalRange) :=
  match node.reg, ancestors with
  | none, _ => .error .property
  | some _, [] => .error .struct
  | some reg, parent :: _ =>
    if 2 < parent.addressCells ∨ 2 < parent.sizeCells then .error .unsupported
    else if (parent.addressCells + parent.sizeCells) * 4 = 0 ∨ reg = [] ∨
        reg.length % ((parent.addressCells + parent.sizeCells) * 4) ≠ 0 then .error .property
    else (registers parent reg).foldlM (fun ranges r => do
      let base ← physicalAddress r.size ancestors r.base
      keepRange capacity ranges ⟨base, r.size⟩) ranges

/-- The one register of a device. -/
def deviceWindow (node : DtbNode) (ancestors : List DtbNode) : Except DtbError PhysicalRange := do
  match ← nodeRanges node ancestors 1 [] with
  | [range] => return range
  | _ => .error .property

/-! ## Nodes -/

/-- The property as a word, or `default`. -/
def wordOr (value : Option (List UInt8)) (e : DtbError) (default : Nat) : Except DtbError Nat :=
  match value with
  | none => .ok default
  | some bytes => if bytes.length = 4 then .ok (beNat bytes) else .error e

/-- The string is among those of `compatible`. -/
def isCompatible (node : DtbNode) (model : String) : Bool :=
  bytesOf model ∈ stringList (node.compatible.getD [])

/-- There is no `status`, or it is `okay` or `ok`. -/
def isEnabled (node : DtbNode) : Bool :=
  node.status.all fun value => isString "okay" value || isString "ok" value

section Contributions

variable (node : DtbNode) (ancestors : List DtbNode) (info : BootInfo)

def addMemory : Except DtbError BootInfo :=
  if node.deviceType.any (isString "memory") then do
    return { info with memory := ← nodeRanges node ancestors bootMaxMemoryRanges info.memory }
  else return info

/-- The registers of the children of `/reserved-memory`. -/
def addReserved : Except DtbError BootInfo :=
  if (ancestors.head?.map DtbNode.reservedMemory).getD false && node.reg.isSome then do
    return { info with reserved := ← nodeRanges node ancestors bootMaxReservedRanges info.reserved }
  else return info

def addUart : Except DtbError BootInfo :=
  if isCompatible node "ns16550a" || isCompatible node "sifive,uart0" then
    if info.uartPresent then .error .capacity
    else do
      let uart ← deviceWindow node ancestors
      let irq ← wordOr node.interrupts .unsupported info.uartIrq
      return { info with uart := uart, uartIrq := irq, uartPresent := true }
  else return info

def addPlic : Except DtbError BootInfo :=
  if isCompatible node "sifive,plic-1.0.0" || isCompatible node "riscv,plic0" then
    if info.plicPresent then .error .capacity
    else do
      let plic ← deviceWindow node ancestors
      let count ← wordOr node.plicSourceCount .property info.plicSourceCount
      return { info with plic := plic, plicSourceCount := count, plicPresent := true }
  else return info

def addVirtio : Except DtbError BootInfo :=
  if isCompatible node "virtio,mmio" then
    if info.virtio.length = bootMaxVirtioDevices then .error .capacity
    else do
      let window ← deviceWindow node ancestors
      let irq ← wordOr node.interrupts .unsupported 0
      return { info with virtio := info.virtio ++ [window], virtioIrqs := info.virtioIrqs ++ [irq] }
  else return info

/-- What a node contributes once its subtree is done; a disabled one nothing. -/
def contribute : Except DtbError BootInfo :=
  if isEnabled node then do
    let info ← addMemory node ancestors info
    let info ← addReserved node ancestors info
    let info ← addUart node ancestors info
    let info ← addPlic node ancestors info
    addVirtio node ancestors info
  else return info

end Contributions

namespace DeviceTree

mutual

/-- The subtrees of a node first, then the node. -/
def collect (ancestors : List DtbNode) (info : BootInfo) : DeviceTree → Except DtbError BootInfo
  | node name properties children =>
    let node := describe name ancestors.length properties
    if wordsOk node.cpus properties then do
      let info ← collectAll (node :: ancestors)
        { info with timebaseFrequency := timebase node.cpus properties info.timebaseFrequency }
        children
      contribute node ancestors info
    else .error .property

def collectAll (ancestors : List DtbNode) (info : BootInfo) :
    List DeviceTree → Except DtbError BootInfo
  | [] => .ok info
  | tree :: rest => do
    let info ← collect ancestors info tree
    collectAll ancestors info rest

end

/-- **The boot information of a device tree**: the reservations first, then the
tree from its leaves up.  `base` and `size` are those of the blob. -/
def bootInfo (base size : Nat) (reservations : List PhysicalRange) (tree : DeviceTree) :
    Except DtbError BootInfo := do
  let reserved ← reservations.foldlM (keepRange bootMaxReservedRanges) []
  let info := { BootInfo.zero with dtbBase := base, dtbSize := size, reserved := reserved }
  if tree.name = [] then collect [] info tree else .error .struct

end DeviceTree

/-! ## Blobs -/

def fdtNops (n : Nat) : List UInt8 := (List.replicate n (beBytes 4 fdtNop)).flatten

/-- The strings block has that name at the offset. -/
def NameAt (strings : List UInt8) (offset : Nat) (name : List UInt8) : Prop :=
  0 ∉ name ∧ ∃ rest, strings.drop offset = name ++ 0 :: rest

/-- The properties of a node as tokens. -/
inductive FlatProperties (strings : List UInt8) : List Property → List UInt8 → Prop
  | nil : FlatProperties strings [] []
  | cons (nops : Nat) {offset : Nat} {name value : List UInt8} {rest : List Property}
      {bytes : List UInt8} (hname : NameAt strings offset name)
      (hrest : FlatProperties strings rest bytes) :
      FlatProperties strings ((name, value) :: rest)
        (fdtNops nops ++ (fdtProperty offset value ++ bytes))

/-- A list of sibling trees as tokens. -/
inductive FlatTrees (strings : List UInt8) : List DeviceTree → List UInt8 → Prop
  | nil : FlatTrees strings [] []
  | cons (nops nops' : Nat) {name : List UInt8} {properties : List Property}
      {children rest : List DeviceTree} {head inner bytes : List UInt8} (hname : 0 ∉ name)
      (hprops : FlatProperties strings properties head) (hinner : FlatTrees strings children inner)
      (hrest : FlatTrees strings rest bytes) :
      FlatTrees strings (.node name properties children :: rest)
        (fdtNops nops ++ (beBytes 4 fdtBeginNode ++ (fdtPad (name ++ [0]) ++ (head ++ (inner ++
          (fdtNops nops' ++ (beBytes 4 fdtEndNode ++ bytes)))))))

/-- The entries of the memory reservation block, with its terminator. -/
def fdtReservations (reservations : List PhysicalRange) : List UInt8 :=
  reservations.flatMap (fun r => beBytes 8 r.base ++ beBytes 8 r.size) ++ beBytes 16 0

/-- Where the blocks of a blob are. -/
structure FdtLayout where
  totalSize : Nat
  structureOffset : Nat
  stringsOffset : Nat
  reservationOffset : Nat
  lastCompatibleVersion : Nat
  bootCpu : Nat
  block : List UInt8
  strings : List UInt8

def FdtLayout.header (l : FdtLayout) : List UInt8 :=
  beBytes 4 fdtMagic ++ (beBytes 4 l.totalSize ++ (beBytes 4 l.structureOffset ++
    (beBytes 4 l.stringsOffset ++ (beBytes 4 l.reservationOffset ++ (beBytes 4 17 ++
    (beBytes 4 l.lastCompatibleVersion ++ (beBytes 4 l.bootCpu ++ (beBytes 4 l.strings.length ++
    beBytes 4 l.block.length))))))))

/-- The bytes stand in the blob at the offset, behind the header. -/
structure BlockAt (blob : List UInt8) (total offset : Nat) (bytes : List UInt8) : Prop where
  behind : fdtHeaderSize ≤ offset
  fits : offset + bytes.length ≤ total
  there : (blob.drop offset).take bytes.length = bytes

/-- One of two blocks ends before the other begins. -/
def BlocksDisjoint (offset size offset' size' : Nat) : Prop :=
  offset + size ≤ offset' ∨ offset' + size' ≤ offset

/-- **The blob is a version 17 device tree blob of the tree.** -/
structure Flattened (tree : DeviceTree) (reservations : List PhysicalRange) (blob : List UInt8)
    (l : FdtLayout) : Prop where
  header : ∃ rest, blob = l.header ++ rest
  compatible : l.lastCompatibleVersion ≤ 17
  size : l.totalSize ≤ blob.length
  small : l.totalSize ≤ fdtMaxSize
  block : BlockAt blob l.totalSize l.structureOffset l.block
  strings : BlockAt blob l.totalSize l.stringsOffset l.strings
  table : BlockAt blob l.totalSize l.reservationOffset (fdtReservations reservations)
  aligned : l.structureOffset % 4 = 0 ∧ l.reservationOffset % 8 = 0
  apart : BlocksDisjoint l.structureOffset l.block.length l.stringsOffset l.strings.length
  apartBlock : BlocksDisjoint l.reservationOffset (fdtReservations reservations).length
    l.structureOffset l.block.length
  apartStrings : BlocksDisjoint l.reservationOffset (fdtReservations reservations).length
    l.stringsOffset l.strings.length
  entries : ∀ r ∈ reservations, r.base < 2 ^ 64 ∧ r.size < 2 ^ 64 ∧ ¬(r.base = 0 ∧ r.size = 0)
  tokens : ∃ bytes nops, FlatTrees l.strings [tree] bytes ∧
    l.block = bytes ++ (fdtNops nops ++ beBytes 4 fdtEnd)

end MiniCore
