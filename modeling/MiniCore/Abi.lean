import Mathlib.Control.Monad.Basic

/-!
# MiniCore.Abi

The numbers of `src/abi.h` that the modelled calls read: error codes, access
modes, mapping flags and node types.
-/

namespace MiniCore

/-- The bytes of an ASCII string, without the terminator. -/
def bytesOf (s : String) : List UInt8 := s.toList.map fun c => UInt8.ofNat c.toNat

/-- The error codes a modelled call can return, negated in the source. -/
inductive Errno where
  | perm | noent | badf | child | nomem | fault | exist | notdir | isdir | inval | mfile | fbig
  | spipe | rofs | pipe | nametoolong | loop
deriving DecidableEq, Repr

/-! ## Open files -/

/-- Slots of a process's file table. -/
def fdCount : Nat := 32

theorem fdCount_pos : 0 < fdCount := by decide

def oRdonly : Nat := 0

def oWronly : Nat := 1

def oAccmode : Nat := 3

def oCreat : Nat := 0x40

def oExcl : Nat := 0x80

def oTrunc : Nat := 0x200

def oAppend : Nat := 0x400

def oDirectory : Nat := 0x10000

def oNofollow : Nat := 0x20000

def seekSet : Nat := 0

def seekCur : Nat := 1

def seekEnd : Nat := 2

/-- Bytes of a path with its terminating zero. -/
def pathLimit : Nat := 256

/-- Bytes of a name with its terminating zero. -/
def nameLimit : Nat := 64

/-- `DT_DIR`, `DT_REG`, `DT_LNK`, `DT_CHR` -/
inductive NodeType where
  | dir | reg | lnk | chr
deriving DecidableEq, Repr

/-! ## Mappings -/

def protRead : Nat := 1

def protWrite : Nat := 2

def protExec : Nat := 4

def mapPrivate : Nat := 2

def mapAnonymous : Nat := 0x20

def mapFixedNoreplace : Nat := 0x100000

end MiniCore
