import Disasm6502.Opcode
import Disasm6502.Operand

/-!
# Items

What stands at one place of a byte sequence: a whole instruction, a byte that is no opcode, or an
instruction that is cut off by the end. Every byte sequence but the empty one starts with an item, and that
item is a function of the address, the first byte and the bytes behind it.
-/
namespace Disasm6502

structure Instruction where
  address : UInt16
  opcode : UInt8
  bytes : List UInt8
  mnemonic : String
  mode : Mode
  operand : Option Operand
  /-- Where a relative branch goes. -/
  target : Option UInt16
deriving DecidableEq

inductive Item where
  | instruction (i : Instruction)
  | unknown (address : UInt16) (opcode : UInt8)
  /-- The bytes up to the end, fewer than the opcode requires. -/
  | truncated (address : UInt16) (opcode : UInt8) (bytes : List UInt8) (expectedLen : Nat)
deriving DecidableEq

/-- A byte as a two's complement displacement. -/
def displacement (b : UInt8) : UInt16 :=
  if b < 128 then b.toUInt16 else b.toUInt16 + 0xFF00

/-- Destination of a branch of `len` bytes at `address`: the displacement counts from the instruction behind
the branch, and the sum wraps at 64K. -/
def branchTarget (address : UInt16) (len : Nat) (offset : UInt8) : UInt16 :=
  address + UInt16.ofNat len + displacement offset

/-- The destination that an operand of `mode` stands for; only relative mode has one. -/
def Mode.target? (mode : Mode) (address : UInt16) (len : Nat) (operand : Option Operand) : Option UInt16 :=
  match mode, operand with
  | .relative, some (.byte offset) => some (branchTarget address len offset)
  | _, _ => none

namespace Item

/-- The item at `address` that starts with `opcode`, when the bytes `behind` follow it. -/
def read (address : UInt16) (opcode : UInt8) (behind : List UInt8) : Item :=
  match Opcode.find? opcode with
  | none => unknown address opcode
  | some row =>
    let body := behind.take row.mode.operandLen
    if body.length < row.mode.operandLen then
      truncated address opcode (opcode :: body) row.len
    else
      let operand := Operand.ofBytes? body
      instruction
        { address, opcode, bytes := opcode :: body, mnemonic := row.mnemonic, mode := row.mode, operand,
          target := row.mode.target? address row.len operand }

def address : Item → UInt16
  | instruction i => i.address
  | unknown address _ | truncated address _ _ _ => address

def opcode : Item → UInt8
  | instruction i => i.opcode
  | unknown _ opcode | truncated _ opcode _ _ => opcode

def bytes : Item → List UInt8
  | instruction i => i.bytes
  | unknown _ opcode => [opcode]
  | truncated _ _ bytes _ => bytes

def len (item : Item) : Nat :=
  item.bytes.length

/-- Address of the byte behind the item, wrapping at 64K. -/
def nextAddress (item : Item) : UInt16 :=
  item.address + UInt16.ofNat item.len

def isUnknown : Item → Bool
  | unknown .. => true
  | _ => false

def isTruncated : Item → Bool
  | truncated .. => true
  | _ => false

theorem len_read_pos (address : UInt16) (opcode : UInt8) (behind : List UInt8) :
    0 < (read address opcode behind).len := by
  unfold read
  split
  · simp [len, bytes]
  · dsimp only
    split <;> simp [len, bytes]

end Item
end Disasm6502
