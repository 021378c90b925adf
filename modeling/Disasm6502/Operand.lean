import Disasm6502.Word

/-!
# Operands

The value behind an opcode byte: none, one byte, or one word with its low byte first. The width belongs to
the operand, so a byte and a word of the same value are two operands.
-/
namespace Disasm6502

inductive Operand where
  | byte (b : UInt8)
  | word (w : UInt16)
deriving DecidableEq

namespace Operand

def value : Operand → UInt16
  | byte b => b.toUInt16
  | word w => w

/-- The operand that the bytes behind an opcode hold. -/
def ofBytes? : List UInt8 → Option Operand
  | [b] => some (byte b)
  | [low, high] => some (word (Word.ofBytes low high))
  | _ => none

end Operand
end Disasm6502
