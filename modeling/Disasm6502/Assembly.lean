import Disasm6502.Hex
import Disasm6502.Item
import Disasm6502.Text

/-!
# Assembler text

Operands in conventional 6502 syntax, instructions as mnemonic and operand, and the listing line of an item.
Values are written with at least the digits their mode calls for; a value too wide for its mode is written
in full. A relative operand is written as the branch destination.
-/
namespace Disasm6502

/-- What surrounds the value of an operand, and how many digits the value has at least. -/
structure Frame where
  before : String
  width : Nat
  after : String

namespace Mode

/-- The frame of the modes that write a value. -/
def frame : Mode → Frame
  | implicit | accumulator => ⟨"", 0, ""⟩
  | immediate => ⟨"#$", 2, ""⟩
  | zeroPage => ⟨"$", 2, ""⟩
  | zeroPageX => ⟨"$", 2, ",X"⟩
  | zeroPageY => ⟨"$", 2, ",Y"⟩
  | absolute => ⟨"$", 4, ""⟩
  | absoluteX => ⟨"$", 4, ",X"⟩
  | absoluteY => ⟨"$", 4, ",Y"⟩
  | indirect => ⟨"($", 4, ")"⟩
  | indexedIndirect => ⟨"($", 2, ",X)"⟩
  | indirectIndexed => ⟨"($", 2, "),Y"⟩
  | relative => ⟨"$", 2, ""⟩

end Mode

namespace Frame

def text (frame : Frame) (value : UInt16) : String :=
  frame.before ++ Hex.upper frame.width value.toNat ++ frame.after

end Frame

/-- A memory address: a dollar sign and four digits. -/
def addressText (address : UInt16) : String :=
  "$" ++ Hex.upper 4 address.toNat

/-- The text of an operand; nothing where the mode has none or its value is missing. -/
def operandText (mode : Mode) (operand : Option Operand) (target : Option UInt16) : String :=
  match mode, target, operand with
  | .implicit, _, _ => ""
  | .accumulator, _, _ => "A"
  | .relative, some target, _ => addressText target
  | mode, _, some operand => mode.frame.text operand.value
  | _, _, none => ""

/-- A mnemonic and its operand, if there is anything to write for it. -/
def instructionText (mnemonic : String) (mode : Mode) (operand : Option Operand)
    (target : Option UInt16) : String :=
  let operand := operandText mode operand target
  if operand.isEmpty then mnemonic else mnemonic ++ " " ++ operand

def Instruction.text (i : Instruction) : String :=
  instructionText i.mnemonic i.mode i.operand i.target

/-- Width of the column of bytes: three bytes with blanks between them. -/
def bytesColumn : Nat := 8

def Item.line : Item → String
  | .instruction i =>
    Hex.upper 4 i.address.toNat ++ "  " ++ padRight bytesColumn (Hex.spaced i.bytes) ++ "  " ++ i.text
  | .unknown address opcode => Hex.upper 4 address.toNat ++ ": " ++ Hex.upper 2 opcode.toNat ++ " ???"
  | .truncated address _ bytes _ =>
    Hex.upper 4 address.toNat ++ ": " ++ Hex.spaced bytes ++ " (Partial)"

end Disasm6502
