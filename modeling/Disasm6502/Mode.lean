/-!
# Addressing modes

The thirteen ways an NMOS 6502 instruction names its operand, how many operand bytes each takes, and the
name each goes by in data.
-/
namespace Disasm6502

inductive Mode where
  | implicit | accumulator | immediate
  | zeroPage | zeroPageX | zeroPageY
  | absolute | absoluteX | absoluteY
  | indirect | indexedIndirect | indirectIndexed
  | relative
deriving DecidableEq

namespace Mode

def all : List Mode :=
  [implicit, accumulator, immediate, zeroPage, zeroPageX, zeroPageY, absolute, absoluteX, absoluteY,
    indirect, indexedIndirect, indirectIndexed, relative]

def operandLen : Mode → Nat
  | implicit | accumulator => 0
  | immediate | zeroPage | zeroPageX | zeroPageY | indexedIndirect | indirectIndexed | relative => 1
  | absolute | absoluteX | absoluteY | indirect => 2

def name : Mode → String
  | implicit => "implicit"
  | accumulator => "accumulator"
  | immediate => "immediate"
  | zeroPage => "zero_page"
  | zeroPageX => "zero_page_x"
  | zeroPageY => "zero_page_y"
  | absolute => "absolute"
  | absoluteX => "absolute_x"
  | absoluteY => "absolute_y"
  | indirect => "indirect"
  | indexedIndirect => "indexed_indirect"
  | indirectIndexed => "indirect_indexed"
  | relative => "relative"

def ofName? (name : String) : Option Mode :=
  all.find? (·.name == name)

theorem mem_all (mode : Mode) : mode ∈ all := by
  cases mode <;> decide

end Mode
end Disasm6502
