import Disasm6502.Mode

/-!
# Opcodes

The 151 documented opcodes of the NMOS 6502 in order of their byte. The other 105 bytes are undocumented
or stop the processor; they name no instruction here.
-/
namespace Disasm6502

/-- One opcode byte with the instruction it stands for. -/
structure Opcode where
  code : UInt8
  mnemonic : String
  mode : Mode
deriving DecidableEq

namespace Opcode

def len (row : Opcode) : Nat :=
  1 + row.mode.operandLen

def documented : List Opcode :=
  [⟨0x00, "BRK", .implicit⟩, ⟨0x01, "ORA", .indexedIndirect⟩, ⟨0x05, "ORA", .zeroPage⟩,
    ⟨0x06, "ASL", .zeroPage⟩, ⟨0x08, "PHP", .implicit⟩, ⟨0x09, "ORA", .immediate⟩,
    ⟨0x0A, "ASL", .accumulator⟩, ⟨0x0D, "ORA", .absolute⟩, ⟨0x0E, "ASL", .absolute⟩,
    ⟨0x10, "BPL", .relative⟩, ⟨0x11, "ORA", .indirectIndexed⟩, ⟨0x15, "ORA", .zeroPageX⟩,
    ⟨0x16, "ASL", .zeroPageX⟩, ⟨0x18, "CLC", .implicit⟩, ⟨0x19, "ORA", .absoluteY⟩,
    ⟨0x1D, "ORA", .absoluteX⟩, ⟨0x1E, "ASL", .absoluteX⟩,
    ⟨0x20, "JSR", .absolute⟩, ⟨0x21, "AND", .indexedIndirect⟩, ⟨0x24, "BIT", .zeroPage⟩,
    ⟨0x25, "AND", .zeroPage⟩, ⟨0x26, "ROL", .zeroPage⟩, ⟨0x28, "PLP", .implicit⟩,
    ⟨0x29, "AND", .immediate⟩, ⟨0x2A, "ROL", .accumulator⟩, ⟨0x2C, "BIT", .absolute⟩,
    ⟨0x2D, "AND", .absolute⟩, ⟨0x2E, "ROL", .absolute⟩,
    ⟨0x30, "BMI", .relative⟩, ⟨0x31, "AND", .indirectIndexed⟩, ⟨0x35, "AND", .zeroPageX⟩,
    ⟨0x36, "ROL", .zeroPageX⟩, ⟨0x38, "SEC", .implicit⟩, ⟨0x39, "AND", .absoluteY⟩,
    ⟨0x3D, "AND", .absoluteX⟩, ⟨0x3E, "ROL", .absoluteX⟩,
    ⟨0x40, "RTI", .implicit⟩, ⟨0x41, "EOR", .indexedIndirect⟩, ⟨0x45, "EOR", .zeroPage⟩,
    ⟨0x46, "LSR", .zeroPage⟩, ⟨0x48, "PHA", .implicit⟩, ⟨0x49, "EOR", .immediate⟩,
    ⟨0x4A, "LSR", .accumulator⟩, ⟨0x4C, "JMP", .absolute⟩, ⟨0x4D, "EOR", .absolute⟩,
    ⟨0x4E, "LSR", .absolute⟩,
    ⟨0x50, "BVC", .relative⟩, ⟨0x51, "EOR", .indirectIndexed⟩, ⟨0x55, "EOR", .zeroPageX⟩,
    ⟨0x56, "LSR", .zeroPageX⟩, ⟨0x58, "CLI", .implicit⟩, ⟨0x59, "EOR", .absoluteY⟩,
    ⟨0x5D, "EOR", .absoluteX⟩, ⟨0x5E, "LSR", .absoluteX⟩,
    ⟨0x60, "RTS", .implicit⟩, ⟨0x61, "ADC", .indexedIndirect⟩, ⟨0x65, "ADC", .zeroPage⟩,
    ⟨0x66, "ROR", .zeroPage⟩, ⟨0x68, "PLA", .implicit⟩, ⟨0x69, "ADC", .immediate⟩,
    ⟨0x6A, "ROR", .accumulator⟩, ⟨0x6C, "JMP", .indirect⟩, ⟨0x6D, "ADC", .absolute⟩,
    ⟨0x6E, "ROR", .absolute⟩,
    ⟨0x70, "BVS", .relative⟩, ⟨0x71, "ADC", .indirectIndexed⟩, ⟨0x75, "ADC", .zeroPageX⟩,
    ⟨0x76, "ROR", .zeroPageX⟩, ⟨0x78, "SEI", .implicit⟩, ⟨0x79, "ADC", .absoluteY⟩,
    ⟨0x7D, "ADC", .absoluteX⟩, ⟨0x7E, "ROR", .absoluteX⟩,
    ⟨0x81, "STA", .indexedIndirect⟩, ⟨0x84, "STY", .zeroPage⟩, ⟨0x85, "STA", .zeroPage⟩,
    ⟨0x86, "STX", .zeroPage⟩, ⟨0x88, "DEY", .implicit⟩, ⟨0x8A, "TXA", .implicit⟩,
    ⟨0x8C, "STY", .absolute⟩, ⟨0x8D, "STA", .absolute⟩, ⟨0x8E, "STX", .absolute⟩,
    ⟨0x90, "BCC", .relative⟩, ⟨0x91, "STA", .indirectIndexed⟩, ⟨0x94, "STY", .zeroPageX⟩,
    ⟨0x95, "STA", .zeroPageX⟩, ⟨0x96, "STX", .zeroPageY⟩, ⟨0x98, "TYA", .implicit⟩,
    ⟨0x99, "STA", .absoluteY⟩, ⟨0x9A, "TXS", .implicit⟩, ⟨0x9D, "STA", .absoluteX⟩,
    ⟨0xA0, "LDY", .immediate⟩, ⟨0xA1, "LDA", .indexedIndirect⟩, ⟨0xA2, "LDX", .immediate⟩,
    ⟨0xA4, "LDY", .zeroPage⟩, ⟨0xA5, "LDA", .zeroPage⟩, ⟨0xA6, "LDX", .zeroPage⟩,
    ⟨0xA8, "TAY", .implicit⟩, ⟨0xA9, "LDA", .immediate⟩, ⟨0xAA, "TAX", .implicit⟩,
    ⟨0xAC, "LDY", .absolute⟩, ⟨0xAD, "LDA", .absolute⟩, ⟨0xAE, "LDX", .absolute⟩,
    ⟨0xB0, "BCS", .relative⟩, ⟨0xB1, "LDA", .indirectIndexed⟩, ⟨0xB4, "LDY", .zeroPageX⟩,
    ⟨0xB5, "LDA", .zeroPageX⟩, ⟨0xB6, "LDX", .zeroPageY⟩, ⟨0xB8, "CLV", .implicit⟩,
    ⟨0xB9, "LDA", .absoluteY⟩, ⟨0xBA, "TSX", .implicit⟩, ⟨0xBC, "LDY", .absoluteX⟩,
    ⟨0xBD, "LDA", .absoluteX⟩, ⟨0xBE, "LDX", .absoluteY⟩,
    ⟨0xC0, "CPY", .immediate⟩, ⟨0xC1, "CMP", .indexedIndirect⟩, ⟨0xC4, "CPY", .zeroPage⟩,
    ⟨0xC5, "CMP", .zeroPage⟩, ⟨0xC6, "DEC", .zeroPage⟩, ⟨0xC8, "INY", .implicit⟩,
    ⟨0xC9, "CMP", .immediate⟩, ⟨0xCA, "DEX", .implicit⟩, ⟨0xCC, "CPY", .absolute⟩,
    ⟨0xCD, "CMP", .absolute⟩, ⟨0xCE, "DEC", .absolute⟩,
    ⟨0xD0, "BNE", .relative⟩, ⟨0xD1, "CMP", .indirectIndexed⟩, ⟨0xD5, "CMP", .zeroPageX⟩,
    ⟨0xD6, "DEC", .zeroPageX⟩, ⟨0xD8, "CLD", .implicit⟩, ⟨0xD9, "CMP", .absoluteY⟩,
    ⟨0xDD, "CMP", .absoluteX⟩, ⟨0xDE, "DEC", .absoluteX⟩,
    ⟨0xE0, "CPX", .immediate⟩, ⟨0xE1, "SBC", .indexedIndirect⟩, ⟨0xE4, "CPX", .zeroPage⟩,
    ⟨0xE5, "SBC", .zeroPage⟩, ⟨0xE6, "INC", .zeroPage⟩, ⟨0xE8, "INX", .implicit⟩,
    ⟨0xE9, "SBC", .immediate⟩, ⟨0xEA, "NOP", .implicit⟩, ⟨0xEC, "CPX", .absolute⟩,
    ⟨0xED, "SBC", .absolute⟩, ⟨0xEE, "INC", .absolute⟩,
    ⟨0xF0, "BEQ", .relative⟩, ⟨0xF1, "SBC", .indirectIndexed⟩, ⟨0xF5, "SBC", .zeroPageX⟩,
    ⟨0xF6, "INC", .zeroPageX⟩, ⟨0xF8, "SED", .implicit⟩, ⟨0xF9, "SBC", .absoluteY⟩,
    ⟨0xFD, "SBC", .absoluteX⟩, ⟨0xFE, "INC", .absoluteX⟩]

def find? (code : UInt8) : Option Opcode :=
  documented.find? (·.code == code)

end Opcode
end Disasm6502
