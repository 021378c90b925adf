import Disasm6502.Hex

/-!
# Faults

What can stop the work: an input that cannot be had, a header that its file does not bear out, or options
that describe no run. Undocumented opcodes, instructions that are cut off and trailing bytes are no faults.
-/
namespace Disasm6502

/-- A header whose block is empty or longer than what follows it. -/
structure Malformed where
  /-- Where the header stands. -/
  offset : Nat
  start : UInt16
  last : UInt16
  /-- Bytes that the header calls for. -/
  needed : Nat
  /-- Bytes that follow the header. -/
  available : Nat
deriving DecidableEq

inductive Fault where
  /-- The input cannot be had; `text` says why. -/
  | unreadable (text : String)
  | malformed (m : Malformed)
  | configuration (message : String)
deriving DecidableEq

namespace Malformed

def message (m : Malformed) : String :=
  "Malformed segment at offset " ++ toString m.offset ++ ": $" ++ Hex.upper 4 m.start.toNat ++ "-$"
    ++ Hex.upper 4 m.last.toNat ++ " needs " ++ toString m.needed ++ " bytes, " ++ toString m.available
    ++ " available"

end Malformed

namespace Fault

def message : Fault → String
  | unreadable text => "IO error: " ++ text
  | malformed m => m.message
  | configuration message => "Configuration error: " ++ message

def isMalformed : Fault → Bool
  | malformed _ => true
  | _ => false

end Fault
end Disasm6502
