import Disasm6502.Assembly
import Disasm6502.Disassembly
import Disasm6502.Json

/-!
# The JSON listing

A disassembly as one JSON value. Addresses and bytes are written as in the assembler listing, counts and
operand values as numbers, and what is absent as `null`.
-/
namespace Disasm6502

/-- The word for what an item is. -/
def Item.kind : Item → String
  | .instruction _ => "instruction"
  | .unknown .. => "unknown"
  | .truncated .. => "partial"

def Item.text : Item → String
  | .instruction i => i.text
  | .unknown .. => "???"
  | .truncated .. => "(Partial)"

def Item.instruction? : Item → Option Instruction
  | .instruction i => some i
  | _ => none

namespace Document

def addressDigits (address : UInt16) : Json :=
  .string (Hex.upper 4 address.toNat)

def item (x : Item) : Json :=
  let i? := x.instruction?
  .object
    [("address", addressDigits x.address),
      ("bytes", .string (Hex.spaced x.bytes)),
      ("kind", .string x.kind),
      ("mnemonic", .ofOption (fun i => .string i.mnemonic) i?),
      ("mode", .ofOption (fun i => .string i.mode.name) i?),
      ("operand", .ofOption (fun o => .number o.value.toNat) (i?.bind Instruction.operand)),
      ("branch_target", .ofOption addressDigits (i?.bind Instruction.target)),
      ("text", .string x.text)]

def segment (s : DecodedSegment) : Json :=
  .object
    [("start", addressDigits s.segment.start),
      ("end", addressDigits s.segment.last),
      ("len", .number s.segment.len),
      ("instructions", .array (s.items.map item))]

def trailing (t : Trailing) : Json :=
  .object [("offset", .number t.offset), ("bytes", .string (Hex.packed t.bytes))]

def ofDisassembly (path : String) (d : Disassembly) : Json :=
  .object
    [("file", .string path),
      ("format", .string d.format.text),
      ("markers", .number d.markers),
      ("segments", .array (d.segments.map segment)),
      ("trailing", .ofOption trailing d.trailing),
      ("error", .ofOption (fun e => .string e.message) d.error)]

/-- The text of the listing: one value and the end of its line. -/
def text (spacing : Json.Spacing) (path : String) (d : Disassembly) : String :=
  (ofDisassembly path d).render spacing ++ "\n"

end Document
end Disasm6502
