import Disasm6502.Disassembly
import Disasm6502.Json

/-!
# The interchange form

Values as JSON for other programs: addresses, bytes and operands are numbers, and bytes are lists. An operand
is its bare value, so its width is not written; reading takes the narrowest operand that holds the value. A
record is read from its members, of which unknown ones do not matter, or from the list of its fields in
order.
-/
namespace Disasm6502.Interchange

def byte (b : UInt8) : Json :=
  .number b.toNat

def word (w : UInt16) : Json :=
  .number w.toNat

def bytes (bs : List UInt8) : Json :=
  .array (bs.map byte)

def mode (m : Mode) : Json :=
  .string m.name

def operand (o : Operand) : Json :=
  word o.value

def format : Format → Json
  | .xex => .string "xex"
  | .raw base => .object [("raw", .object [("base", word base)])]

def segment (s : Segment) : Json :=
  .object [("start", word s.start), ("end", word s.last), ("bytes", bytes s.bytes)]

def trailing (t : Trailing) : Json :=
  .object [("offset", .number t.offset), ("bytes", bytes t.bytes)]

def item : Item → Json
  | .instruction i =>
    .object
      [("kind", .string "instruction"), ("address", word i.address), ("opcode", byte i.opcode),
        ("bytes", bytes i.bytes), ("mnemonic", .string i.mnemonic), ("mode", mode i.mode),
        ("operand", .ofOption operand i.operand), ("branch_target", .ofOption word i.target)]
  | .unknown address opcode =>
    .object [("kind", .string "unknown"), ("address", word address), ("opcode", byte opcode)]
  | .truncated address opcode bs expectedLen =>
    .object
      [("kind", .string "partial"), ("address", word address), ("opcode", byte opcode),
        ("bytes", bytes bs), ("expected_len", .number expectedLen)]

def decodedSegment (s : DecodedSegment) : Json :=
  .object [("segment", segment s.segment), ("instructions", .array (s.items.map item))]

def natural? (bound : Nat) : Json → Option Nat
  | .number n => if n < bound then some n else none
  | _ => none

def byte? (j : Json) : Option UInt8 :=
  (natural? UInt8.size j).map UInt8.ofNat

def word? (j : Json) : Option UInt16 :=
  (natural? UInt16.size j).map UInt16.ofNat

/-- A count of bytes, below the bound of 64-bit offsets. -/
def count? (j : Json) : Option Nat :=
  natural? Word.offsetBound j

def bytes? : Json → Option (List UInt8)
  | .array items => items.mapM byte?
  | _ => none

/-- The fields of a record with the given keys, in their order. -/
def fields? (keys : List String) : Json → Option (List Json)
  | .object members => keys.mapM fun key => Json.member? key members
  | .array items => if items.length = keys.length then some items else none
  | _ => none

def segment? (j : Json) : Option Segment :=
  match fields? ["start", "end", "bytes"] j with
  | some [start, last, bs] =>
    match word? start, word? last, bytes? bs with
    | some start, some last, some bytes => some { start, last, bytes }
    | _, _, _ => none
  | _ => none

def trailing? (j : Json) : Option Trailing :=
  match fields? ["offset", "bytes"] j with
  | some [offset, bs] =>
    match count? offset, bytes? bs with
    | some offset, some bytes => some { offset, bytes }
    | _, _ => none
  | _ => none

/-- A choice by name: the bare name, or an object whose only member has that name and holds the payload. -/
def choice? : Json → Option (String × Option Json)
  | .string name => some (name, none)
  | .object [(name, payload)] => some (name, some payload)
  | _ => none

def mode? (j : Json) : Option Mode :=
  match choice? j with
  | some (name, none) | some (name, some .null) => Mode.ofName? name
  | _ => none

def format? (j : Json) : Option Format :=
  match choice? j with
  | some ("xex", none) | some ("xex", some .null) => some .xex
  | some ("raw", some (.object members)) =>
    match Json.member? "base" members with
    | some base => (word? base).map Format.raw
    | none => none
  | _ => none

/-- The narrowest operand of a value. -/
def operand? (j : Json) : Option Operand :=
  match byte? j with
  | some b => some (.byte b)
  | none => (word? j).map Operand.word

end Disasm6502.Interchange
