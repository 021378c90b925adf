import Disasm6502.Disassembly
import Disasm6502.Log.Level

/-!
# The log of a run

A run leaves a list of events: what the loader passed, in file order, then a summary of the loading, then
each instruction that a segment cuts off. Written out, an event is one line.
-/
namespace Disasm6502

inductive Event where
  | marker (offset : Nat)
  /-- The header stands at `offset`. -/
  | segment (offset : Nat) (segment : Segment)
  | malformed (m : Malformed)
  | trailing (t : Trailing)
  | image (segment : Segment)
  | loaded (format : Format) (layout : Layout) (segments markers : Nat)
  | truncated (address : UInt16) (opcode : UInt8) (expectedLen remaining : Nat)
deriving DecidableEq

namespace Event

def level : Event → Level
  | malformed _ | trailing _ => .warn
  | marker _ | segment .. | image _ | loaded .. => .debug
  | truncated .. => .trace

def target : Event → String
  | marker _ | segment .. | malformed _ | trailing _ => "xex_disasm::formats::xex"
  | image _ => "xex_disasm::formats::raw"
  | loaded .. => "xex_disasm"
  | truncated .. => "xex_disasm::decoder"

def message : Event → String
  | marker _ => "segment marker"
  | segment .. => "segment"
  | malformed _ => "malformed segment"
  | trailing _ => "trailing data after last segment"
  | image _ => "raw image"
  | loaded .. => "loaded"
  | truncated .. => "partial instruction"

def fields : Event → List (String × String)
  | marker offset => [("offset", toString offset)]
  | segment offset s =>
    [("offset", toString offset), ("start", toString s.start.toNat), ("end", toString s.last.toNat),
      ("len", toString s.len)]
  | malformed m =>
    [("offset", toString m.offset), ("start", toString m.start.toNat), ("end", toString m.last.toNat),
      ("needed", toString m.needed), ("available", toString m.available)]
  | trailing t => [("offset", toString t.offset), ("len", toString t.bytes.length)]
  | image s =>
    [("base", toString s.start.toNat), ("end", toString s.last.toNat), ("len", toString s.len)]
  | loaded format layout segments markers =>
    [("format", format.text), ("layout", layout.name), ("segments", toString segments),
      ("markers", toString markers)]
  | truncated address opcode expectedLen remaining =>
    [("address", toString address.toNat), ("opcode", toString opcode.toNat),
      ("len", toString expectedLen), ("remaining", toString remaining)]

/-- Level, target, message and fields on one line. -/
def line (e : Event) : String :=
  e.level.name ++ " " ++ e.target ++ ": " ++ e.message
    ++ String.join (e.fields.map fun field => " " ++ field.1 ++ "=" ++ field.2)

end Event

/-- The markers that start at `offset`, one behind the other. -/
def markerEvents (offset count : Nat) : List Event :=
  (List.range count).map fun i => .marker (offset + markerSize * i)

/-- The events of entries that start at `offset`. -/
def entryEvents (offset : Nat) : List Entry → List Event
  | [] => []
  | e :: rest =>
    markerEvents offset e.markers ++ .segment (offset + markerSize * e.markers) e.segment
      :: entryEvents (offset + e.len) rest

namespace LoadFile

def events (f : LoadFile) : List Event :=
  entryEvents 0 f.entries ++ markerEvents (total (f.entries.map Entry.len)) f.markers
    ++ (f.trailing?.map Event.trailing).toList ++ (f.malformed?.map Event.malformed).toList

end LoadFile

/-- The event of an item: only an instruction that is cut off has one. -/
def Item.event? : Item → Option Event
  | .truncated address opcode bytes expectedLen =>
    some (.truncated address opcode expectedLen bytes.length)
  | _ => none

def loadEvents (format : Format) (limit : Option Nat) (bytes : List UInt8) : List Event :=
  match format with
  | .xex => (LoadFile.read limit bytes).events
  | .raw base => ((rawSegment? base bytes).map Event.image).toList

namespace Disassembly

def events (options : Options) (bytes : List UInt8) : List Event :=
  let d := ofBytes options bytes
  loadEvents options.format options.limit bytes
    ++ [.loaded options.format (Layout.detect bytes) d.segments.length d.markers]
    ++ d.segments.flatMap fun s => s.items.filterMap Item.event?

end Disassembly
end Disasm6502
