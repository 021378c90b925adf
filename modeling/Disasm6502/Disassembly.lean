import Disasm6502.Report
import Disasm6502.Sweep

/-!
# Disassembly

A disassembly is a load report whose segments carry their items. Nothing that goes wrong inside an input
discards what was read before it.
-/
namespace Disasm6502

structure Options where
  format : Format
  /-- Load no segment behind this many. -/
  limit : Option Nat
  /-- Cut segments into items; otherwise they only get listed. -/
  decode : Bool
deriving DecidableEq

namespace Options

def standard : Options :=
  { format := .xex, limit := none, decode := true }

def summary : Options :=
  { standard with decode := false }

/-- Takes the input as an image for `base`. -/
def raw (base : UInt16) : Options :=
  { standard with format := .raw base }

/-- Why the options describe no run, if they do not. -/
def fault? (o : Options) : Option Fault :=
  if o.limit = some 0 then some (.configuration "max_segments must be at least 1") else none

/-- The bytes of an input that may be impossible to have. The options are checked first. -/
def accept (o : Options) (input : Except String (List UInt8)) : Except Fault (List UInt8) :=
  match o.fault?, input with
  | some fault, _ => .error fault
  | none, .error text => .error (.unreadable text)
  | none, .ok bytes => .ok bytes

end Options

structure DecodedSegment where
  segment : Segment
  /-- The items of the segment; none when it was not decoded. -/
  items : List Item
deriving DecidableEq

structure Disassembly where
  format : Format
  segments : List DecodedSegment
  trailing : Option Trailing
  /-- What stopped the loading. -/
  error : Option Fault
  markers : Nat
deriving DecidableEq

def Segment.items (s : Segment) : List Item :=
  sweep s.start s.bytes

namespace Disassembly

/-- Disassembles an input; the options are taken as they are. -/
def ofBytes (options : Options) (bytes : List UInt8) : Disassembly :=
  let report := Report.load options.format options.limit bytes
  { format := options.format
    segments := report.segments.map fun segment =>
      { segment, items := if options.decode then segment.items else [] }
    trailing := report.trailing
    error := report.error.map Fault.malformed
    markers := report.markers }

def ofInput (options : Options) (input : Except String (List UInt8)) : Except Fault Disassembly :=
  (options.accept input).map (ofBytes options)

def itemCount (d : Disassembly) : Nat :=
  total (d.segments.map fun s => s.items.length)

def isComplete (d : Disassembly) : Bool :=
  d.error.isNone

end Disassembly
end Disasm6502
