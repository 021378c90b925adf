import Disasm6502.Fault
import Disasm6502.Format
import Disasm6502.LoadFile.Parse

/-!
# Load reports

What loading an input yields: its segments in order, and what stands where the segments end. A load file
reports itself; a headerless image is one segment, whose last address wraps at 64K.
-/
namespace Disasm6502

structure Report where
  segments : List Segment
  trailing : Option Trailing
  error : Option Malformed
  markers : Nat
deriving DecidableEq

def Report.payloadLen (r : Report) : Nat :=
  total (r.segments.map Segment.len)

namespace LoadFile

/-- The residue behind the last segment, if there is any. -/
def trailing? (f : LoadFile) : Option Trailing :=
  match f.ending with
  | .residue [] | .malformed .. => none
  | .residue bytes => some { offset := f.endingOffset, bytes }

def malformed? (f : LoadFile) : Option Malformed :=
  match f.ending with
  | .residue _ => none
  | .malformed header rest =>
    some { offset := f.endingOffset, start := header.start, last := header.last,
           needed := header.bodyLen, available := rest.length }

def report (f : LoadFile) : Report :=
  { segments := f.entries.map Entry.segment
    trailing := f.trailing?
    error := f.malformed?
    markers := total (f.entries.map Entry.markers) + f.markers }

/-- The file that `bytes` are, up to the end of segment number `limit` where there is a limit. -/
def read (limit : Option Nat) (bytes : List UInt8) : LoadFile :=
  match limit with
  | none => parse bytes
  | some count => (parse bytes).cut count

end LoadFile

/-- The segment that a headerless image is; an empty image is none. -/
def rawSegment? (base : UInt16) (bytes : List UInt8) : Option Segment :=
  match bytes with
  | [] => none
  | _ => some { start := base, last := base + UInt16.ofNat (bytes.length - 1), bytes }

namespace Report

/-- Loads a load file, stopping behind segment number `limit`. -/
def ofLoadFile (limit : Option Nat) (bytes : List UInt8) : Report :=
  (LoadFile.read limit bytes).report

def ofImage (base : UInt16) (bytes : List UInt8) : Report :=
  { segments := (rawSegment? base bytes).toList, trailing := none, error := none, markers := 0 }

/-- Loads an input; the limit is for load files only. -/
def load (format : Format) (limit : Option Nat) (bytes : List UInt8) : Report :=
  match format with
  | .xex => ofLoadFile limit bytes
  | .raw base => ofImage base bytes

end Report
end Disasm6502
