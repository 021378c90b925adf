import Disasm6502.Listing.Document

/-!
# Listings

A listing is text for one file: assembler lines, JSON, or a line for each segment. The assembler and the
short listing are parts in a row: a header, the segments, the trailing bytes and the fault, each as far as
there is one.
-/
namespace Disasm6502

inductive Style where
  /-- Assembler lines, behind a header for the file where `verbose`. -/
  | human (verbose : Bool)
  | json (pretty : Bool)
  /-- A line for each segment, behind a line for the file unless `quiet`. -/
  | short (quiet : Bool)
deriving DecidableEq

/-- The parts of a listing in their order. -/
structure Parts where
  header : Option String
  segments : List String
  trailing : Option String
  error : Option String
deriving DecidableEq

def Parts.text (p : Parts) : String :=
  p.header.getD "" ++ String.join p.segments ++ p.trailing.getD "" ++ p.error.getD ""

namespace Human

/-- The two lines about the file. -/
def header (path : String) (d : Disassembly) : String :=
  "; File: " ++ path ++ "\n; Format: " ++ d.format.text ++ ", " ++ toString d.segments.length
    ++ " segment(s), " ++ toString d.markers ++ " marker(s), " ++ toString d.itemCount ++ " item(s)\n"

def segment (s : DecodedSegment) : String :=
  "; Segment " ++ s.segment.range ++ "\n" ++ String.join (s.items.map fun item => item.line ++ "\n") ++ ";\n"

def trailing (t : Trailing) : String :=
  "; Trailing data at offset " ++ toString t.offset ++ ": " ++ Hex.packed t.bytes ++ "\n"

def error (e : Fault) : String :=
  "; Error: " ++ e.message ++ "\n"

end Human

namespace Short

/-- The line about the file. -/
def header (path : String) (d : Disassembly) : String :=
  "File: " ++ path ++ " (" ++ d.format.text ++ ", " ++ toString d.markers ++ " marker(s))\n"

def segment (s : DecodedSegment) : String :=
  "Segment: Start " ++ addressText s.segment.start ++ ", End " ++ addressText s.segment.last
    ++ ", Len " ++ toString s.segment.len ++ " bytes\n"

def trailing (t : Trailing) : String :=
  "Trailing data at " ++ toString t.offset ++ ": " ++ Hex.packed t.bytes ++ "\n"

def error (e : Fault) : String :=
  "Error: " ++ e.message ++ "\n"

end Short

namespace Style

/-- The parts of a listing. A JSON listing is written as a whole and has none of its own. -/
def parts (style : Style) (path : String) (d : Disassembly) : Parts :=
  match style with
  | human verbose =>
    { header := if verbose then some (Human.header path d) else none
      segments := d.segments.map Human.segment
      trailing := d.trailing.map Human.trailing
      error := d.error.map Human.error }
  | json _ =>
    { header := none, segments := d.segments.map fun _ => "", trailing := none, error := none }
  | short quiet =>
    { header := if quiet then none else some (Short.header path d)
      segments := d.segments.map Short.segment
      trailing := d.trailing.map Short.trailing
      error := d.error.map Short.error }

def listing (style : Style) (path : String) (d : Disassembly) : String :=
  match style with
  | json pretty => Document.text (if pretty then .indented else .compact) path d
  | style => (style.parts path d).text

end Style
end Disasm6502
