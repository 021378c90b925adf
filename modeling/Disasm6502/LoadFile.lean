import Disasm6502.Segment
import Disasm6502.Total

/-!
# Load files

A load file is a row of entries. An entry is a segment behind its header, with markers `FF FF` in front: up
to two before the first header and up to one before each later one. Behind the last entry stands an ending:
markers again, then a residue too short for a header, or a header that the rest of the file does not bear
out. `encode` writes a file out.
-/
namespace Disasm6502

structure Entry where
  /-- Markers in front of the header. -/
  markers : Nat
  segment : Segment
deriving DecidableEq

inductive Ending where
  | residue (bytes : List UInt8)
  | malformed (header : Header) (rest : List UInt8)
deriving DecidableEq

structure LoadFile where
  entries : List Entry
  /-- Markers behind the last entry. -/
  markers : Nat
  ending : Ending
deriving DecidableEq

def markerSize : Nat := 2

/-- The word that marks the front of a header. -/
def markerWord : UInt16 := 0xFFFF

/-- Markers that may stand in front of the first header. -/
def openingMarkers : Nat := 2

/-- Markers that may stand in front of each later header. -/
def innerMarkers : Nat := 1

def encodeMarkers (count : Nat) : List UInt8 :=
  (List.replicate count (Word.toBytes markerWord)).flatten

namespace Entry

def encode (e : Entry) : List UInt8 :=
  encodeMarkers e.markers ++ e.segment.header.toBytes ++ e.segment.bytes

def len (e : Entry) : Nat :=
  markerSize * e.markers + Header.size + e.segment.len

end Entry

namespace Ending

def encode : Ending → List UInt8
  | residue bytes => bytes
  | malformed header rest => header.toBytes ++ rest

end Ending

namespace LoadFile

def encode (f : LoadFile) : List UInt8 :=
  f.entries.flatMap Entry.encode ++ encodeMarkers f.markers ++ f.ending.encode

def prepend (entries : List Entry) (f : LoadFile) : LoadFile :=
  { f with entries := entries ++ f.entries }

/-- The file up to the end of its segment number `count`; the whole file when it has fewer segments. -/
def cut (count : Nat) (f : LoadFile) : LoadFile :=
  if count ≤ f.entries.length then
    { entries := f.entries.take count, markers := 0, ending := .residue [] }
  else f

def endingOffset (f : LoadFile) : Nat :=
  total (f.entries.map Entry.len) + markerSize * f.markers

end LoadFile
end Disasm6502
