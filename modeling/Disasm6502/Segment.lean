import Disasm6502.Hex
import Disasm6502.Word

/-!
# Segments

A segment is a block of bytes for one range of memory. In a load file a header of two words, the first and
the last address, stands in front of it; the header alone says how long the block has to be.
-/
namespace Disasm6502

structure Segment where
  start : UInt16
  /-- The last address, which still belongs to the segment. -/
  last : UInt16
  bytes : List UInt8
deriving DecidableEq

/-- The bytes at the end of a load file that are too few for a header. -/
structure Trailing where
  offset : Nat
  bytes : List UInt8
deriving DecidableEq

structure Header where
  start : UInt16
  last : UInt16
deriving DecidableEq

namespace Header

def size : Nat := 4

/-- The bytes a header calls for: none when its last address lies before its first. -/
def bodyLen (h : Header) : Nat :=
  h.last.toNat + 1 - h.start.toNat

def toBytes (h : Header) : List UInt8 :=
  Word.toBytes h.start ++ Word.toBytes h.last

end Header

namespace Segment

def header (s : Segment) : Header :=
  { start := s.start, last := s.last }

def len (s : Segment) : Nat :=
  s.bytes.length

def range (s : Segment) : String :=
  Hex.upper 4 s.start.toNat ++ "-" ++ Hex.upper 4 s.last.toNat

end Segment
end Disasm6502
