/-!
# Words

A word is two bytes, low byte first. Words are read at a 64-bit offset of a buffer; an offset whose
second byte would lie past the last 64-bit offset names no word, nor does one that runs past the buffer.
-/
namespace Disasm6502.Word

/-- The word with the given low and high byte. -/
def ofBytes (low high : UInt8) : UInt16 :=
  low.toUInt16 + 256 * high.toUInt16

def toBytes (w : UInt16) : List UInt8 :=
  [w.toUInt8, (w / 256).toUInt8]

/-- One more than the largest 64-bit offset. -/
def offsetBound : Nat := UInt64.size

def read? (bytes : List UInt8) (offset : Nat) : Option UInt16 :=
  if offset + 2 < offsetBound then
    match bytes.drop offset with
    | low :: high :: _ => some (ofBytes low high)
    | _ => none
  else none

end Disasm6502.Word
