import Disasm6502.LoadFile

/-!
# Input formats

An input is taken either as a load file or as a headerless image for a given address. The layout is what the
first bytes of an input look like, whatever it is taken as.
-/
namespace Disasm6502

inductive Format where
  | xex
  /-- A headerless image whose first byte goes to `base`. -/
  | raw (base : UInt16)
deriving DecidableEq

def Format.text : Format → String
  | xex => "XEX"
  | raw base => "Raw @ $" ++ Hex.upper 4 base.toNat

inductive Layout where
  /-- A marker leads. -/
  | marked
  /-- No marker leads, and there is room for a header. -/
  | unmarked
  /-- Too short for a header. -/
  | empty
deriving DecidableEq

namespace Layout

def name : Layout → String
  | marked => "Xex"
  | unmarked => "Unmarked"
  | empty => "Empty"

/-- The layout that the first bytes show. -/
def detect (bytes : List UInt8) : Layout :=
  if Word.read? bytes 0 = some markerWord then marked
  else if (bytes.take Header.size).length = Header.size then unmarked
  else empty

end Layout
end Disasm6502
