import Disasm6502.Hex

/-!
# Numerals

Numbers as a user types them: an optional plus sign and digits of a radix, with a bound on the value. A text
that is no such numeral has a flaw; of several, the one that comes first in the text counts. Addresses are
hexadecimal and may carry a mark in front.
-/
namespace Disasm6502.Numeral

inductive Flaw where
  | empty
  | invalidDigit
  | tooLarge
deriving DecidableEq

def Flaw.message : Flaw → String
  | empty => "cannot parse integer from empty string"
  | invalidDigit => "invalid digit found in string"
  | tooLarge => "number too large to fit in target type"

/-- The value of a digit below `radix`, which is sixteen at most. -/
def digit? (radix : Nat) (c : Char) : Option Nat :=
  (Hex.value? c).filter (· < radix)

def readDigits (radix bound value : Nat) : List Char → Except Flaw Nat
  | [] => .ok value
  | c :: rest =>
    match digit? radix c with
    | none => .error .invalidDigit
    | some d =>
      if value * radix + d < bound then readDigits radix bound (value * radix + d) rest
      else .error .tooLarge

/-- Reads a whole numeral whose value is below `bound`. -/
def read (radix bound : Nat) (text : List Char) : Except Flaw Nat :=
  match text with
  | [] => .error .empty
  | ['+'] => .error .invalidDigit
  | '+' :: digits => readDigits radix bound 0 digits
  | digits => readDigits radix bound 0 digits

/-- Takes the mark of a hexadecimal number off, `$`, `0x` or `0X`. -/
def unmark : List Char → List Char
  | '$' :: digits => digits
  | '0' :: 'x' :: digits => digits
  | '0' :: 'X' :: digits => digits
  | digits => digits

def readAddress (text : String) : Except Flaw UInt16 :=
  match read 16 UInt16.size (unmark text.toList) with
  | .ok n => .ok (UInt16.ofNat n)
  | .error flaw => .error flaw

/-- Reads a decimal count of 64 bits. -/
def readCount (text : String) : Except Flaw Nat :=
  read 10 UInt64.size text.toList

end Disasm6502.Numeral
