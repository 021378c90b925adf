/-!
# Hexadecimal digits

Text of a number in base sixteen, with at least a given number of digits, in either case, and the value of
a digit. Nothing is cut off: a number that needs more digits than asked for gets them.
-/
namespace Disasm6502.Hex

/-- The digit for a number below sixteen; `ten` is the letter for ten. -/
def digit (ten : Char) (n : Nat) : Char :=
  if n < 10 then Char.ofNat ('0'.toNat + n) else Char.ofNat (ten.toNat + (n - 10))

/-- The last `width` digits of `n`, most significant first. -/
def digits (ten : Char) : Nat → Nat → List Char
  | 0, _ => []
  | width + 1, n => digits ten width (n / 16) ++ [digit ten (n % 16)]

/-- How many digits `n` takes; zero takes one. -/
def digitCount (n : Nat) : Nat :=
  n.log2 / 4 + 1

/-- Upper-case digits of `n`, padded with zeros to at least `width`. -/
def upper (width n : Nat) : String :=
  String.ofList (digits 'A' (max width (digitCount n)) n)

/-- Lower-case digits of `n`, padded with zeros to at least `width`. -/
def lower (width n : Nat) : String :=
  String.ofList (digits 'a' (max width (digitCount n)) n)

/-- Bytes as upper-case pairs of digits with one blank between them. -/
def spaced (bytes : List UInt8) : String :=
  String.intercalate " " (bytes.map fun b => upper 2 b.toNat)

/-- Bytes as lower-case pairs of digits with nothing between them. -/
def packed (bytes : List UInt8) : String :=
  String.join (bytes.map fun b => lower 2 b.toNat)

/-- The value of a digit of either case. -/
def value? (c : Char) : Option Nat :=
  if '0' ≤ c ∧ c ≤ '9' then some (c.toNat - '0'.toNat)
  else if 'A' ≤ c ∧ c ≤ 'F' then some (c.toNat - 'A'.toNat + 10)
  else if 'a' ≤ c ∧ c ≤ 'f' then some (c.toNat - 'a'.toNat + 10)
  else none

end Disasm6502.Hex
