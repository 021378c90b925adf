import Disasm6502.Json

/-!
# Reading JSON text

`Json.read?` takes a whole text that holds one value, with blank space wherever JSON allows it, and refuses
everything else. Each reader takes characters from the front and hands back what follows. The fuel bounds the
depth and length of a value; one unit for each character is enough, and `read?` supplies it.
-/
namespace Disasm6502.Json

def isBlank (c : Char) : Bool :=
  c == ' ' || c == '\n' || c == '\r' || c == '\t'

def skipBlank (text : List Char) : List Char :=
  text.dropWhile isBlank

def codeUnit? (a b c d : Char) : Option Nat :=
  match Hex.value? a, Hex.value? b, Hex.value? c, Hex.value? d with
  | some a, some b, some c, some d => some (((a * 16 + b) * 16 + c) * 16 + d)
  | _, _, _, _ => none

/-- The character that a letter behind a backslash stands for. -/
def unescape? (c : Char) : Option Char :=
  if c == '"' || c == '\\' || c == '/' then some c
  else if c == 'b' then some '\x08'
  else if c == 'f' then some '\x0c'
  else if c == 'n' then some '\n'
  else if c == 'r' then some '\r'
  else if c == 't' then some '\t'
  else none

/-- Reads a string behind its opening quote; `done` holds the characters so far, last one first. A character
above the first plane is written as two code units, and half of one stands for nothing. -/
def readString? (done : List Char) : List Char → Option (String × List Char)
  | [] => none
  | '"' :: rest => some (String.ofList done.reverse, rest)
  | '\\' :: 'u' :: a :: b :: c :: d :: rest =>
    match codeUnit? a b c d with
    | none => none
    | some unit =>
      if unit < 0xD800 ∨ 0xDFFF < unit then readString? (Char.ofNat unit :: done) rest
      else if 0xDBFF < unit then none
      else
        match rest with
        | '\\' :: 'u' :: e :: f :: g :: h :: rest =>
          match codeUnit? e f g h with
          | none => none
          | some low =>
            if low < 0xDC00 ∨ 0xDFFF < low then none
            else
              let code := 0x10000 + (unit - 0xD800) * 0x400 + (low - 0xDC00)
              readString? (Char.ofNat code :: done) rest
        | _ => none
  | '\\' :: c :: rest =>
    match unescape? c with
    | some c => readString? (c :: done) rest
    | none => none
  | c :: rest => if c < ' ' then none else readString? (c :: done) rest

/-- Whether `text` is a run of one or more digits. -/
def isDigits (text : List Char) : Bool :=
  !text.isEmpty && text.all Char.isDigit

/-- Whether `text` is a whole part: digits without a leading zero, or zero. -/
def isWhole : List Char → Bool
  | ['0'] => true
  | '0' :: _ => false
  | text => isDigits text

/-- Whether `text` is nothing, or an exponent with its mark. -/
def isExponent : List Char → Bool
  | [] => true
  | mark :: '+' :: digits => (mark == 'e' || mark == 'E') && isDigits digits
  | mark :: '-' :: digits => (mark == 'e' || mark == 'E') && isDigits digits
  | mark :: digits => (mark == 'e' || mark == 'E') && isDigits digits

/-- Whether `text` is what may follow a whole part: a fraction, an exponent, both, or nothing. -/
def isFraction : List Char → Bool
  | '.' :: rest => isDigits (rest.takeWhile Char.isDigit) && isExponent (rest.dropWhile Char.isDigit)
  | rest => isExponent rest

def number? (text : List Char) : Option Json :=
  let unsigned := match text with
    | '-' :: rest => rest
    | rest => rest
  let whole := unsigned.takeWhile Char.isDigit
  let fraction := unsigned.dropWhile Char.isDigit
  if !isWhole whole || !isFraction fraction then none
  else if whole == text then some (number (Nat.ofDigitChars 10 whole 0))
  else some (otherNumber (String.ofList text))

def isNumberChar (c : Char) : Bool :=
  c.isDigit || c == '-' || c == '+' || c == '.' || c == 'e' || c == 'E'

mutual

/-- Reads a value, which starts at the first character. -/
def readValue? : Nat → List Char → Option (Json × List Char)
  | 0, _ => none
  | _ + 1, 'n' :: 'u' :: 'l' :: 'l' :: rest => some (null, rest)
  | _ + 1, 't' :: 'r' :: 'u' :: 'e' :: rest => some (bool true, rest)
  | _ + 1, 'f' :: 'a' :: 'l' :: 's' :: 'e' :: rest => some (bool false, rest)
  | _ + 1, '"' :: rest =>
    match readString? [] rest with
    | some (s, rest) => some (string s, rest)
    | none => none
  | fuel + 1, '[' :: rest =>
    match skipBlank rest with
    | ']' :: rest => some (array [], rest)
    | rest => readItems? fuel [] rest
  | fuel + 1, '\x7b' :: rest =>
    match skipBlank rest with
    | '\x7d' :: rest => some (object [], rest)
    | rest => readMembers? fuel [] rest
  | _ + 1, text =>
    match number? (text.takeWhile isNumberChar) with
    | some n => some (n, text.dropWhile isNumberChar)
    | none => none

/-- Reads the items of an array up to its closing bracket. -/
def readItems? : Nat → List Json → List Char → Option (Json × List Char)
  | 0, _, _ => none
  | fuel + 1, done, text =>
    match readValue? fuel text with
    | none => none
    | some (item, rest) =>
      match skipBlank rest with
      | ',' :: rest => readItems? fuel (item :: done) (skipBlank rest)
      | ']' :: rest => some (array (item :: done).reverse, rest)
      | _ => none

/-- Reads the members of an object up to its closing bracket. -/
def readMembers? : Nat → List (String × Json) → List Char → Option (Json × List Char)
  | 0, _, _ => none
  | fuel + 1, done, '"' :: text =>
    match readString? [] text with
    | none => none
    | some (key, rest) =>
      match skipBlank rest with
      | ':' :: rest =>
        match readValue? fuel (skipBlank rest) with
        | none => none
        | some (value, rest) =>
          match skipBlank rest with
          | ',' :: rest => readMembers? fuel ((key, value) :: done) (skipBlank rest)
          | '\x7d' :: rest => some (object ((key, value) :: done).reverse, rest)
          | _ => none
      | _ => none
  | _ + 1, _, _ => none

end

def read? (text : String) : Option Json :=
  let chars := text.toList
  match readValue? (chars.length + 1) (skipBlank chars) with
  | some (value, rest) => if (skipBlank rest).isEmpty then some value else none
  | none => none

end Disasm6502.Json
