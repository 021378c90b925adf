/-!
# Plain text

A terminal obeys escape sequences, control sequences and control strings instead of showing them. The plain
form of a text is what remains without them and without all other control characters: visible characters
and white space.
-/
namespace Disasm6502

namespace Plain

/-- The characters from `!` to `/`, and the blank. -/
def isIntermediate (c : Char) : Bool :=
  ' ' ≤ c && c ≤ '/'

def isParameter (c : Char) : Bool :=
  '0' ≤ c && c ≤ '?'

def isFinal (c : Char) : Bool :=
  '@' ≤ c && c ≤ '~'

def isAscii (c : Char) : Bool :=
  c ≤ '\x7f'

/-- What plain text is made of. -/
def isPlain (c : Char) : Bool :=
  !isAscii c || isIntermediate c || isParameter c || isFinal c

/-- Control characters that are white space. -/
def isSpacing (c : Char) : Bool :=
  c == '\t' || c == '\n' || c == '\x0c' || c == '\r'

/-- The byte that ends a control string counts wherever it stands in the encoding of a character. -/
def hasTerminator (c : Char) : Bool :=
  (String.utf8EncodeChar c).contains 0x9c

inductive Phase where
  | text
  /-- Right behind an escape character. -/
  | escape
  /-- In an escape sequence of more than one character. -/
  | escapeSequence
  | controlSequence
  /-- In a command to the operating system. -/
  | systemCommand
  /-- At the beginning of a control string for a device. -/
  | deviceEntry
  /-- Among its parameters. -/
  | deviceParameters
  /-- Among its intermediate characters. -/
  | deviceIntermediates
  /-- In any other control string, or in the rest of one for a device. -/
  | controlString
deriving DecidableEq

namespace Phase

/-- The phase behind a character that is not shown. -/
def next (p : Phase) (c : Char) : Phase :=
  if c == '\x1b' then escape
  else if c == '\x18' || c == '\x1a' then text
  else
    match p with
    | text => text
    | escape =>
      if isIntermediate c then escapeSequence
      else if c == '[' then controlSequence
      else if c == ']' then systemCommand
      else if c == 'P' then deviceEntry
      else if c == 'X' || c == '^' || c == '_' then controlString
      else if isParameter c || isFinal c then text
      else escape
    | escapeSequence => if isParameter c || isFinal c then text else escapeSequence
    | controlSequence => if isFinal c then text else controlSequence
    | systemCommand => if c == '\x07' then text else systemCommand
    | deviceEntry =>
      if isIntermediate c then deviceIntermediates
      else if isParameter c then deviceParameters
      else if isFinal c then controlString
      else deviceEntry
    | deviceParameters =>
      if isIntermediate c then deviceIntermediates
      else if '<' ≤ c && c ≤ '~' then controlString
      else deviceParameters
    | deviceIntermediates =>
      if isParameter c || isFinal c then controlString else deviceIntermediates
    | controlString => if hasTerminator c then text else controlString

/-- White space shows through in these phases. -/
def isSequence : Phase → Bool
  | escape | escapeSequence | controlSequence => true
  | _ => false

end Phase

/-- How far a text has been read. White space inside of a sequence puts the sequence aside: text is shown up to
the next control character, and behind that the sequence goes on. -/
structure Position where
  phase : Phase
  aside : Bool
deriving DecidableEq

namespace Position

def start : Position :=
  { phase := .text, aside := false }

def shows (p : Position) (c : Char) : Bool :=
  if p.phase == .text || p.aside then isPlain c || isSpacing c
  else p.phase.isSequence && isSpacing c

/-- Reads a character. One beyond ASCII ends the sequence that was put aside. -/
def next (p : Position) (c : Char) : Position :=
  if p.shows c then
    if isAscii c then { p with aside := true } else start
  else { phase := p.phase.next c, aside := false }

end Position

def keep (p : Position) : List Char → List Char
  | [] => []
  | c :: rest =>
    if p.shows c then c :: keep (p.next c) rest else keep (p.next c) rest

end Plain

def plainText (text : String) : String :=
  String.ofList (Plain.keep .start text.toList)

def bold (text : String) : String :=
  "\x1b[1m" ++ text ++ "\x1b[0m"

end Disasm6502
