import Disasm6502.Hex
import Disasm6502.Text

/-!
# JSON values and their text

Values keep the order of their members. A number is either a natural number, written in decimal, or any
other number, kept as its text, so no number changes on the way through. Spacing decides the blank space
between the parts of a value: none at all, or one member a line.
-/
namespace Disasm6502

inductive Json where
  | null
  | bool (b : Bool)
  | number (n : Nat)
  /-- A number that is no plain run of digits: one with a sign, a fraction or an exponent. -/
  | otherNumber (text : String)
  | string (s : String)
  | array (items : List Json)
  | object (members : List (String × Json))

namespace Json

/-- The member called `key`; of several, the last. -/
def member? (key : String) (members : List (String × Json)) : Option Json :=
  members.foldl (fun found m => if m.1 == key then some m.2 else found) none

/-- The value of what is there, and `null` for what is not. -/
def ofOption {α : Type} (value : α → Json) : Option α → Json
  | none => null
  | some a => value a

def escape (c : Char) : String :=
  if c == '"' then "\\\""
  else if c == '\\' then "\\\\"
  else if c == '\x08' then "\\b"
  else if c == '\t' then "\\t"
  else if c == '\n' then "\\n"
  else if c == '\x0c' then "\\f"
  else if c == '\r' then "\\r"
  else if c < ' ' then "\\u" ++ Hex.lower 4 c.toNat
  else c.toString

def quoted (s : String) : String :=
  "\"" ++ String.join (s.toList.map escape) ++ "\""

/-- Blank space between the parts of a value. -/
structure Spacing where
  /-- In front of a member at the given depth, and of the bracket that closes its list. -/
  gap : Nat → String
  /-- Between a key and its value. -/
  colon : String

namespace Spacing

def compact : Spacing where
  gap _ := ""
  colon := ":"

/-- One member a line, two blanks for each level. -/
def indented : Spacing where
  gap depth := "\n" ++ blanks (2 * depth)
  colon := ": "

end Spacing

mutual

/-- Adds the text of a value that stands at `depth`. -/
def write (spacing : Spacing) (depth : Nat) (text : String) : Json → String
  | null => text ++ "null"
  | bool true => text ++ "true"
  | bool false => text ++ "false"
  | number n => text ++ toString n
  | otherNumber t => text ++ t
  | string s => text ++ quoted s
  | array [] => text ++ "[]"
  | array (item :: items) =>
    let first := write spacing (depth + 1) (text ++ "[" ++ spacing.gap (depth + 1)) item
    writeItems spacing (depth + 1) first items ++ spacing.gap depth ++ "]"
  | object [] => text ++ "\x7b\x7d"
  | object ((key, value) :: members) =>
    let opened := text ++ "\x7b" ++ spacing.gap (depth + 1) ++ quoted key ++ spacing.colon
    let first := write spacing (depth + 1) opened value
    writeMembers spacing (depth + 1) first members ++ spacing.gap depth ++ "\x7d"

/-- Adds further items, a comma in front of each. -/
def writeItems (spacing : Spacing) (depth : Nat) (text : String) : List Json → String
  | [] => text
  | item :: items =>
    let next := write spacing depth (text ++ "," ++ spacing.gap depth) item
    writeItems spacing depth next items

/-- Adds further members, a comma in front of each. -/
def writeMembers (spacing : Spacing) (depth : Nat) (text : String) : List (String × Json) → String
  | [] => text
  | (key, value) :: members =>
    let opened := text ++ "," ++ spacing.gap depth ++ quoted key ++ spacing.colon
    writeMembers spacing depth (write spacing depth opened value) members

end

def render (spacing : Spacing) (value : Json) : String :=
  write spacing 0 "" value

end Json
end Disasm6502
