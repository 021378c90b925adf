import Disasm6502.Numeral
import Disasm6502.Text.Plain

/-!
# Arguments

What a command line can ask for, the names that it uses, and what can be wrong with it.
-/
namespace Disasm6502

inductive OutputFormat where
  | human | json | short
deriving DecidableEq

/-- Arguments that are there or not. -/
inductive Switch where
  | raw | pretty | verbose | quiet
deriving DecidableEq

inductive Setting where
  | format | base | maxSegments
deriving DecidableEq

/-- What a name on the command line stands for. -/
inductive Named where
  | switch (s : Switch)
  | setting (s : Setting)
  | version
  | help
deriving DecidableEq

/-- Everything that a run needs to know. -/
structure Arguments where
  files : List String
  format : OutputFormat
  raw : Bool
  base : UInt16
  maxSegments : Option Nat
  pretty : Bool
  verbose : Bool
  quiet : Bool
deriving DecidableEq

inductive Request where
  | version
  | help
  | run (arguments : Arguments)
deriving DecidableEq

inductive UsageError where
  | noFiles
  | unexpectedArgument (argument : String)
  | unexpectedValue (value owner : String)
  | repeated (owner : String)
  | valueMissing (owner : String)
  | invalidFormat (value : String)
  | invalidBase (value : String) (flaw : Numeral.Flaw)
  | invalidMaxSegments (value : String) (flaw : Numeral.Flaw)
deriving DecidableEq

namespace Setting

def display : Setting → String
  | format => "--format <FORMAT>"
  | base => "--base <BASE>"
  | maxSegments => "--max-segments <MAX_SEGMENTS>"

end Setting

namespace Switch

def display : Switch → String
  | raw => "--raw"
  | pretty => "--pretty"
  | verbose => "--verbose"
  | quiet => "--quiet"

end Switch

namespace Named

def display : Named → String
  | switch s => s.display
  | setting s => s.display
  | version => "--version"
  | help => "--help"

/-- The meaning of a name behind two dashes. -/
def ofLong? (name : String) : Option Named :=
  match name with
  | "format" => some (setting .format)
  | "base" => some (setting .base)
  | "max-segments" => some (setting .maxSegments)
  | "raw" => some (switch .raw)
  | "pretty" => some (switch .pretty)
  | "verbose" => some (switch .verbose)
  | "quiet" => some (switch .quiet)
  | "version" => some version
  | "help" => some help
  | _ => none

/-- The meaning of a letter behind one dash. -/
def ofLetter? (letter : Char) : Option Named :=
  if letter == 'f' then some (setting .format)
  else if letter == 'v' then some (switch .verbose)
  else if letter == 'q' then some (switch .quiet)
  else if letter == 'V' then some version
  else if letter == 'h' then some help
  else none

end Named

def filesDisplay : String := "<FILES>..."

namespace UsageError

/-- Quotes a name or a value. The bold face ends where the quoted text ends, and so does a control sequence that
the text leaves open. -/
def quote (text : String) : String :=
  "'" ++ bold text ++ "'"

def message : UsageError → String
  | noFiles => "the following required arguments were not provided:"
  | unexpectedArgument argument => "unexpected argument " ++ quote argument ++ " found"
  | unexpectedValue value owner =>
    "unexpected value " ++ quote value ++ " for " ++ quote owner ++ " found; no more were expected"
  | repeated owner => "the argument " ++ quote owner ++ " cannot be used multiple times"
  | valueMissing owner => "a value is required for " ++ quote owner ++ " but none was supplied"
  | invalidFormat value => "invalid value " ++ quote value ++ " for " ++ quote Setting.format.display
  | invalidBase value flaw =>
    "invalid value " ++ quote value ++ " for " ++ quote Setting.base.display ++ ": invalid address '"
      ++ value ++ "': " ++ flaw.message
  | invalidMaxSegments value flaw =>
    "invalid value " ++ quote value ++ " for " ++ quote Setting.maxSegments.display ++ ": " ++ flaw.message

/-- What is printed: the plain form of the message and of a hint. -/
def text (e : UsageError) : String :=
  plainText ("error: " ++ e.message ++ "\n\nFor more information, try " ++ quote "--help" ++ ".\n")

end UsageError

end Disasm6502
