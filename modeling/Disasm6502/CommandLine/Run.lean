import Disasm6502.CommandLine.Draft
import Disasm6502.Listing
import Disasm6502.Log.Filter

/-!
# Runs

A run lists its files one after the other. Each file adds a listing or an error line, and its share of the
log; no file has a say in what another adds. The run succeeds when every file was listed and none stopped at
a malformed header. `run` is what a run leaves behind; `runM` goes from file to file, in a monad where each is read
when its turn comes.
-/
namespace Disasm6502

/-- What opening a path yields: the bytes there, or why there are none. -/
abbrev Files := String → Except String (List UInt8)

def versionText : String := "0.1.0"

def programName : String := "xex-disasm"

namespace Arguments

def options (a : Arguments) : Options :=
  { format := if a.raw then .raw a.base else .xex
    limit := a.maxSegments
    decode := a.format != .short }

def style (a : Arguments) : Style :=
  match a.format with
  | .human => .human a.verbose
  | .json => .json a.pretty
  | .short => .short a.quiet

/-- What the log lets through; a verbose run decides it by itself. -/
def thresholds (a : Arguments) (asked : Option Thresholds) : Thresholds :=
  if a.verbose then Filter.thresholds (Filter.ofProgram (some .debug))
  else asked.getD (Filter.thresholds (Filter.ofThreshold (some .warn)))

end Arguments

structure FileOutcome where
  listing : String
  log : List Event
  errors : String
  complete : Bool

structure Outcome where
  exit : Nat
  stdout : String
  log : List Event
  stderr : String

/-- The error line of a file. What the system says of an unreadable file comes twice. -/
def failureLine (name : String) (fault : Fault) : String :=
  let detail := match fault with
    | .unreadable text => ": " ++ text
    | _ => ""
  "Error: failed to disassemble " ++ name ++ ": " ++ fault.message ++ detail ++ "\n"

namespace FileOutcome

def ofInput (a : Arguments) (thresholds : Thresholds) (name : String) (input : Except String (List UInt8)) :
    FileOutcome :=
  match a.options.accept input with
  | .ok bytes =>
    let d := Disassembly.ofBytes a.options bytes
    { listing := a.style.listing name d
      log := (Disassembly.events a.options bytes).filter fun e => (thresholds e).passes e.level
      errors := ""
      complete := d.isComplete }
  | .error fault =>
    { listing := ""
      log := []
      errors := if a.quiet then "" else failureLine name fault
      complete := false }

def ofFile (a : Arguments) (thresholds : Thresholds) (files : Files) (name : String) : FileOutcome :=
  ofInput a thresholds name (files name)

end FileOutcome

namespace Outcome

def ofFiles (files : List FileOutcome) : Outcome :=
  { exit := if files.all FileOutcome.complete then 0 else 1
    stdout := String.join (files.map FileOutcome.listing)
    log := files.flatMap FileOutcome.log
    stderr := String.join (files.map FileOutcome.errors) }

end Outcome

namespace Arguments

def run (a : Arguments) (asked : Option Thresholds) (files : Files) : Outcome :=
  .ofFiles (a.files.map (FileOutcome.ofFile a (a.thresholds asked) files))

/-- Reads each file in its turn and hands over what it adds; the result is the exit status. -/
def runM {m : Type → Type} [Monad m] (a : Arguments) (asked : Option Thresholds)
    (read : String → m (Except String (List UInt8))) (print : FileOutcome → m Unit) : m Nat := do
  let success ← a.files.foldlM (fun success name => do
    let outcome := FileOutcome.ofInput a (a.thresholds asked) name (← read name)
    print outcome
    return success && outcome.complete) true
  return if success then 0 else 1

end Arguments

def usageText : String :=
  "Usage: " ++ programName ++ " [OPTIONS] <FILES>...\n"

/-- Answers a command line: `defaultBase` and `asked` are what the environment says of the base and the log. -/
def runCommandLine (arguments : List String) (defaultBase : Option String) (asked : Option Thresholds)
    (files : Files) : Outcome :=
  match Arguments.parse arguments defaultBase with
  | .ok .version => { exit := 0, stdout := programName ++ " " ++ versionText ++ "\n", log := [], stderr := "" }
  | .ok .help => { exit := 0, stdout := usageText, log := [], stderr := "" }
  | .ok (.run a) => a.run asked files
  | .error e => { exit := 2, stdout := "", log := [], stderr := e.text }

end Disasm6502
