import Disasm6502.CommandLine.Arguments

/-!
# Taking arguments

Switches, settings and files come in any order; a setting takes its value from the same argument or from the
next one, and everything behind `--` is a file. The arguments are taken one by one. A setting that waits for
its value, and files in a row, stay open until another switch, setting or file closes them; only then are
they checked, so an argument that is no argument at all is found first.
-/
namespace Disasm6502

namespace Arguments

inductive Pending where
  | nothing
  /-- A setting and its value, if that has come. -/
  | setting (s : Setting) (value : Option String)
  | files (names : List String)

structure Draft where
  files : List String
  format : Option OutputFormat
  base : Option UInt16
  maxSegments : Option Nat
  switches : List Switch
  pending : Pending

/-- How taking one argument ends. -/
inductive Progress where
  | more (d : Draft)
  | done (r : Request)

def parseFormat (value : String) : Except UsageError OutputFormat :=
  match value with
  | "human" => .ok .human
  | "json" => .ok .json
  | "short" => .ok .short
  | "" => .error (.valueMissing Setting.format.display)
  | _ => .error (.invalidFormat value)

def parseBase (value : String) : Except UsageError UInt16 :=
  (Numeral.readAddress value).mapError (.invalidBase value)

def parseMaxSegments (value : String) : Except UsageError Nat :=
  (Numeral.readCount value).mapError (.invalidMaxSegments value)

namespace Draft

def empty : Draft :=
  { files := [], format := none, base := none, maxSegments := none, switches := [], pending := .nothing }

def has (d : Draft) : Setting → Bool
  | .format => d.format.isSome
  | .base => d.base.isSome
  | .maxSegments => d.maxSegments.isSome

def set (d : Draft) (s : Setting) (value : String) : Except UsageError Draft :=
  if d.has s then .error (.repeated s.display)
  else
    match s with
    | .format => do return { d with format := some (← parseFormat value) }
    | .base => do return { d with base := some (← parseBase value) }
    | .maxSegments => do return { d with maxSegments := some (← parseMaxSegments value) }

/-- Closes what is open. -/
def close (d : Draft) : Except UsageError Draft :=
  match d.pending with
  | .nothing => .ok d
  | .setting s none => .error (.valueMissing s.display)
  | .setting s (some value) => { d with pending := .nothing }.set s value
  | .files names =>
    if names.any String.isEmpty then .error (.valueMissing filesDisplay)
    else .ok { d with pending := .nothing, files := d.files ++ names }

def switchOn (d : Draft) (s : Switch) : Except UsageError Draft := do
  let d ← d.close
  if d.switches.contains s then .error (.repeated s.display)
  else .ok { d with switches := s :: d.switches }

/-- Takes a named argument with the value attached to it, if there is one. -/
def named (d : Draft) (n : Named) (attached : Option String) : Except UsageError Progress :=
  match n, attached with
  | .setting s, some value => do return .more (← (← d.close).set s value)
  | .setting s, none => do return .more { ← d.close with pending := .setting s none }
  | n, some value => .error (.unexpectedValue value n.display)
  | .switch s, none => do return .more (← d.switchOn s)
  | .version, none => do
    let _ ← d.close
    return .done .version
  | .help, none => do
    let _ ← d.close
    return .done .help

/-- Takes an argument that starts with two dashes, without them. -/
def long (d : Draft) (text : List Char) : Except UsageError Progress :=
  let name := String.ofList (text.takeWhile (· != '='))
  let attached := match text.dropWhile (· != '=') with
    | _ :: value => some (String.ofList value)
    | [] => none
  match Named.ofLong? name with
  | none => .error (.unexpectedArgument ("--" ++ name))
  | some n => d.named n attached

/-- Takes the letters behind a single dash. What follows the letter of a setting is its value. -/
def letters (d : Draft) : List Char → Except UsageError Progress
  | [] => .ok (.more d)
  | letter :: rest =>
    match Named.ofLetter? letter with
    | none => .error (.unexpectedArgument ("-" ++ letter.toString))
    | some (.switch s) => do (← d.switchOn s).letters rest
    | some n =>
      match n, rest with
      | .setting _, '=' :: value => d.named n (some (String.ofList value))
      | .setting _, value@(_ :: _) => d.named n (some (String.ofList value))
      | n, _ => d.named n none

def file (d : Draft) (name : String) : Except UsageError Draft :=
  match d.pending with
  | .files names => .ok { d with pending := .files (names ++ [name]) }
  | _ => do return { ← d.close with pending := .files [name] }

def plain (d : Draft) (text : String) : Except UsageError Draft :=
  match d.pending with
  | .setting s none => .ok { d with pending := .setting s (some text) }
  | _ => d.file text

/-- Closes the draft. `defaultBase` is read where no base is given. -/
def finish (d : Draft) (defaultBase : Option String) : Except UsageError Request := do
  let d ← d.close
  let base ← match d.base, defaultBase with
    | some base, _ => pure base
    | none, some value => parseBase value
    | none, none => pure 0
  if d.files.isEmpty then .error .noFiles
  else
    return .run
      { files := d.files
        format := d.format.getD .human
        raw := d.switches.contains .raw
        base
        maxSegments := d.maxSegments
        pretty := d.switches.contains .pretty
        verbose := d.switches.contains .verbose
        quiet := d.switches.contains .quiet }

def filesOnly (d : Draft) : List String → Except UsageError Draft
  | [] => .ok d
  | name :: rest => do (← d.file name).filesOnly rest

def takeAll (defaultBase : Option String) (d : Draft) : List String → Except UsageError Request
  | [] => d.finish defaultBase
  | argument :: rest =>
    match argument.toList with
    | ['-', '-'] => do (← d.filesOnly rest).finish defaultBase
    | '-' :: '-' :: text => do
      match ← d.long text with
      | .more d => d.takeAll defaultBase rest
      | .done request => return request
    | '-' :: letter :: text => do
      match ← d.letters (letter :: text) with
      | .more d => d.takeAll defaultBase rest
      | .done request => return request
    | _ => do (← d.plain argument).takeAll defaultBase rest

end Draft

/-- What a command line asks for, with the base that the environment gives. -/
def parse (arguments : List String) (defaultBase : Option String) : Except UsageError Request :=
  Draft.empty.takeAll defaultBase arguments

end Arguments
end Disasm6502
