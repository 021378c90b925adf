import Disasm6502.CommandLine.Directory
import Disasm6502.CommandLine.Run

/-!
# The program

Reads arguments, environment and files, and prints what the run leaves behind. Each file is read when its
turn comes, and its log lines come before its listing.
-/
namespace Disasm6502.Program

/-- A system error by its number, which some calls hand out negated. -/
def systemText (code : UInt32) (details : String) : String :=
  let number := min code (0 - code)
  if number == 2 then Refusal.notFound.text
  else if number == 20 then Refusal.notDirectory.text
  else if number == 21 then Refusal.isDirectory.text
  else if number == 36 then Refusal.nameTooLong.text
  else details.capitalize ++ " (os error " ++ toString number ++ ")"

/-- What the system says of a failed read. -/
def describe : IO.Error → String
  | .noFileOrDirectory _ code details => systemText code details
  | .inappropriateType _ code details => systemText code details
  | .invalidArgument _ code details => systemText code details
  | .permissionDenied _ code details => systemText code details
  | e => toString e

def readFile (name : String) : IO (Except String (List UInt8)) := do
  if name.toList.contains '\x00' then return .error Refusal.nulInName.text
  try
    return .ok (← IO.FS.readBinFile name).toList
  catch e =>
    return .error (describe e)

def printOutcome (o : FileOutcome) : IO Unit := do
  for e in o.log do IO.eprintln e.line
  IO.eprint o.errors
  IO.print o.listing

end Disasm6502.Program

open Disasm6502 Disasm6502.Program in
def main (arguments : List String) : IO UInt32 := do
  let defaultBase ← IO.getEnv "XEX_DISASM_BASE"
  let asked := (← IO.getEnv "RUST_LOG").bind Threshold.ofFilter?
  match Arguments.parse arguments defaultBase with
  | .ok (.run a) => return UInt32.ofNat (← a.runM asked readFile printOutcome)
  | _ =>
    let outcome := runCommandLine arguments defaultBase asked (fun _ => .ok [])
    IO.print outcome.stdout
    IO.eprint outcome.stderr
    return UInt32.ofNat outcome.exit
