/-!
# Levels

How grave an event is, and the threshold that lets through the events that are at least as grave.
-/
namespace Disasm6502

/-- Levels from the gravest on. -/
inductive Level where
  | error | warn | info | debug | trace
deriving DecidableEq

namespace Level

def rank : Level → Nat
  | error => 1
  | warn => 2
  | info => 3
  | debug => 4
  | trace => 5

def name : Level → String
  | error => "ERROR"
  | warn => "WARN"
  | info => "INFO"
  | debug => "DEBUG"
  | trace => "TRACE"

end Level

/-- The least grave level that is let through; nothing is, where there is none. -/
abbrev Threshold := Option Level

namespace Threshold

/-- Levels by their names, in letters of either case, or by their ranks. -/
def ofName? (name : String) : Option Threshold :=
  match name.toLower with
  | "off" | "0" => some none
  | "error" | "1" => some (some .error)
  | "warn" | "2" => some (some .warn)
  | "info" | "3" => some (some .info)
  | "debug" | "4" => some (some .debug)
  | "trace" | "5" => some (some .trace)
  | _ => none

def passes (threshold : Threshold) (level : Level) : Bool :=
  match threshold with
  | none => false
  | some least => level.rank ≤ least.rank

end Threshold

end Disasm6502
