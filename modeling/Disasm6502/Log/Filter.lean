import Disasm6502.Log

/-!
# Log filters

What a user wants logged is written as directives with commas between them, each of them a level or
`TARGET[SPAN{FIELD=VALUE}]=LEVEL` with some of the parts. A directive sets a threshold for the events whose target
starts as it says and that have the field it names. Of the directives that apply to an event the most specific one
counts, of equally specific ones the last; an event to which none applies is not logged.
-/
namespace Disasm6502

/-- The threshold that counts for each event. -/
abbrev Thresholds := Event → Threshold

/-- The names of all fields of an event, its message among them. -/
def Event.fieldNames (e : Event) : List String :=
  "message" :: e.fields.map Prod.fst

structure Directive where
  /-- What the target starts with. -/
  target : String := ""
  /-- Whether it holds within spans only. No run opens any. -/
  spanned : Bool := false
  field : Option String := none
  threshold : Threshold
deriving DecidableEq

namespace Directive

def appliesTo (d : Directive) (e : Event) : Bool :=
  !d.spanned && d.target.toList.isPrefixOf e.target.toList && d.field.all (e.fieldNames.contains ·)

/-- The longer target is the more specific one, and of targets that start one event alike, that with a field. -/
def compareSpecificity : Directive → Directive → Ordering :=
  compareLex (compareOn fun d => d.target.utf8ByteSize) (compareOn Directive.field)

/-- The one of two directives that counts where both apply, `d` being the later one. -/
def prefer (best : Option Directive) (d : Directive) : Option Directive :=
  match best with
  | none => some d
  | some best => if compareSpecificity d best = .lt then some best else some d

/-- Letters beyond ASCII can be part of a target too. -/
def isTargetChar (c : Char) : Bool :=
  c.isAlphanum || c == '_' || c == ':' || c == '-' || 128 ≤ c.toNat

/-- Takes up what stands in brackets. A span's name and a field's value speak of spans. -/
def within? (d : Directive) (text : List Char) : Option Directive :=
  match text.span (· != '{') with
  | (_, []) => some { d with spanned := true }
  | (name, _ :: braces) =>
    match braces.span (· != '}') with
    | ([], _) => none
    | (field, ['}']) =>
      if name.isEmpty && !field.contains '=' then some { d with field := some (String.ofList field) }
      else some { d with spanned := true }
    | _ => none

/-- Takes up the level behind all else; without one everything is let through. -/
def down? (d : Directive) (text : List Char) : Option Directive :=
  match text with
  | [] | ['='] => some d
  | '=' :: name => (Threshold.ofName? (String.ofList name)).map fun threshold => { d with threshold }
  | _ => none

def ofText? (text : List Char) : Option Directive :=
  match Threshold.ofName? (String.ofList text) with
  | some threshold => some { threshold }
  | none =>
    let (target, rest) := text.span isTargetChar
    let d : Directive := { target := String.ofList target, threshold := some .trace }
    match rest with
    | '[' :: rest =>
      match rest.span (· != ']') with
      | (inner, ']' :: rest) => do (← d.within? inner).down? rest
      | _ => none
    | rest => if target.isEmpty then none else d.down? rest

end Directive

namespace Filter

/-- The directive that counts for an event. -/
def directive? (filter : List Directive) (e : Event) : Option Directive :=
  (filter.filter fun d => d.appliesTo e).foldl Directive.prefer none

def thresholds (filter : List Directive) : Thresholds := fun e =>
  (directive? filter e).bind Directive.threshold

/-- Reads a filter as a whole. A comma with nothing in front of it or behind it does no harm. -/
def ofText? (text : String) : Option (List Directive) :=
  ((text.toList.splitOn ',').filter fun part => !part.isEmpty).mapM Directive.ofText?

/-- All events of the program whose level is up to the threshold. -/
def ofProgram (threshold : Threshold) : List Directive :=
  [{ target := "xex_disasm", threshold }]

/-- All events whose level is up to the threshold. -/
def ofThreshold (threshold : Threshold) : List Directive :=
  [{ threshold }]

end Filter

/-- The thresholds that the text of a filter sets. -/
def Threshold.ofFilter? (text : String) : Option Thresholds :=
  (Filter.ofText? text).map Filter.thresholds

end Disasm6502
