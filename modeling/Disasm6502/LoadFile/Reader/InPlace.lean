import Disasm6502.LoadFile.Reader

/-!
# Reading at positions of a buffer

A load file can also be read at positions of a buffer that stays whole. A step then subtracts positions, cuts
out slices and reads words, and has no outcome where one of these misses the buffer.
-/
namespace Disasm6502

/-- Bytes from `position` to the end of the buffer; a position behind the end has none to count. -/
def remaining? (bytes : List UInt8) (position : Nat) : Option Nat :=
  if position ≤ bytes.length then some (bytes.length - position) else none

/-- The bytes from `first` up to `stop`, where both lie in the buffer in this order. -/
def slice? (bytes : List UInt8) (first stop : Nat) : Option (List UInt8) :=
  if first ≤ stop ∧ stop ≤ bytes.length then some ((bytes.drop first).take (stop - first)) else none

structure Place where
  position : Nat
  markers : Nat
  /-- A header or an ending has been looked for. -/
  started : Bool
  finished : Bool
  trailing : Option Trailing
deriving DecidableEq

namespace Place

def front : Place :=
  { position := 0, markers := 0, started := false, finished := false, trailing := none }

def passMarker (bytes : List UInt8) (p : Place) : Place :=
  if Word.read? bytes p.position = some markerWord then
    { p with position := p.position + markerSize, markers := p.markers + 1 }
  else p

/-- Looks for a marker `count` times. -/
def passMarkers (bytes : List UInt8) : Nat → Place → Place
  | 0, p => p
  | count + 1, p => passMarkers bytes count (p.passMarker bytes)

/-- Behind the markers: the next segment or fault, if there is one, and the place behind it. -/
def readSegment (bytes : List UInt8) (p : Place) : Option (Option (Except Malformed Segment) × Place) := do
  let remaining ← remaining? bytes p.position
  if remaining = 0 then
    some (none, p)
  else if remaining < Header.size then
    let residue ← slice? bytes p.position bytes.length
    some (none, { p with position := bytes.length, trailing := some { offset := p.position, bytes := residue } })
  else
    let start ← Word.read? bytes p.position
    let last ← Word.read? bytes (p.position + 2)
    let body := p.position + Header.size
    let available ← remaining? bytes body
    let needed := Header.bodyLen { start, last }
    if needed = 0 ∨ available < needed then
      some (some (.error { offset := p.position, start, last, needed, available }), { p with position := body })
    else
      let block ← slice? bytes body (body + needed)
      some (some (.ok { start, last, bytes := block }), { p with position := body + needed })

/-- One call: no answer but a segment is followed by another one. -/
def next (bytes : List UInt8) (p : Place) : Option (Option (Except Malformed Segment) × Place) :=
  if p.finished then some (none, p)
  else do
    let allowed := if p.started then innerMarkers else openingMarkers
    let (answer, p) ← ({ p with started := true }.passMarkers bytes allowed).readSegment bytes
    match answer with
    | some (.ok _) => some (answer, p)
    | _ => some (answer, { p with finished := true })

/-- The place behind `count` calls. -/
def after (bytes : List UInt8) : Nat → Place → Option Place
  | 0, p => some p
  | count + 1, p => do
    let p ← after bytes count p
    let (_, p) ← p.next bytes
    some p

end Place
end Disasm6502
