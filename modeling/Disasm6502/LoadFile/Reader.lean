import Disasm6502.LoadFile.Parse
import Disasm6502.Fault

/-!
# A load file segment by segment

A reader stands in a load file and hands out its segments in order. It stops for good at the end of the file,
at a residue, which it keeps, and at a malformed header, which it reports once.
-/
namespace Disasm6502

structure Reader where
  rest : List UInt8
  /-- Bytes passed so far. -/
  offset : Nat
  /-- Markers passed so far. -/
  markers : Nat
  /-- Markers that may stand in front of the next header. -/
  allowed : Nat
  finished : Bool
  trailing : Option Trailing
deriving DecidableEq

namespace Reader

def ofBytes (bytes : List UInt8) : Reader :=
  { rest := bytes, offset := 0, markers := 0, allowed := openingMarkers, finished := false, trailing := none }

/-- The reader behind the markers that stand in front of it. -/
def passMarkers (r : Reader) : Reader :=
  let (count, rest) := takeMarkers r.allowed r.rest
  { r with rest, offset := r.offset + markerSize * count, markers := r.markers + count }

/-- The next segment or fault, if there is one, and the reader behind it. -/
def next (r : Reader) : Option (Except Malformed Segment) × Reader :=
  if r.finished then (none, r)
  else
    let r := r.passMarkers
    match Ending.orSegment r.rest with
    | .ok (segment, rest) =>
      (some (.ok segment),
        { r with rest, offset := r.offset + Header.size + segment.len, allowed := innerMarkers })
    | .error (.residue []) => (none, { r with finished := true })
    | .error (.residue bytes) =>
      (none,
        { r with rest := [], offset := r.offset + bytes.length, finished := true,
                 trailing := some { offset := r.offset, bytes } })
    | .error (.malformed header rest) =>
      (some (.error { offset := r.offset, start := header.start, last := header.last,
                      needed := header.bodyLen, available := rest.length }),
        { r with rest, offset := r.offset + Header.size, finished := true })

/-- The segment or fault that `n` others precede, and the reader behind it; at the end, the end. -/
def nth : Nat → Reader → Option (Except Malformed Segment) × Reader
  | 0, r => r.next
  | n + 1, r =>
    match r.next with
    | (none, r) => (none, r)
    | (some _, r) => nth n r

/-- At most `fuel` further segments or faults, last one first, in front of `done`, and the reader behind
them. -/
def drainOnto (done : List (Except Malformed Segment)) :
    Nat → Reader → List (Except Malformed Segment) × Reader
  | 0, r => (done, r)
  | fuel + 1, r =>
    match r.next with
    | (none, r) => (done, r)
    | (some item, r) => drainOnto (item :: done) fuel r

/-- All that is still to come, and the reader behind it. Each step but the last takes a byte or more, so the
bytes ahead bound the steps. -/
def drain (r : Reader) : List (Except Malformed Segment) × Reader :=
  let (items, r) := drainOnto [] (r.rest.length + 1) r
  (items.reverse, r)

end Reader
end Disasm6502
