import Disasm6502.LoadFile

/-!
# Reading load files

Any byte sequence is a load file in one way: markers are taken as such wherever they may stand, a header
takes the block that it calls for, and what is left is the ending. The parser walks byte by byte and skips
what an entry takes; `LoadFile.parseFrom_eq` is the rule of one step.
-/
namespace Disasm6502

/-- How many markers stand at the front, `allowed` at most, and the bytes behind them. -/
def takeMarkers (allowed : Nat) (bytes : List UInt8) : Nat × List UInt8 :=
  match allowed, bytes with
  | allowed + 1, 0xFF :: 0xFF :: rest =>
    let (count, rest) := takeMarkers allowed rest
    (count + 1, rest)
  | _, bytes => (0, bytes)

namespace Ending

/-- What stands behind the markers: a segment and the bytes after it, or the ending. -/
def orSegment (bytes : List UInt8) : Except Ending (Segment × List UInt8) :=
  match bytes with
  | a :: b :: c :: d :: rest =>
    let header : Header := { start := Word.ofBytes a b, last := Word.ofBytes c d }
    let body := rest.take header.bodyLen
    if header.bodyLen = 0 ∨ body.length < header.bodyLen then .error (.malformed header rest)
    else .ok ({ start := header.start, last := header.last, bytes := body }, rest.drop header.bodyLen)
  | bytes => .error (.residue bytes)

end Ending

namespace LoadFile

/-- The file whose first entries, last one first, are `done`, and whose further bytes are `bytes` less
`skip`, which the entry before takes. -/
def parseOnto (done : List Entry) (allowed : Nat) : Nat → List UInt8 → LoadFile
  | _, [] => { entries := done.reverse, markers := 0, ending := .residue [] }
  | skip + 1, _ :: rest => parseOnto done allowed skip rest
  | 0, byte :: rest =>
    let (markers, behind) := takeMarkers allowed (byte :: rest)
    match Ending.orSegment behind with
    | .error ending => { entries := done.reverse, markers, ending }
    | .ok (segment, _) =>
      let entry : Entry := { markers, segment }
      parseOnto (entry :: done) innerMarkers (entry.len - 1) rest

/-- The load file that a byte sequence is, when at most `allowed` markers may lead. -/
def parseFrom (allowed : Nat) (bytes : List UInt8) : LoadFile :=
  parseOnto [] allowed 0 bytes

def parse (bytes : List UInt8) : LoadFile :=
  parseFrom openingMarkers bytes

end LoadFile

theorem drop_takeMarkers (allowed : Nat) (bytes : List UInt8) :
    bytes.drop (markerSize * (takeMarkers allowed bytes).1) = (takeMarkers allowed bytes).2 := by
  fun_induction takeMarkers allowed bytes with
  | case1 allowed rest count behind h ih =>
    rw [h] at ih
    simpa [markerSize, Nat.mul_add, List.drop_succ_cons] using ih
  | case2 allowed bytes h => simp

/-- A segment takes its header and its block; the bytes after it follow. -/
theorem Ending.drop_of_orSegment {bytes rest : List UInt8} {s : Segment}
    (h : Ending.orSegment bytes = .ok (s, rest)) :
    bytes.drop (Header.size + s.len) = rest := by
  unfold Ending.orSegment at h
  split at h
  · rename_i a b c d tail
    dsimp only at h
    split at h
    · cases h
    · rename_i hfit
      cases h
      simp only [not_or, Nat.not_lt, List.length_take] at hfit
      have hlen : min (Header.bodyLen ⟨Word.ofBytes a b, Word.ofBytes c d⟩) tail.length =
          Header.bodyLen ⟨Word.ofBytes a b, Word.ofBytes c d⟩ := Nat.min_eq_left (by omega)
      simp only [Segment.len, Header.size, List.length_take]
      rw [hlen, Nat.add_comm]
      rfl
  · cases h

namespace LoadFile

theorem parseOnto_eq (done : List Entry) (allowed skip : Nat) (bytes : List UInt8) :
    parseOnto done allowed skip bytes = (parseFrom allowed (bytes.drop skip)).prepend done.reverse := by
  induction bytes generalizing done allowed skip with
  | nil => simp [parseOnto, parseFrom, prepend]
  | cons byte rest ih =>
    cases skip with
    | succ skip => exact ih done allowed skip
    | zero =>
      simp only [parseFrom, List.drop_zero, parseOnto]
      cases Ending.orSegment (takeMarkers allowed (byte :: rest)).2 with
      | error ending => simp [prepend]
      | ok found =>
        simp only
        rw [ih (_ :: done), ih [_]]
        simp [prepend]

/-- One step: the markers and what stands behind them, then the file that follows. -/
theorem parseFrom_eq (allowed : Nat) (bytes : List UInt8) :
    parseFrom allowed bytes =
      let (markers, behind) := takeMarkers allowed bytes
      match Ending.orSegment behind with
      | .error ending => { entries := [], markers, ending }
      | .ok (segment, rest) => (parseFrom innerMarkers rest).prepend [{ markers, segment }] := by
  cases bytes with
  | nil => cases allowed <;> rfl
  | cons byte rest =>
    have hdrop := drop_takeMarkers allowed (byte :: rest)
    simp only [parseFrom, parseOnto]
    cases h : Ending.orSegment (takeMarkers allowed (byte :: rest)).2 with
    | error ending => rfl
    | ok found =>
      obtain ⟨segment, behind⟩ := found
      have hrest := Ending.drop_of_orSegment h
      rw [← hdrop, List.drop_drop] at hrest
      simp only
      rw [parseOnto_eq, parseFrom, ← hrest]
      have hback : (byte :: rest).drop
            (markerSize * (takeMarkers allowed (byte :: rest)).1 + (Header.size + segment.len)) =
          rest.drop (Entry.len ⟨(takeMarkers allowed (byte :: rest)).1, segment⟩ - 1) := by
        have hlen : markerSize * (takeMarkers allowed (byte :: rest)).1 + (Header.size + segment.len) =
            Entry.len ⟨(takeMarkers allowed (byte :: rest)).1, segment⟩ - 1 + 1 := by
          simp only [Entry.len, Header.size]
          omega
        rw [hlen, List.drop_succ_cons]
      rw [hback]
      simp [prepend]

end LoadFile
end Disasm6502
