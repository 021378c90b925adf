import Disasm6502.LoadFile.Reader
import Disasm6502.Proofs.LoadFile.Accounting

/-!
# One call of a reader

A call does one of three things: a reader that has stopped stays as it is, one that stands at an entry hands
out its segment, and one that stands at the ending stops there. `Called` lists them with all that changes.
-/
namespace Disasm6502

/-- What is wrong with an ending that stands at `offset`. -/
def Ending.fault? (offset : Nat) : Ending → Option Malformed
  | residue _ => none
  | malformed header rest =>
    some { offset, start := header.start, last := header.last, needed := header.bodyLen,
           available := rest.length }

namespace Reader

variable {r r' : Reader} {answer : Option (Except Malformed Segment)}

/-- The reader behind an entry, in front of `rest`. -/
def behindEntry (r : Reader) (e : Entry) (rest : List UInt8) : Reader :=
  { r with rest, offset := r.offset + e.len, markers := r.markers + e.markers, allowed := innerMarkers }

/-- The reader that has stopped at an ending with `count` markers in front. -/
def stopAt (r : Reader) (count : Nat) (ending : Ending) : Reader :=
  let offset := r.offset + markerSize * count
  let markers := r.markers + count
  match ending with
  | .residue bytes =>
    { r with rest := [], offset := offset + bytes.length, markers, finished := true,
             trailing := if bytes = [] then r.trailing else some { offset, bytes } }
  | .malformed _ rest => { r with rest, offset := offset + Header.size, markers, finished := true }

/-- What is left in front of the reader is an ending behind `count` markers, which it passes. -/
structure EndsIn (r : Reader) (count : Nat) (ending : Ending) : Prop where
  unfinished : r.finished = false
  le : count ≤ r.allowed
  greedy : Marked ending.encode → count = r.allowed
  final : ending.Final
  rest_eq : r.rest = encodeMarkers count ++ ending.encode

/-- The outcomes of a call: its answer and the reader behind it. -/
inductive Called (r : Reader) : Option (Except Malformed Segment) → Reader → Prop
  | stopped (finished : r.finished = true) : Called r none r
  | entry {e : Entry} {rest : List UInt8} (unfinished : r.finished = false) (lawful : e.Lawful r.allowed)
      (rest_eq : r.rest = e.encode ++ rest) : Called r (some (.ok e.segment)) (r.behindEntry e rest)
  | ending {count : Nat} {ending : Ending} (endsIn : r.EndsIn count ending) :
      Called r ((ending.fault? (r.offset + markerSize * count)).map Except.error) (r.stopAt count ending)

/-- What is ahead of the reader is the buffer from its offset on. -/
structure Within (bytes : List UInt8) (r : Reader) : Prop where
  offset_le : r.offset ≤ bytes.length
  rest_eq : r.rest = bytes.drop r.offset

@[simp] theorem stopAt_finished (r : Reader) (count : Nat) (ending : Ending) :
    (r.stopAt count ending).finished = true := by
  cases ending <;> rfl

@[simp] theorem stopAt_markers (r : Reader) (count : Nat) (ending : Ending) :
    (r.stopAt count ending).markers = r.markers + count := by
  cases ending <;> rfl

theorem le_offset_stopAt (r : Reader) (count : Nat) (ending : Ending) :
    r.offset ≤ (r.stopAt count ending).offset := by
  cases ending <;> simp only [stopAt] <;> omega

theorem passMarkers_eq {count : Nat} {behind : List UInt8} (hrest : r.rest = encodeMarkers count ++ behind)
    (hle : count ≤ r.allowed) (hgreedy : Marked behind → count = r.allowed) :
    r.passMarkers =
      { r with rest := behind, offset := r.offset + markerSize * count, markers := r.markers + count } := by
  rw [passMarkers, hrest, takeMarkers_encodeMarkers hle hgreedy]

/-- Behind the markers of an entry its header stands. -/
theorem passMarkers_of_entry {e : Entry} {rest : List UInt8} (he : e.Lawful r.allowed)
    (hrest : r.rest = e.encode ++ rest) :
    r.passMarkers =
      { r with rest := e.segment.header.toBytes ++ (e.segment.bytes ++ rest),
               offset := r.offset + markerSize * e.markers, markers := r.markers + e.markers } := by
  rw [Entry.encode, List.append_assoc, List.append_assoc] at hrest
  exact passMarkers_eq hrest he.le fun hm => he.greedy ((marked_header e.segment.header _).mp hm)

theorem next_of_finished (h : r.finished = true) : r.next = (none, r) := if_pos h

theorem next_of_entry {e : Entry} {rest : List UInt8} (hopen : r.finished = false) (he : e.Lawful r.allowed)
    (hrest : r.rest = e.encode ++ rest) : r.next = (some (.ok e.segment), r.behindEntry e rest) := by
  have hpass := passMarkers_of_entry he hrest
  simp [next, hopen, hpass, Ending.orSegment_complete he.complete, behindEntry, Entry.len, Nat.add_assoc]

theorem EndsIn.next_eq {count : Nat} {ending : Ending} (h : r.EndsIn count ending) :
    r.next =
      ((ending.fault? (r.offset + markerSize * count)).map Except.error, r.stopAt count ending) := by
  have hopen := h.unfinished
  have hpass := passMarkers_eq h.rest_eq h.le h.greedy
  have hsegment := Ending.orSegment_final h.final
  rcases ending with (_ | ⟨b, bytes⟩) | ⟨header, rest⟩
  · rw [Ending.encode] at hpass hsegment
    simp [next, hopen, hpass, hsegment, stopAt, Ending.fault?]
  · simp [next, hopen, hpass, hsegment, stopAt, Ending.fault?]
  · simp [next, hopen, hpass, hsegment, stopAt, Ending.fault?]

theorem called_next (r : Reader) : r.Called r.next.1 r.next.2 := by
  by_cases hopen : r.finished = false
  · obtain ⟨f, hf, hrest⟩ := LoadFile.exists_lawful r.allowed r.rest
    cases hf with
    | ending hle hgreedy hfinal =>
      have hends : r.EndsIn _ _ := ⟨hopen, hle, hgreedy, hfinal, hrest.symm⟩
      rw [hends.next_eq]
      exact .ending hends
    | entry he hlater =>
      rw [LoadFile.encode_cons] at hrest
      rw [next_of_entry hopen he hrest.symm]
      exact .entry hopen he hrest.symm
  · have hfinished : r.finished = true := by simpa using hopen
    rw [next_of_finished hfinished]
    exact .stopped hfinished

variable {bytes : List UInt8}

theorem within_ofBytes (bytes : List UInt8) : (ofBytes bytes).Within bytes :=
  ⟨Nat.zero_le _, rfl⟩

/-- Bytes that stand ahead can be passed. -/
theorem Within.pass {taken rest : List UInt8} (h : r.Within bytes) (hrest : r.rest = taken ++ rest) :
    r.offset + taken.length ≤ bytes.length ∧ rest = bytes.drop (r.offset + taken.length) := by
  have hle := h.offset_le
  have hdrop : bytes.drop r.offset = taken ++ rest := h.rest_eq.symm.trans hrest
  have hlen := congrArg List.length hdrop
  rw [List.length_drop, List.length_append] at hlen
  constructor
  · omega
  · rw [← List.drop_drop, hdrop, List.drop_left]

/-- The markers that are passed stood ahead. -/
theorem Within.passMarkers (h : r.Within bytes) : r.passMarkers.Within bytes := by
  obtain ⟨hrest, -, -⟩ := takeMarkers_spec r.allowed r.rest
  obtain ⟨hle, hdrop⟩ := h.pass hrest
  rw [length_encodeMarkers] at hle hdrop
  exact ⟨hle, hdrop⟩

theorem Called.within (h : r.Called answer r') (hr : r.Within bytes) : r'.Within bytes := by
  cases h with
  | stopped finished => exact hr
  | @entry e rest unfinished lawful rest_eq =>
    obtain ⟨hle, hdrop⟩ := hr.pass rest_eq
    rw [e.length_encode] at hle hdrop
    exact ⟨hle, hdrop⟩
  | @ending count ending endsIn =>
    have hrest := endsIn.rest_eq
    rcases ending with residue | ⟨header, rest⟩
    · have hall : r.rest = (encodeMarkers count ++ residue) ++ [] := by rw [hrest, List.append_nil]; rfl
      obtain ⟨hle, hdrop⟩ := hr.pass hall
      rw [List.length_append, length_encodeMarkers, ← Nat.add_assoc] at hle hdrop
      exact ⟨hle, hdrop⟩
    · have hall : r.rest = (encodeMarkers count ++ header.toBytes) ++ rest := by
        rw [hrest, List.append_assoc]
        rfl
      obtain ⟨hle, hdrop⟩ := hr.pass hall
      rw [List.length_append, length_encodeMarkers, ← Nat.add_assoc] at hle hdrop
      exact ⟨hle, hdrop⟩

end Reader
end Disasm6502
