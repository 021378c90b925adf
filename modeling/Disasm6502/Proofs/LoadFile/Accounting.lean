import Disasm6502.Proofs.LoadFile.Lawful
import Disasm6502.Report

/-!
# Load reports account for every byte

What a report says of a file, laid end to end, is the file: nothing is lost, doubled or made up. The other
way round, a file written from segments, markers and a residue reports just these.
-/
namespace Disasm6502

/-- Markers that may stand behind `place` segments. -/
def markersAllowed : Nat → Nat
  | 0 => openingMarkers
  | _ + 1 => innerMarkers

/-- The bytes of a file up to its ending. -/
def front (entries : List Entry) (final : Nat) : List UInt8 :=
  entries.flatMap Entry.encode ++ encodeMarkers final

/-- What `r` says of the bytes that stand at `offset`, behind all segments and markers. -/
inductive Report.Ends (r : Report) (offset : Nat) : List UInt8 → Prop
  | residue {bytes : List UInt8} (short : bytes.length ≤ 3) (error : r.error = none)
      (trailing : r.trailing = if bytes = [] then none else some ⟨offset, bytes⟩) : Ends r offset bytes
  | malformed {m : Malformed} {rest : List UInt8} (error : r.error = some m) (trailing : r.trailing = none)
      (offset_eq : m.offset = offset) (available_eq : m.available = rest.length)
      (unmet : m.last < m.start ∧ m.needed = 0 ∨
        m.start ≤ m.last ∧ m.needed = m.last.toNat - m.start.toNat + 1 ∧ m.available < m.needed) :
      Ends r offset (Word.toBytes m.start ++ Word.toBytes m.last ++ rest)

/-- `bytes` are the segments of `r` with their headers and the markers of `r`, in file order, and then `tail`. -/
structure Report.Accounts (r : Report) (entries : List Entry) (final : Nat) (tail bytes : List UInt8) :
    Prop where
  segments : entries.map Entry.segment = r.segments
  markers : total (entries.map Entry.markers) + final = r.markers
  entry_le : ∀ (i : Nat) (hi : i < entries.length), entries[i].markers ≤ markersAllowed i
  final_le : final ≤ markersAllowed entries.length
  bytes_eq : bytes = front entries final ++ tail
  ends : r.Ends (front entries final).length tail

theorem Entry.length_encode (e : Entry) : e.encode.length = e.len := by
  simp only [Entry.encode, Entry.len, Segment.len, Header.toBytes, Header.size, List.length_append,
    length_encodeMarkers, Word.length_toBytes]

theorem length_front (entries : List Entry) (final : Nat) :
    (front entries final).length = total (entries.map Entry.len) + markerSize * final := by
  induction entries with
  | nil => simp [front]
  | cons e entries ih =>
    simp only [front, List.flatMap_cons, List.append_assoc, List.length_append, List.map_cons, total_cons,
      e.length_encode] at ih ⊢
    omega

namespace LoadFile

theorem encode_eq (f : LoadFile) : f.encode = front f.entries f.markers ++ f.ending.encode := rfl

theorem endingOffset_eq (f : LoadFile) : f.endingOffset = (front f.entries f.markers).length :=
  (length_front f.entries f.markers).symm

/-- Lawfulness entry by entry, each by the number of segments in front of it. -/
theorem lawful_iff (place : Nat) (entries : List Entry) (final : Nat) (ending : Ending) :
    Lawful (markersAllowed place) ⟨entries, final, ending⟩ ↔
      (∀ (i : Nat) (hi : i < entries.length), entries[i].Lawful (markersAllowed (place + i))) ∧
      final ≤ markersAllowed (place + entries.length) ∧
      (Marked ending.encode → final = markersAllowed (place + entries.length)) ∧ ending.Final := by
  -- Behind the first entry the same holds one place further on, where `innerMarkers` are allowed.
  induction entries generalizing place with
  | nil =>
    constructor
    · intro h
      cases h with
      | ending hle hgreedy hfinal =>
        exact ⟨fun i hi => absurd hi (Nat.not_lt_zero i), hle, hgreedy, hfinal⟩
    · intro h
      obtain ⟨-, hle, hgreedy, hfinal⟩ := h
      exact .ending hle hgreedy hfinal
  | cons e entries ih =>
    have hplace : place + (e :: entries).length = place + 1 + entries.length := by simp; omega
    rw [hplace]
    constructor
    · intro h
      cases h with
      | entry he hrest =>
        obtain ⟨hentries, hfinal⟩ := (ih (place + 1)).mp hrest
        refine ⟨fun i hi => ?_, hfinal⟩
        cases i with
        | zero => exact he
        | succ i =>
          have h := hentries i (Nat.lt_of_succ_lt_succ hi)
          rwa [show place + 1 + i = place + (i + 1) by omega] at h
    · intro h
      obtain ⟨hentries, hfinal⟩ := h
      refine .entry (hentries 0 (Nat.zero_lt_succ _)) ((ih (place + 1)).mpr ⟨fun i hi => ?_, hfinal⟩)
      have h := hentries (i + 1) (Nat.succ_lt_succ hi)
      rwa [show place + (i + 1) = place + 1 + i by omega] at h

theorem report_ends (f : LoadFile) (h : f.ending.Final) :
    f.report.Ends (front f.entries f.markers).length f.ending.encode := by
  obtain ⟨entries, final, ending⟩ := f
  rw [← endingOffset_eq]
  cases ending with
  | residue bytes =>
    refine .residue (Nat.le_of_lt_succ h) rfl ?_
    cases bytes <;> rfl
  | malformed header rest =>
    let m : Malformed :=
      { offset := endingOffset ⟨entries, final, .malformed header rest⟩, start := header.start,
        last := header.last, needed := header.bodyLen, available := rest.length }
    refine .malformed (m := m) rfl rfl rfl rfl ?_
    have hlt : header.last < header.start ↔ header.last.toNat < header.start.toNat :=
      UInt16.lt_iff_toNat_lt
    have hle : header.start ≤ header.last ↔ header.start.toNat ≤ header.last.toNat :=
      UInt16.le_iff_toNat_le
    simp only [Ending.Final, Header.bodyLen] at h
    simp only [m, hlt, hle, Header.bodyLen]
    omega

end LoadFile

/-- Every file is its report, laid end to end. -/
theorem ofLoadFile_accounts (bytes : List UInt8) :
    (∀ s ∈ (Report.ofLoadFile none bytes).segments, s.Complete) ∧
      ∃ entries final tail, (Report.ofLoadFile none bytes).Accounts entries final tail bytes := by
  obtain ⟨f, hf, rfl⟩ := LoadFile.exists_lawful openingMarkers bytes
  have hread : Report.ofLoadFile none f.encode = f.report :=
    congrArg LoadFile.report (LoadFile.parseFrom_encode hf)
  obtain ⟨hentries, hle, -, hfinal⟩ := (LoadFile.lawful_iff 0 f.entries f.markers f.ending).mp hf
  simp only [Nat.zero_add] at hentries hle
  rw [hread]
  constructor
  · intro s hs
    obtain ⟨e, he, rfl⟩ := List.mem_map.mp hs
    obtain ⟨i, hi, rfl⟩ := List.getElem_of_mem he
    exact (hentries i hi).complete
  · exact ⟨f.entries, f.markers, f.ending.encode, rfl, rfl, fun i hi => (hentries i hi).le, hle, f.encode_eq,
      f.report_ends hfinal⟩

/-- A file written from segments, markers and a residue reports them, where every marker that can be taken
for one stands for one. -/
theorem ofLoadFile_front (entries : List Entry) (final : Nat) (residue : List UInt8)
    (hentries : ∀ (i : Nat) (hi : i < entries.length), entries[i].Lawful (markersAllowed i))
    (hfinal : final ≤ markersAllowed entries.length) (hshort : residue.length ≤ 3)
    (hmarked : Marked residue → final = markersAllowed entries.length) :
    Report.ofLoadFile none (front entries final ++ residue) =
      { segments := entries.map Entry.segment
        trailing := if residue = [] then none else some ⟨(front entries final).length, residue⟩
        error := none
        markers := total (entries.map Entry.markers) + final } := by
  have hf : LoadFile.Lawful openingMarkers ⟨entries, final, .residue residue⟩ := by
    refine (LoadFile.lawful_iff 0 entries final (.residue residue)).mpr ?_
    simp only [Nat.zero_add]
    exact ⟨hentries, hfinal, hmarked, Nat.lt_succ_of_le hshort⟩
  have hread : Report.ofLoadFile none (front entries final ++ residue) =
      LoadFile.report ⟨entries, final, .residue residue⟩ :=
    congrArg LoadFile.report (LoadFile.parseFrom_encode hf)
  rw [hread, LoadFile.report, LoadFile.trailing?, LoadFile.endingOffset_eq]
  cases residue <;> rfl

/-- A segment at the last address, a block of marker bytes and a residue that leads with a marker. -/
theorem ofLoadFile_marker_bytes :
    Report.ofLoadFile none
        [0xFF, 0xFF, 0xFF, 0xFF, 0xFF, 0xFF, 0xFF, 0xFF, 0xFF, 0x00, 0x20, 0x01, 0x20, 0xFF, 0xFF, 0xFF, 0xFF,
          0xFF, 0xFF, 0x00] =
      { segments := [⟨0xFFFF, 0xFFFF, [0xFF]⟩, ⟨0x2000, 0x2001, [0xFF, 0xFF]⟩]
        trailing := some ⟨17, [0xFF, 0xFF, 0x00]⟩
        error := none
        markers := 3 } :=
  ofLoadFile_front [⟨2, ⟨0xFFFF, 0xFFFF, [0xFF]⟩⟩, ⟨0, ⟨0x2000, 0x2001, [0xFF, 0xFF]⟩⟩] 1 [0xFF, 0xFF, 0x00]
    (by decide) (by decide) (by decide) (by decide)

end Disasm6502
