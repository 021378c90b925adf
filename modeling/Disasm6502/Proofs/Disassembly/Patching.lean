import Disasm6502.Disassembly
import Disasm6502.Proofs.LoadFile.Blocks

/-!
# Patched blocks

Writing into the blocks of a load file changes the segments that are written into and nothing else: no header,
no marker, no other segment's items, and nothing of what is reported about the end of the file. The bytes
written may look like markers, headers or longer instructions.
-/
namespace Disasm6502

variable {limit : Option Nat} {bytes other : List UInt8}

theorem Segment.eq_of_header_eq {s s' : Segment} (hheader : s.header = s'.header) (hbytes : s.bytes = s'.bytes) :
    s = s' := by
  obtain ⟨start, last, bytes⟩ := s
  obtain ⟨start', last', bytes'⟩ := s'
  cases hheader
  cases hbytes
  rfl

/-- The segments of a disassembled load file are those of its entries. -/
theorem segments_ofBytes_xex (limit : Option Nat) (bytes : List UInt8) :
    (Disassembly.ofBytes { format := .xex, limit, decode := true } bytes).segments =
      (LoadFile.read limit bytes).entries.map fun e => ⟨e.segment, e.segment.items⟩ := by
  show (((LoadFile.read limit bytes).entries.map Entry.segment).map fun s => DecodedSegment.mk s s.items) = _
  rw [List.map_map]
  rfl

theorem getElem?_segments_ofBytes_xex {place : Nat} {s : DecodedSegment}
    (h : (Disassembly.ofBytes { format := .xex, limit, decode := true } bytes).segments[place]? = some s) :
    ∃ e, (LoadFile.read limit bytes).entries[place]? = some e ∧ s = ⟨e.segment, e.segment.items⟩ := by
  rw [segments_ofBytes_xex, List.getElem?_map] at h
  obtain ⟨e, he, hs⟩ := Option.map_eq_some_iff.mp h
  exact ⟨e, he, hs.symm⟩

/-- The report of a patched file differs in the bytes of its segments at most. -/
theorem report_read_of_patch (hlen : other.length = bytes.length)
    (hpatch : ∀ k, other[k]? ≠ bytes[k]? → ∃ place, (LoadFile.read limit bytes).InBlock place k) :
    let old := (LoadFile.read limit bytes).report
    let new := (LoadFile.read limit other).report
    new.segments.map Segment.header = old.segments.map Segment.header ∧ new.markers = old.markers ∧
      new.trailing = old.trailing ∧ new.error = old.error := by
  intro old new
  have hblank := LoadFile.blank_read_of_patch hlen hpatch
  have hreport : (LoadFile.read limit other).blank.report = (LoadFile.read limit bytes).blank.report :=
    congrArg LoadFile.report hblank
  rw [LoadFile.report_blank, LoadFile.report_blank] at hreport
  simp only [Report.mk.injEq] at hreport
  obtain ⟨hsegments, htrailing, herror, hmarkers⟩ := hreport
  have hheaders := congrArg (List.map Segment.header) hsegments
  rw [List.map_map, List.map_map] at hheaders
  exact ⟨hheaders, hmarkers, htrailing, herror⟩

/-- A load file that is patched inside the blocks of its segments has the old disassembly but for the segments
that the patch touches, and these hold what was written. -/
theorem ofBytes_patch (hlen : other.length = bytes.length)
    (hpatch : ∀ k, other[k]? ≠ bytes[k]? → ∃ place, (LoadFile.read limit bytes).InBlock place k) :
    let file := LoadFile.read limit bytes
    let old := Disassembly.ofBytes { format := .xex, limit, decode := true } bytes
    let new := Disassembly.ofBytes { format := .xex, limit, decode := true } other
    new.segments.map (fun s => s.segment.header) = old.segments.map (fun s => s.segment.header) ∧
      new.markers = old.markers ∧ new.trailing = old.trailing ∧ new.error = old.error ∧
      ∀ place s s', old.segments[place]? = some s → new.segments[place]? = some s' →
        s.segment.bytes = bytes.extract (file.blockStart place) (file.blockEnd (place + 1)) ∧
          s'.segment.bytes = other.extract (file.blockStart place) (file.blockEnd (place + 1)) ∧
          ((∀ k, file.InBlock place k → other[k]? = bytes[k]?) → s' = s) := by
  intro file old new
  obtain ⟨hheaders, hmarkers, htrailing, herror⟩ := report_read_of_patch hlen hpatch
  have hblank := LoadFile.blank_read_of_patch hlen hpatch
  have hstart : ∀ place, (LoadFile.read limit other).blockStart place = file.blockStart place := by
    intro place
    rw [← LoadFile.blockStart_blank, hblank, LoadFile.blockStart_blank]
  have hend : ∀ count, (LoadFile.read limit other).blockEnd count = file.blockEnd count := by
    intro count
    rw [← LoadFile.blockEnd_blank, hblank, LoadFile.blockEnd_blank]
  have hsegments : new.segments.map (fun s => s.segment.header) = old.segments.map (fun s => s.segment.header) := by
    simpa [new, old, segments_ofBytes_xex, LoadFile.report, Function.comp_def] using hheaders
  refine ⟨hsegments, hmarkers, htrailing, congrArg (Option.map Fault.malformed) herror, ?_⟩
  intro place s s' hs hs'
  obtain ⟨e, he, rfl⟩ := getElem?_segments_ofBytes_xex hs
  obtain ⟨e', he', rfl⟩ := getElem?_segments_ofBytes_xex hs'
  have hbytes : bytes.extract (file.blockStart place) (file.blockEnd (place + 1)) = e.segment.bytes :=
    LoadFile.extract_read he
  have hbytes' : other.extract (file.blockStart place) (file.blockEnd (place + 1)) = e'.segment.bytes := by
    rw [← hstart, ← hend]
    exact LoadFile.extract_read he'
  refine ⟨hbytes.symm, hbytes'.symm, fun huntouched => ?_⟩
  have hsame : e'.segment.bytes = e.segment.bytes := by
    rw [← hbytes, ← hbytes']
    exact extract_congr fun k hfirst hstop => huntouched k ⟨hfirst, hstop⟩
  have hheader : e'.segment.header = e.segment.header := by
    have hmap := congrArg (fun headers : List Header => headers[place]?) hsegments
    simp only [List.getElem?_map, hs, hs', Option.map_some, Option.some.injEq] at hmap
    exact hmap
  rw [Segment.eq_of_header_eq hheader hsame]

/-- The bytes of a marker are written over the first block; the second segment, which stays as it is, and one trailing
byte follow. -/
theorem ofBytes_patch_marker_bytes :
    let old := Disassembly.ofBytes .standard
      [0xFF, 0xFF, 0x00, 0x20, 0x01, 0x20, 0xA9, 0x05, 0x00, 0x30, 0x00, 0x30, 0x60, 0x01]
    let new := Disassembly.ofBytes .standard
      [0xFF, 0xFF, 0x00, 0x20, 0x01, 0x20, 0xFF, 0xFF, 0x00, 0x30, 0x00, 0x30, 0x60, 0x01]
    new.segments.map (fun s => s.segment.header) = old.segments.map (fun s => s.segment.header) ∧
      new.markers = old.markers ∧ new.trailing = old.trailing ∧ new.error = old.error ∧
      ∃ touched touched' untouched, old.segments = [touched, untouched] ∧ new.segments = [touched', untouched] ∧
        touched.segment.bytes = [0xA9, 0x05] ∧ touched'.segment.bytes = [0xFF, 0xFF] := by
  intro old new
  have hpatch : ∀ k, ([0xFF, 0xFF, 0x00, 0x20, 0x01, 0x20, 0xFF, 0xFF, 0x00, 0x30, 0x00, 0x30, 0x60,
      0x01] : List UInt8)[k]? ≠ ([0xFF, 0xFF, 0x00, 0x20, 0x01, 0x20, 0xA9, 0x05, 0x00, 0x30, 0x00, 0x30, 0x60,
        0x01] : List UInt8)[k]? →
      ∃ place, (LoadFile.read none [0xFF, 0xFF, 0x00, 0x20, 0x01, 0x20, 0xA9, 0x05, 0x00, 0x30, 0x00, 0x30,
        0x60, 0x01]).InBlock place k := by
    intro k hk
    match k with
    | 6 | 7 => exact ⟨0, by decide⟩
    | 0 | 1 | 2 | 3 | 4 | 5 | 8 | 9 | 10 | 11 | 12 | 13 | _ + 14 => exact absurd rfl hk
  obtain ⟨hheaders, hmarkers, htrailing, herror, hplaces⟩ := ofBytes_patch (by decide) hpatch
  obtain ⟨touched, untouched, hold⟩ : ∃ touched untouched, old.segments = [touched, untouched] := ⟨_, _, rfl⟩
  obtain ⟨touched', untouched', hnew⟩ : ∃ touched' untouched', new.segments = [touched', untouched'] := ⟨_, _, rfl⟩
  have hfirst : old.segments[0]? = some touched := by rw [hold, List.getElem?_cons_zero]
  have hfirst' : new.segments[0]? = some touched' := by rw [hnew, List.getElem?_cons_zero]
  have hsecond : old.segments[1]? = some untouched := by rw [hold, List.getElem?_cons_succ, List.getElem?_cons_zero]
  have hsecond' : new.segments[1]? = some untouched' := by rw [hnew, List.getElem?_cons_succ, List.getElem?_cons_zero]
  obtain ⟨hbytes, hbytes', -⟩ := hplaces 0 touched touched' hfirst hfirst'
  -- the block of the second segment is the byte at offset 12
  have hsame : untouched' = untouched := by
    refine (hplaces 1 untouched untouched' hsecond hsecond').2.2 ?_
    rintro k ⟨hstart, hend⟩
    obtain rfl : k = 12 := Nat.le_antisymm (Nat.le_of_lt_succ hend) hstart
    rfl
  rw [hsame] at hnew
  exact ⟨hheaders, hmarkers, htrailing, herror, touched, touched', untouched, hold, hnew, hbytes.trans (by decide),
    hbytes'.trans (by decide)⟩

end Disasm6502
