import Disasm6502.Format
import Disasm6502.Proofs.LoadFile.Limit

/-!
# How a file opens

The first bytes of a file show its layout, and a reader that is asked for a segment finds out for itself. Both see
the same: whether a marker leads, and whether a header stands behind the markers or a residue only.
-/
namespace Disasm6502

/-- What comes first in a file behind the markers that lead it. -/
inductive First where
  | header
  | residue
deriving DecidableEq

/-- The file leads with `count` markers. The first call of a reader passes them and meets the header or the residue
behind them, and the report tells of these first. -/
inductive Opening (bytes : List UInt8) (count : Nat) : First → Prop
  | segment {s : Segment} {later : List Segment} {r : Reader}
      (call : (Reader.ofBytes bytes).next = (some (.ok s), r)) (markers_eq : r.markers = count)
      (offset_eq : r.offset = markerSize * count + Header.size + s.len)
      (header : encodeMarkers count ++ s.header.toBytes <+: bytes)
      (segments : (Report.ofLoadFile none bytes).segments = s :: later)
      (count_le : count ≤ (Report.ofLoadFile none bytes).markers) : Opening bytes count .header
  | malformed {m : Malformed} {r : Reader}
      (call : (Reader.ofBytes bytes).next = (some (.error m), r)) (markers_eq : r.markers = count)
      (offset_eq : m.offset = markerSize * count)
      (header : encodeMarkers count ++ Header.toBytes ⟨m.start, m.last⟩ <+: bytes)
      (report : Report.ofLoadFile none bytes = ⟨[], none, some m, count⟩) : Opening bytes count .header
  | residue {rest : List UInt8} {r : Reader}
      (call : (Reader.ofBytes bytes).next = (none, r)) (markers_eq : r.markers = count)
      (bytes_eq : bytes = encodeMarkers count ++ rest) (short : rest.length < Header.size)
      (report : Report.ofLoadFile none bytes =
        ⟨[], if rest = [] then none else some ⟨markerSize * count, rest⟩, none, count⟩) :
      Opening bytes count .residue

/-- What loading a file of this layout comes to. -/
def Layout.Describes (bytes : List UInt8) : Layout → Prop
  | marked => ∃ count first, 1 ≤ count ∧ count ≤ 2 ∧ Opening bytes count first
  | unmarked => Opening bytes 0 .header
  | empty => Opening bytes 0 .residue

namespace LoadFile

theorem report_encode {f : LoadFile} (h : f.Lawful openingMarkers) :
    Report.ofLoadFile none f.encode = f.report :=
  congrArg report (parseFrom_encode h)

theorem report_residue (count : Nat) (rest : List UInt8) : report ⟨[], count, .residue rest⟩ =
    ⟨[], if rest = [] then none else some ⟨markerSize * count, rest⟩, none, count⟩ := by
  cases rest <;> simp [report, trailing?, malformed?, endingOffset]

theorem report_malformed (count : Nat) (header : Header) (rest : List UInt8) :
    report ⟨[], count, .malformed header rest⟩ =
      ⟨[], none, some ⟨markerSize * count, header.start, header.last, header.bodyLen, rest.length⟩, count⟩ := by
  simp [report, trailing?, malformed?, endingOffset]

end LoadFile

theorem opening_of_ending {count : Nat} {ending : Ending}
    (h : LoadFile.Lawful openingMarkers ⟨[], count, ending⟩) :
    ∃ first, Opening (encodeMarkers count ++ ending.encode) count first := by
  have hreport : Report.ofLoadFile none (encodeMarkers count ++ ending.encode) = _ := LoadFile.report_encode h
  have hstands : (Reader.ofBytes (encodeMarkers count ++ ending.encode)).StandsAt ⟨[], count, ending⟩ :=
    ⟨rfl, rfl, h, rfl⟩
  -- In front of the ending nothing has been read, so what the reader then holds is the whole report.
  obtain ⟨fault, r, hcall, hkept⟩ := hstands.next_ending []
  have hread : LoadFile.report ⟨[], count, ending⟩ = ⟨[], r.trailing, fault, r.markers⟩ :=
    (Report.behind_nil _).symm.trans hkept
  cases h with
  | ending hle hgreedy hfinal =>
    cases ending with
    | residue rest =>
      rw [LoadFile.report_residue] at hreport hread
      obtain rfl : none = fault := congrArg Report.error hread
      exact ⟨.residue, .residue hcall (congrArg Report.markers hread).symm rfl hfinal hreport⟩
    | malformed header rest =>
      rw [LoadFile.report_malformed] at hreport hread
      obtain rfl : some _ = fault := congrArg Report.error hread
      refine ⟨.header, .malformed hcall (congrArg Report.markers hread).symm rfl ?_ hreport⟩
      rw [Ending.encode, ← List.append_assoc]
      exact List.prefix_append _ rest

theorem opening_of_entry {e : Entry} {entries : List Entry} {final : Nat} {ending : Ending}
    (h : LoadFile.Lawful openingMarkers ⟨e :: entries, final, ending⟩) :
    Opening (LoadFile.encode ⟨e :: entries, final, ending⟩) e.markers .header := by
  have hreport := LoadFile.report_encode h
  have hstands : (Reader.ofBytes (LoadFile.encode ⟨e :: entries, final, ending⟩)).StandsAt
    ⟨e :: entries, final, ending⟩ := ⟨rfl, rfl, h, rfl⟩
  obtain ⟨r, hcall, -, hoffset, hmarkers⟩ := hstands.next_entry
  refine .segment hcall (hmarkers.trans (Nat.zero_add _)) (hoffset.trans (Nat.zero_add _)) ?_
    (congrArg Report.segments hreport) ?_
  · rw [LoadFile.encode_cons, Entry.encode, List.append_assoc]
    exact List.prefix_append _ _
  · simp only [hreport, LoadFile.report, List.map_cons, total_cons]
    omega

/-- Every file opens in some way, and with a marker if one leads. -/
theorem exists_opening (bytes : List UInt8) :
    ∃ count first, Opening bytes count first ∧ count ≤ openingMarkers ∧ (Marked bytes ↔ 0 < count) := by
  obtain ⟨f, hf, rfl⟩ := LoadFile.exists_lawful openingMarkers bytes
  obtain ⟨entries, final, ending⟩ := f
  cases entries with
  | nil =>
    obtain ⟨first, hopening⟩ := opening_of_ending hf
    cases hf with
    | ending hle hgreedy hfinal =>
      exact ⟨final, first, hopening, hle, marked_encodeMarkers_append (by decide) hgreedy⟩
  | cons e entries =>
    have hopening := opening_of_entry hf
    cases hf with
    | entry he hlater =>
      refine ⟨e.markers, .header, hopening, he.le, ?_⟩
      rw [LoadFile.encode_cons, Entry.encode, List.append_assoc, List.append_assoc]
      exact marked_encodeMarkers_append (by decide) fun hm => he.greedy ((marked_header _ _).mp hm)

section

variable {bytes : List UInt8} {count count' : Nat} {first first' : First}

theorem Opening.markers_next (h : Opening bytes count first) : (Reader.ofBytes bytes).next.2.markers = count := by
  cases h with
  | segment call markers_eq | malformed call markers_eq | residue call markers_eq => rw [call, markers_eq]

theorem Opening.next_eq_none_iff (h : Opening bytes count first) :
    (Reader.ofBytes bytes).next.1 = none ↔ first = .residue := by
  cases h with
  | segment call | malformed call | residue call => simp [call]

/-- A file opens in one way, as a reader has one first answer. -/
theorem Opening.unique (h : Opening bytes count first) (h' : Opening bytes count' first') :
    count = count' ∧ first = first' := by
  have hfirst : first = .residue ↔ first' = .residue := h.next_eq_none_iff.symm.trans h'.next_eq_none_iff
  refine ⟨h.markers_next.symm.trans h'.markers_next, ?_⟩
  revert hfirst
  cases first <;> cases first' <;> decide

/-- A header needs room behind the markers. -/
theorem Opening.length_lt_iff (h : Opening bytes count first) :
    bytes.length < markerSize * count + Header.size ↔ first = .residue := by
  have hheader : ∀ header : Header, encodeMarkers count ++ header.toBytes <+: bytes →
      markerSize * count + Header.size ≤ bytes.length := by
    intro header hprefix
    have hlen := hprefix.length_le
    rwa [List.length_append, length_encodeMarkers] at hlen
  cases h with
  | segment _ _ _ header | malformed _ _ _ header =>
    exact iff_of_false (Nat.not_lt_of_le (hheader _ header)) nofun
  | residue _ _ bytes_eq short =>
    rw [bytes_eq, List.length_append, length_encodeMarkers]
    exact iff_of_true (Nat.add_lt_add_left short _) rfl

theorem Layout.read?_eq_some_markerWord_iff : Word.read? bytes 0 = some markerWord ↔ Marked bytes :=
  Word.read?_eq_some_iff_of_lt (by decide)

theorem Layout.detect_of_marked (h : Marked bytes) : detect bytes = marked :=
  if_pos (read?_eq_some_markerWord_iff.mpr h)

theorem Layout.detect_of_not_marked (h : ¬ Marked bytes) :
    detect bytes = if bytes.length < Header.size then empty else unmarked := by
  have hroom : (bytes.take Header.size).length = Header.size ↔ ¬ bytes.length < Header.size := by
    rw [List.length_take]
    omega
  rw [detect, if_neg (mt read?_eq_some_markerWord_iff.mp h)]
  by_cases hshort : bytes.length < Header.size
  · rw [if_pos hshort, if_neg fun hfull => hroom.mp hfull hshort]
  · rw [if_neg hshort, if_pos (hroom.mpr hshort)]

theorem Layout.detect_eq_empty_iff : detect bytes = empty ↔ bytes.length < Header.size ∧ ¬ Marked bytes := by
  by_cases hmarked : Marked bytes
  · rw [detect_of_marked hmarked]
    exact iff_of_false nofun fun h => h.2 hmarked
  · rw [detect_of_not_marked hmarked]
    by_cases hshort : bytes.length < Header.size
    · exact iff_of_true (if_pos hshort) ⟨hshort, hmarked⟩
    · rw [if_neg hshort]
      exact iff_of_false nofun fun h => hshort h.1

/-- The layout that an opening has. -/
def First.layout (count : Nat) : First → Layout
  | header => if 0 < count then .marked else .unmarked
  | residue => if 0 < count then .marked else .empty

theorem Opening.detect_eq (h : Opening bytes count first) : Layout.detect bytes = first.layout count := by
  have hmarked : Marked bytes ↔ 0 < count := by
    -- An opening does not say that all markers were passed; the one that is known to exist does.
    obtain ⟨count', first', h', -, hmarked⟩ := exists_opening bytes
    rwa [(h.unique h').1]
  have hshort := h.length_lt_iff
  by_cases hcount : 0 < count
  · rw [Layout.detect_of_marked (hmarked.mpr hcount)]
    cases first <;> exact (if_pos hcount).symm
  · rw [Layout.detect_of_not_marked (mt hmarked.mp hcount)]
    obtain rfl : count = 0 := Nat.eq_zero_of_not_pos hcount
    rw [Nat.mul_zero, Nat.zero_add] at hshort
    cases first with
    | header => exact if_neg fun hlt => nomatch hshort.mp hlt
    | residue => exact if_pos (hshort.mpr rfl)

theorem Layout.describes_iff (layout : Layout) : layout.Describes bytes ↔ detect bytes = layout := by
  constructor
  · intro h
    cases layout with
    | marked =>
      obtain ⟨count, first, hcount, -, hopening⟩ := h
      rw [hopening.detect_eq]
      cases first <;> exact if_pos hcount
    | unmarked => exact Opening.detect_eq h
    | empty => exact Opening.detect_eq h
  · rintro rfl
    obtain ⟨count, first, hopening, hle, -⟩ := exists_opening bytes
    rw [hopening.detect_eq]
    cases count with
    | zero => cases first <;> exact hopening
    | succ count => cases first <;> exact ⟨count + 1, _, Nat.succ_pos count, hle, hopening⟩

end

/-- The layout that is detected is the one that loading finds, and no other layout is. A file too short for a header
reports itself as its residue, one without a marker leaves no residue unless it has a segment, and the marker of any
other is reported. -/
theorem detect_agrees_with_load (bytes : List UInt8) :
    (∀ layout : Layout, layout.Describes bytes ↔ Layout.detect bytes = layout) ∧
      (Layout.detect bytes = .empty ↔ bytes.length < 4 ∧ ¬ [0xFF, 0xFF] <+: bytes) ∧
      (Layout.detect bytes = .empty →
        Report.ofLoadFile none bytes = ⟨[], if bytes = [] then none else some ⟨0, bytes⟩, none, 0⟩) ∧
      (Layout.detect bytes = .unmarked →
        (Report.ofLoadFile none bytes).trailing ≠ none → (Report.ofLoadFile none bytes).segments ≠ []) ∧
      (Layout.detect bytes = .marked → 1 ≤ (Report.ofLoadFile none bytes).markers) := by
  refine ⟨Layout.describes_iff, Layout.detect_eq_empty_iff, fun h => ?_, fun h htrailing => ?_, fun h => ?_⟩
  · have hopening := (Layout.describes_iff .empty).mpr h
    cases hopening with
    | residue _ _ bytes_eq _ report =>
      obtain rfl := bytes_eq
      exact report
  · have hopening := (Layout.describes_iff .unmarked).mpr h
    cases hopening with
    | segment _ _ _ _ segments =>
      rw [segments]
      exact List.cons_ne_nil _ _
    | malformed _ _ _ _ report =>
      rw [report] at htrailing
      exact absurd rfl htrailing
  · obtain ⟨count, first, hpos, -, hopening⟩ := (Layout.describes_iff .marked).mpr h
    cases hopening with
    | segment _ _ _ _ _ count_le => exact Nat.le_trans hpos count_le
    | malformed _ _ _ _ report =>
      rw [report]
      exact hpos
    | residue _ _ _ _ report =>
      rw [report]
      exact hpos

/-- Two markers with a residue behind them, a segment without a marker in front of a residue, and too few bytes. -/
theorem detect_agrees_with_load_short :
    Layout.Describes [0xFF, 0xFF, 0xFF, 0xFF, 0x00] .marked ∧
      1 ≤ (Report.ofLoadFile none [0xFF, 0xFF, 0xFF, 0xFF, 0x00]).markers ∧
      Layout.Describes [0x00, 0x20, 0x00, 0x20, 0x60, 0xA9] .unmarked ∧
      (Report.ofLoadFile none [0x00, 0x20, 0x00, 0x20, 0x60, 0xA9]).segments ≠ [] ∧
      Report.ofLoadFile none [0x00, 0x20, 0x00] = ⟨[], some ⟨0, [0x00, 0x20, 0x00]⟩, none, 0⟩ := by
  obtain ⟨hmarked, -, -, -, hmarkers⟩ := detect_agrees_with_load [0xFF, 0xFF, 0xFF, 0xFF, 0x00]
  obtain ⟨hunmarked, -, -, hsegments, -⟩ := detect_agrees_with_load [0x00, 0x20, 0x00, 0x20, 0x60, 0xA9]
  obtain ⟨-, -, hempty, -, -⟩ := detect_agrees_with_load [0x00, 0x20, 0x00]
  exact ⟨(hmarked .marked).mpr (by decide), hmarkers (by decide), (hunmarked .unmarked).mpr (by decide),
    hsegments (by decide) (by decide), hempty (by decide)⟩

end Disasm6502
