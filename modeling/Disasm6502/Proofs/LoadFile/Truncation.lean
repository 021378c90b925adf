import Disasm6502.Proofs.LoadFile.Accounting

/-!
# Load files cut short

Entries are read alike whatever bytes follow them. So the front of a file holds the segments whose blocks
end in it and no others, and a header that stops the loading takes nothing back: the file up to the header
loads alike, and the bytes behind the header count by their number alone.
-/
namespace Disasm6502

namespace LoadFile

/-- Where the block of segment number `count` ends; the front of the file for number 0. -/
def blockEnd (count : Nat) (f : LoadFile) : Nat :=
  total ((f.entries.take count).map Entry.len)

theorem lawful_parse (bytes : List UInt8) : (parse bytes).Lawful openingMarkers :=
  (parseFrom_eq_iff.mp rfl).1

theorem encode_parse (bytes : List UInt8) : (parse bytes).encode = bytes :=
  (parseFrom_eq_iff.mp rfl).2

theorem length_flatMap_encode (entries : List Entry) :
    (entries.flatMap Entry.encode).length = total (entries.map Entry.len) := by
  simpa [front] using length_front entries 0

theorem lawful_entries (bytes : List UInt8) (i : Nat) (hi : i < (parse bytes).entries.length) :
    (parse bytes).entries[i].Lawful (markersAllowed i) := by
  have h := ((lawful_iff 0 _ _ _).mp (lawful_parse bytes)).1 i hi
  rwa [Nat.zero_add] at h

/-- Lawful entries are read back whatever follows them. -/
theorem parseFrom_flatMap_encode {place : Nat} {entries : List Entry}
    (h : ∀ (i : Nat) (hi : i < entries.length), entries[i].Lawful (markersAllowed (place + i)))
    (rest : List UInt8) :
    parseFrom (markersAllowed place) (entries.flatMap Entry.encode ++ rest) =
      (parseFrom (markersAllowed (place + entries.length)) rest).prepend entries := by
  induction entries generalizing place with
  | nil => rfl
  | cons e entries ih =>
    have hfirst : e.Lawful (markersAllowed place) := h 0 (Nat.zero_lt_succ _)
    have htail : ∀ (i : Nat) (hi : i < entries.length),
        entries[i].Lawful (markersAllowed (place + 1 + i)) := by
      intro i hi
      have hnext := h (i + 1) (Nat.succ_lt_succ hi)
      rwa [show place + (i + 1) = place + 1 + i by omega] at hnext
    have hplace : place + (e :: entries).length = place + 1 + entries.length := by
      rw [List.length_cons]
      omega
    have hinner : innerMarkers = markersAllowed (place + 1) := rfl
    rw [List.flatMap_cons, List.append_assoc, parseFrom_entry hfirst, hinner, ih htail, hplace]
    rfl

/-- The same for the first entries of any file. -/
theorem parse_take_entries (count : Nat) (bytes rest : List UInt8) :
    parse (((parse bytes).entries.take count).flatMap Entry.encode ++ rest) =
      (parseFrom (markersAllowed ((parse bytes).entries.take count).length) rest).prepend
        ((parse bytes).entries.take count) := by
  have hentries : ∀ (i : Nat) (hi : i < ((parse bytes).entries.take count).length),
      ((parse bytes).entries.take count)[i].Lawful (markersAllowed (0 + i)) := by
    intro i hi
    rw [List.getElem_take, Nat.zero_add]
    exact lawful_entries bytes i _
  have h := parseFrom_flatMap_encode hentries rest
  rwa [Nat.zero_add] at h

theorem encode_split (count : Nat) (f : LoadFile) :
    f.encode = (f.entries.take count).flatMap Entry.encode ++
      encode ⟨f.entries.drop count, f.markers, f.ending⟩ := by
  simp only [encode, ← List.append_assoc, ← List.flatMap_append, List.take_append_drop]

/-- Up to the end of a block a file is its first entries. -/
theorem take_blockEnd (count : Nat) (bytes : List UInt8) :
    bytes.take ((parse bytes).blockEnd count) =
      ((parse bytes).entries.take count).flatMap Entry.encode := by
  calc bytes.take ((parse bytes).blockEnd count)
      = (parse bytes).encode.take ((parse bytes).blockEnd count) := by rw [encode_parse]
    _ = ((parse bytes).entries.take count).flatMap Entry.encode := by
      rw [encode_split count]
      exact List.take_left' (length_flatMap_encode _)

/-- The front up to the end of a block ends with the block. -/
theorem block_suffix {place : Nat} {bytes : List UInt8} (h : place < (parse bytes).entries.length) :
    (parse bytes).entries[place].segment.bytes <:+ bytes.take ((parse bytes).blockEnd (place + 1)) := by
  rw [take_blockEnd, List.take_succ_eq_append_getElem h, List.flatMap_append, List.flatMap_singleton,
    Entry.encode]
  exact (List.suffix_append _ _).trans (List.suffix_append _ _)

theorem blockEnd_le_length (count : Nat) (bytes : List UInt8) :
    (parse bytes).blockEnd count ≤ bytes.length := by
  have hlen := congrArg List.length (take_blockEnd count bytes)
  rw [List.length_take, length_flatMap_encode] at hlen
  rw [blockEnd]
  omega

/-- Cutting the bytes behind a block cuts the file there. -/
theorem parse_take_blockEnd {count : Nat} {bytes : List UInt8} (h : count ≤ (parse bytes).entries.length) :
    parse (bytes.take ((parse bytes).blockEnd count)) = (parse bytes).cut count := by
  have hentries := parse_take_entries count bytes []
  rw [List.append_nil] at hentries
  rw [take_blockEnd, hentries, cut, if_pos h]
  simp [parseFrom, parseOnto, prepend]

theorem encode_cut {count : Nat} {bytes : List UInt8} (h : count ≤ (parse bytes).entries.length) :
    ((parse bytes).cut count).encode = bytes.take ((parse bytes).blockEnd count) := by
  rw [← parse_take_blockEnd h, encode_parse]

/-- The file up to a limit is the front of the buffer. -/
theorem encode_read_prefix (limit : Option Nat) (bytes : List UInt8) : (read limit bytes).encode <+: bytes := by
  cases limit with
  | none => exact ⟨[], (List.append_nil _).trans (encode_parse bytes)⟩
  | some count =>
    show ((parse bytes).cut count).encode <+: bytes
    by_cases h : count ≤ (parse bytes).entries.length
    · rw [encode_cut h]
      exact List.take_prefix _ _
    · exact ⟨[], by rw [List.append_nil, cut, if_neg h, encode_parse]⟩

/-- More bytes take back no entry. -/
theorem entries_mono {short long : List UInt8} (h : short <+: long) :
    (parse short).entries <+: (parse long).entries := by
  obtain ⟨behind, rfl⟩ := h
  have hsplit := encode_split (parse short).entries.length (parse short)
  rw [encode_parse, List.take_length, List.drop_length] at hsplit
  have hlong : short ++ behind = (parse short).entries.flatMap Entry.encode ++
      (encode ⟨[], (parse short).markers, (parse short).ending⟩ ++ behind) := by
    rw [← List.append_assoc, ← hsplit]
  have hentries := parse_take_entries (parse short).entries.length short
    (encode ⟨[], (parse short).markers, (parse short).ending⟩ ++ behind)
  rw [List.take_length] at hentries
  rw [hlong, hentries]
  exact ⟨_, rfl⟩

/-- A block is read from the first `k` bytes exactly when it ends there. -/
theorem blockEnd_le_iff {count : Nat} {bytes : List UInt8} (h : count ≤ (parse bytes).entries.length)
    (k : Nat) : (parse bytes).blockEnd count ≤ k ↔ count ≤ (parse (bytes.take k)).entries.length := by
  constructor
  · intro hle
    have hshort : bytes.take ((parse bytes).blockEnd count) <+: bytes.take k :=
      List.take_prefix_take_left hle
    have hlen := (entries_mono hshort).length_le
    rwa [parse_take_blockEnd h, cut, if_pos h, List.length_take_of_le h] at hlen
  · intro hcount
    have hentries := List.prefix_iff_eq_take.mp (entries_mono (List.take_prefix k bytes))
    have hsame : (parse bytes).blockEnd count = (parse (bytes.take k)).blockEnd count := by
      rw [blockEnd, blockEnd, hentries, List.take_take, Nat.min_eq_left hcount]
    calc (parse bytes).blockEnd count = (parse (bytes.take k)).blockEnd count := hsame
      _ ≤ (bytes.take k).length := blockEnd_le_length count _
      _ ≤ k := List.length_take_le k bytes

/-- Another ending may stand behind the same entries and markers when it leads with a marker only where the
old one does. -/
theorem Lawful.replaceEnding {entries : List Entry} {final : Nat} {old new : Ending}
    (h : Lawful openingMarkers ⟨entries, final, old⟩) (hmarked : Marked new.encode → Marked old.encode)
    (hnew : new.Final) : Lawful openingMarkers ⟨entries, final, new⟩ := by
  obtain ⟨hentries, hle, hgreedy, -⟩ := (lawful_iff 0 entries final old).mp h
  exact (lawful_iff 0 entries final new).mpr ⟨hentries, hle, fun hm => hgreedy (hmarked hm), hnew⟩

theorem take_endingOffset (bytes : List UInt8) :
    bytes.take (parse bytes).endingOffset = front (parse bytes).entries (parse bytes).markers := by
  calc bytes.take (parse bytes).endingOffset
      = (parse bytes).encode.take (parse bytes).endingOffset := by rw [encode_parse]
    _ = front (parse bytes).entries (parse bytes).markers := List.take_left' (endingOffset_eq _).symm

theorem drop_endingOffset (bytes : List UInt8) :
    bytes.drop (parse bytes).endingOffset = (parse bytes).ending.encode := by
  calc bytes.drop (parse bytes).endingOffset
      = (parse bytes).encode.drop (parse bytes).endingOffset := by rw [encode_parse]
    _ = (parse bytes).ending.encode := List.drop_left' (endingOffset_eq _).symm

theorem parse_replaceEnding {bytes : List UInt8} {new : Ending}
    (hmarked : Marked new.encode → Marked (parse bytes).ending.encode) (hnew : new.Final) :
    parse (bytes.take (parse bytes).endingOffset ++ new.encode) = { parse bytes with ending := new } := by
  rw [take_endingOffset]
  exact parseFrom_encode ((lawful_parse bytes).replaceEnding hmarked hnew)

theorem final_parse (bytes : List UInt8) : (parse bytes).ending.Final :=
  ((lawful_iff 0 _ _ _).mp (lawful_parse bytes)).2.2.2

theorem offset_lt_of_trailing? {f : LoadFile} {t : Trailing} (h : f.trailing? = some t) :
    t.offset < f.encode.length := by
  rw [encode_eq, List.length_append, ← endingOffset_eq]
  unfold trailing? at h
  split at h
  · cases h
  · cases h
  · rename_i held hempty hending
    cases h
    rw [hending]
    exact Nat.lt_add_of_pos_right (List.length_pos_iff.mpr hempty)

theorem eq_of_malformed?_eq_some {f : LoadFile} {m : Malformed} (h : f.malformed? = some m) :
    ∃ header rest, f.ending = .malformed header rest ∧
      m = { offset := f.endingOffset, start := header.start, last := header.last,
            needed := header.bodyLen, available := rest.length } := by
  unfold malformed? at h
  split at h
  · cases h
  · exact ⟨_, _, ‹_›, (Option.some.inj h).symm⟩

/-- Of the bytes behind a malformed header only their number is reported. -/
theorem report_malformed_congr {f : LoadFile} {header : Header} {rest other : List UInt8}
    (hending : f.ending = .malformed header rest) (hlen : other.length = rest.length) :
    report { f with ending := .malformed header other } = f.report := by
  obtain ⟨entries, final, ending⟩ := f
  cases hending
  simp only [report, trailing?, malformed?, endingOffset, hlen]

theorem report_take_endingOffset (bytes : List UInt8) :
    (parse (bytes.take (parse bytes).endingOffset)).report =
      { segments := (parse bytes).report.segments, trailing := none, error := none,
        markers := (parse bytes).report.markers } := by
  have hnone : ¬ Marked (Ending.residue []).encode := by decide
  have hfinal : (Ending.residue []).Final := Nat.zero_lt_succ 3
  have hcut : parse (bytes.take (parse bytes).endingOffset ++ (Ending.residue []).encode) =
      { parse bytes with ending := .residue [] } :=
    parse_replaceEnding (fun hm => absurd hm hnone) hfinal
  rw [Ending.encode, List.append_nil] at hcut
  rw [hcut]
  rfl

theorem report_replaceRest {bytes rest other : List UInt8} {header : Header}
    (hending : (parse bytes).ending = .malformed header rest) (hlen : other.length = rest.length) :
    (parse (bytes.take (parse bytes).endingOffset ++ (header.toBytes ++ other))).report =
      (parse bytes).report := by
  have hfinal := final_parse bytes
  rw [hending] at hfinal
  have hmarked : Marked (Ending.malformed header other).encode → Marked (parse bytes).ending.encode := by
    rw [hending]
    exact fun hm => (marked_header header rest).mpr ((marked_header header other).mp hm)
  have hother : (Ending.malformed header other).Final := by
    rw [Ending.Final, hlen]
    exact hfinal
  have hparse := parse_replaceEnding hmarked hother
  rw [Ending.encode] at hparse
  rw [hparse, report_malformed_congr hending hlen]

end LoadFile

/-- Cutting a file short keeps the segments whose blocks end in front of the cut, just these. -/
theorem segments_take (bytes : List UInt8) (k : Nat) :
    ∃ count ≤ (Report.ofLoadFile none bytes).segments.length,
      (Report.ofLoadFile none (bytes.take k)).segments =
          (Report.ofLoadFile none bytes).segments.take count ∧
        ∀ (place : Nat) (hplace : place < (Report.ofLoadFile none bytes).segments.length),
          (Report.ofLoadFile none bytes).segments[place].bytes <:+
              bytes.take ((LoadFile.parse bytes).blockEnd (place + 1)) ∧
            (place < count ↔ (LoadFile.parse bytes).blockEnd (place + 1) ≤ k) := by
  have hshort := LoadFile.entries_mono (List.take_prefix k bytes)
  have hsegments : ∀ b : List UInt8, (Report.ofLoadFile none b).segments =
      (LoadFile.parse b).entries.map Entry.segment := fun _ => rfl
  refine ⟨(LoadFile.parse (bytes.take k)).entries.length, ?_, ?_, ?_⟩
  · rw [hsegments, List.length_map]
    exact hshort.length_le
  · rw [hsegments, hsegments, ← List.map_take, ← List.prefix_iff_eq_take.mp hshort]
  · intro place hplace
    simp only [hsegments, List.length_map, List.getElem_map] at hplace ⊢
    exact ⟨LoadFile.block_suffix hplace, (LoadFile.blockEnd_le_iff (Nat.succ_le_of_lt hplace) k).symm⟩

/-- A malformed header leaves the report of what stands in front of it as it is, and of the bytes behind it
the report tells the number only. -/
theorem ofLoadFile_malformed {bytes : List UInt8} {m : Malformed}
    (h : (Report.ofLoadFile none bytes).error = some m) :
    Report.ofLoadFile none (bytes.take m.offset) =
        { segments := (Report.ofLoadFile none bytes).segments, trailing := none, error := none,
          markers := (Report.ofLoadFile none bytes).markers } ∧
      ∀ other : List UInt8, other.length = (bytes.drop (m.offset + Header.size)).length →
        Report.ofLoadFile none (bytes.take (m.offset + Header.size) ++ other) =
          Report.ofLoadFile none bytes := by
  have hm : (LoadFile.parse bytes).malformed? = some m := h
  obtain ⟨header, rest, hending, rfl⟩ := LoadFile.eq_of_malformed?_eq_some hm
  have htail : bytes.drop (LoadFile.parse bytes).endingOffset = header.toBytes ++ rest := by
    rw [LoadFile.drop_endingOffset, hending]
    rfl
  have hsize : header.toBytes.length = Header.size := rfl
  refine ⟨LoadFile.report_take_endingOffset bytes, fun other hother => ?_⟩
  rw [← List.drop_drop, htail, List.drop_left' hsize] at hother
  rw [List.take_add, htail, List.take_left' hsize, List.append_assoc]
  exact LoadFile.report_replaceRest hending hother

/-- A header whose last address lies before its first, with a marker directly in front of it. -/
theorem ofLoadFile_malformed_backward :
    (Report.ofLoadFile none
        [0xFF, 0xFF, 0x00, 0x20, 0x01, 0x20, 0xA9, 0x05, 0xFF, 0xFF, 0x00, 0x30, 0xFF, 0x2F, 0x01, 0x02]).error =
        some ⟨10, 0x3000, 0x2FFF, 0, 2⟩ ∧
      Report.ofLoadFile none [0xFF, 0xFF, 0x00, 0x20, 0x01, 0x20, 0xA9, 0x05, 0xFF, 0xFF] =
        ⟨[⟨0x2000, 0x2001, [0xA9, 0x05]⟩], none, none, 2⟩ ∧
      Report.ofLoadFile none
          [0xFF, 0xFF, 0x00, 0x20, 0x01, 0x20, 0xA9, 0x05, 0xFF, 0xFF, 0x00, 0x30, 0xFF, 0x2F, 0xFF, 0xFF] =
        ⟨[⟨0x2000, 0x2001, [0xA9, 0x05]⟩], none, some ⟨10, 0x3000, 0x2FFF, 0, 2⟩, 2⟩ := by
  have herror : (Report.ofLoadFile none
      [0xFF, 0xFF, 0x00, 0x20, 0x01, 0x20, 0xA9, 0x05, 0xFF, 0xFF, 0x00, 0x30, 0xFF, 0x2F, 0x01, 0x02]).error =
      some ⟨10, 0x3000, 0x2FFF, 0, 2⟩ := by decide
  obtain ⟨hfront, hrest⟩ := ofLoadFile_malformed herror
  exact ⟨herror, hfront, hrest [0xFF, 0xFF] rfl⟩

end Disasm6502
