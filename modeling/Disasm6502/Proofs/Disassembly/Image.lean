import Disasm6502.Listing
import Disasm6502.Proofs.LoadFile.Limit

/-!
# Images as load files

A headerless image that fits behind its base is the block of a load file with one segment, whose header names
the image's first and last address. Both have one disassembly, down to the listing, and tell apart only in
what they are and in the markers in front.
-/
namespace Disasm6502

/-- The load file whose only segment is the image, behind `count` markers. -/
def imageFile (count : Nat) (base : UInt16) (bytes : List UInt8) : List UInt8 :=
  encodeMarkers count ++ Word.toBytes base ++ Word.toBytes (UInt16.ofNat (base.toNat + bytes.length - 1)) ++ bytes

theorem LoadFile.parse_entry {e : Entry} (h : e.Lawful openingMarkers) :
    parse e.encode = ⟨[e], 0, .residue []⟩ := by
  have hfinal : (Ending.residue []).Final := Nat.zero_lt_succ 3
  have hunmarked : Marked (Ending.residue []).encode → 0 = innerMarkers := by decide
  have hf : Lawful openingMarkers ⟨[e], 0, .residue []⟩ :=
    .entry h (.ending (Nat.zero_le _) hunmarked hfinal)
  have hencode : e.encode = encode ⟨[e], 0, .residue []⟩ := by
    rw [encode_cons]
    exact (List.append_nil _).symm
  rw [hencode]
  exact parseFrom_encode hf

/-- A limit that allows any segment allows the only one. -/
theorem ofLoadFile_entry {limit : Option Nat} (hlimit : limit ≠ some 0) {e : Entry}
    (h : e.Lawful openingMarkers) : Report.ofLoadFile limit e.encode = ⟨[e.segment], none, none, e.markers⟩ := by
  have hcut : LoadFile.upTo limit ⟨[e], 0, .residue []⟩ = ⟨[e], 0, .residue []⟩ := by
    cases limit with
    | none => rfl
    | some count =>
      have hpos : count ≠ 0 := fun h => hlimit (congrArg some h)
      obtain ⟨count, rfl⟩ := Nat.exists_eq_succ_of_ne_zero hpos
      simp [LoadFile.upTo, LoadFile.cut]
  rw [Report.ofLoadFile, LoadFile.read_eq_upTo, LoadFile.parse_entry h, hcut]
  rfl

variable {base : UInt16} {bytes : List UInt8}

theorem ofNat_last (hpos : 1 ≤ bytes.length) :
    UInt16.ofNat (base.toNat + bytes.length - 1) = base + UInt16.ofNat (bytes.length - 1) := by
  rw [Nat.add_sub_assoc hpos, UInt16.ofNat_add, UInt16.ofNat_toNat]

theorem rawSegment?_of_pos (hpos : 1 ≤ bytes.length) :
    rawSegment? base bytes = some ⟨base, UInt16.ofNat (base.toNat + bytes.length - 1), bytes⟩ := by
  rw [ofNat_last hpos]
  cases bytes with
  | nil => cases hpos
  | cons b rest => rfl

theorem complete_of_fit (hpos : 1 ≤ bytes.length) (hfit : bytes.length ≤ UInt16.size - base.toNat) :
    (Segment.mk base (UInt16.ofNat (base.toNat + bytes.length - 1)) bytes).Complete := by
  have hbase := base.toNat_lt_size
  have hlast : (UInt16.ofNat (base.toNat + bytes.length - 1)).toNat = base.toNat + bytes.length - 1 :=
    UInt16.toNat_ofNat_of_lt (by omega)
  constructor
  · show base ≤ UInt16.ofNat (base.toNat + bytes.length - 1)
    rw [UInt16.le_iff_toNat_le, hlast]
    omega
  · show bytes.length = (UInt16.ofNat (base.toNat + bytes.length - 1)).toNat - base.toNat + 1
    rw [hlast]
    omega

/-- Assembler lines without a header tell the segments, the trailing bytes and the fault alone. -/
theorem Style.listing_human_congr {d d' : Disassembly} (hsegments : d.segments = d'.segments)
    (htrailing : d.trailing = d'.trailing) (herror : d.error = d'.error) (path path' : String) :
    (Style.human false).listing path d = (Style.human false).listing path' d' := by
  simp only [listing, parts, hsegments, htrailing, herror, Bool.false_eq_true, if_false]

/-- An image and the load file that holds it have one disassembly, but for the markers in front. A base that
reads as a marker itself needs all markers there may be in front of it. -/
theorem ofBytes_imageFile {options : Options} {count : Nat} (hoptions : options.fault? = none)
    (hpos : 1 ≤ bytes.length) (hfit : bytes.length ≤ UInt16.size - base.toNat)
    (hcount : count ≤ openingMarkers) (hbase : base = markerWord → count = openingMarkers) :
    let file := Disassembly.ofBytes { options with format := .xex } (imageFile count base bytes)
    let image := Disassembly.ofBytes { options with format := .raw base } bytes
    file.segments = image.segments ∧
      image.segments.map DecodedSegment.segment =
        [⟨base, UInt16.ofNat (base.toNat + bytes.length - 1), bytes⟩] ∧
      (file.error = none ∧ file.trailing = none ∧ file.markers = count) ∧
      (image.error = none ∧ image.trailing = none ∧ image.markers = 0) ∧
      ∀ path, (Style.human false).listing path file = (Style.human false).listing path image := by
  intro file image
  have hlimit : options.limit ≠ some 0 := by
    intro h
    rw [Options.fault?, if_pos h] at hoptions
    cases hoptions
  have hentry : Entry.Lawful openingMarkers
      ⟨count, base, UInt16.ofNat (base.toNat + bytes.length - 1), bytes⟩ :=
    ⟨hcount, hbase, complete_of_fit hpos hfit⟩
  have hencode : imageFile count base bytes =
      Entry.encode ⟨count, base, UInt16.ofNat (base.toNat + bytes.length - 1), bytes⟩ := by
    simp [imageFile, Entry.encode, Segment.header, Header.toBytes]
  have hfile : Report.load .xex options.limit (imageFile count base bytes) =
      ⟨[⟨base, UInt16.ofNat (base.toNat + bytes.length - 1), bytes⟩], none, none, count⟩ := by
    rw [hencode]
    exact ofLoadFile_entry hlimit hentry
  have himage : Report.load (.raw base) options.limit bytes =
      ⟨[⟨base, UInt16.ofNat (base.toNat + bytes.length - 1), bytes⟩], none, none, 0⟩ := by
    rw [Report.load, Report.ofImage, rawSegment?_of_pos hpos]
    rfl
  have hsegments : file.segments = image.segments := by
    simp only [file, image, Disassembly.ofBytes, hfile, himage]
  have hmarks : (file.error = none ∧ file.trailing = none ∧ file.markers = count) ∧
      (image.error = none ∧ image.trailing = none ∧ image.markers = 0) := by
    simp only [file, image, Disassembly.ofBytes, hfile, himage, Option.map_none, and_self]
  obtain ⟨⟨herror, htrailing, hmarkers⟩, ⟨herror', htrailing', hmarkers'⟩⟩ := hmarks
  refine ⟨hsegments, ?_, ⟨herror, htrailing, hmarkers⟩, ⟨herror', htrailing', hmarkers'⟩, fun path => ?_⟩
  · simp only [image, Disassembly.ofBytes, himage, List.map_cons, List.map_nil]
  · exact Style.listing_human_congr hsegments (htrailing.trans htrailing'.symm) (herror.trans herror'.symm)
      path path

/-- The image of one byte at the last address: its base reads as a marker. -/
theorem ofBytes_imageFile_last_address :
    let file := Disassembly.ofBytes .standard [0xFF, 0xFF, 0xFF, 0xFF, 0xFF, 0xFF, 0xFF, 0xFF, 0xEA]
    let image := Disassembly.ofBytes (.raw 0xFFFF) [0xEA]
    file.segments = image.segments ∧ image.segments.map DecodedSegment.segment = [⟨0xFFFF, 0xFFFF, [0xEA]⟩] ∧
      (file.segments.flatMap DecodedSegment.items).map Item.line = ["FFFF  EA        NOP"] ∧ file.markers = 2 ∧
      ∀ path, (Style.human false).listing path file = (Style.human false).listing path image := by
  intro file image
  obtain ⟨hsegments, hsegment, ⟨-, -, hmarkers⟩, -, hlisting⟩ :=
    @ofBytes_imageFile 0xFFFF [0xEA] .standard 2 (by decide) (by decide) (by decide) (by decide) (by decide)
  have hitem : (image.segments.flatMap DecodedSegment.items).map Item.line = ["FFFF  EA        NOP"] := by
    decide +kernel
  exact ⟨hsegments, hsegment, hsegments ▸ hitem, hmarkers, hlisting⟩

end Disasm6502
