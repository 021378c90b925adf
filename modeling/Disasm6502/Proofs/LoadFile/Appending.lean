import Disasm6502.Proofs.LoadFile.Limit

/-!
# Load files one behind the other

A file that ends with a block may be followed by another file. The reader that comes to the seam allows fewer
markers than a new one would, and yet both take the same, unless the second file leads with as many as only
the front of a file allows.
-/
namespace Disasm6502

/-- As many markers as may lead a file stand at the front. -/
def FullyMarked (bytes : List UInt8) : Prop := encodeMarkers openingMarkers <+: bytes

instance (bytes : List UInt8) : Decidable (FullyMarked bytes) := inferInstanceAs (Decidable (_ <+: _))

/-- Where not all markers are there, one less may be allowed. -/
theorem takeMarkers_innerMarkers {bytes : List UInt8} (h : ¬ FullyMarked bytes) :
    takeMarkers innerMarkers bytes = takeMarkers openingMarkers bytes := by
  have hspec := takeMarkers_spec openingMarkers bytes
  rcases htake : takeMarkers openingMarkers bytes with ⟨count, rest⟩
  rw [htake] at hspec
  obtain ⟨hbytes, hle, hgreedy⟩ := hspec
  have hcount : count ≠ openingMarkers := by
    intro hfull
    subst hfull
    exact h ⟨rest, hbytes.symm⟩
  have hunmarked : ¬ Marked rest := mt hgreedy hcount
  have hinner : count ≤ innerMarkers := by
    simp only [openingMarkers, innerMarkers] at hle hcount ⊢
    omega
  rw [hbytes]
  exact takeMarkers_encodeMarkers hinner fun hm => absurd hm hunmarked

namespace LoadFile

theorem parseFrom_innerMarkers {bytes : List UInt8} (h : ¬ FullyMarked bytes) :
    parseFrom innerMarkers bytes = parse bytes := by
  rw [parse, parseFrom_eq, parseFrom_eq openingMarkers, takeMarkers_innerMarkers h]

variable {bytes : List UInt8}

/-- The file ends with the block of its last segment, so it is its entries. -/
theorem eq_flatMap_encode (h : (parse bytes).blockEnd (parse bytes).entries.length = bytes.length) :
    bytes = (parse bytes).entries.flatMap Entry.encode := by
  have hfront := take_blockEnd (parse bytes).entries.length bytes
  rwa [h, List.take_length, List.take_length] at hfront

theorem parse_eq_of_blockEnd (h : (parse bytes).blockEnd (parse bytes).entries.length = bytes.length) :
    parse bytes = ⟨(parse bytes).entries, 0, .residue []⟩ := by
  have hcut := parse_take_blockEnd (Nat.le_refl (parse bytes).entries.length)
  rw [h, List.take_length] at hcut
  rw [hcut, cut, if_pos (Nat.le_refl _), List.take_length]

/-- What follows is read as a file of its own. -/
theorem parse_append {more : List UInt8}
    (h : (parse bytes).blockEnd (parse bytes).entries.length = bytes.length) (hmore : ¬ FullyMarked more) :
    parse (bytes ++ more) = (parse more).prepend (parse bytes).entries := by
  have hentries := parse_take_entries (parse bytes).entries.length bytes more
  rw [List.take_length, ← eq_flatMap_encode h] at hentries
  rw [hentries]
  cases hplace : (parse bytes).entries.length with
  | zero => rfl
  | succ place => exact congrArg (prepend _) (parseFrom_innerMarkers hmore)

end LoadFile

/-- Two files in a row report what each of them does, the second with all its offsets behind the first. -/
theorem ofLoadFile_append {bytes more : List UInt8}
    (h : (LoadFile.parse bytes).blockEnd (LoadFile.parse bytes).entries.length = bytes.length)
    (hmore : ¬ FullyMarked more) :
    Report.ofLoadFile none (bytes ++ more) =
      (Report.ofLoadFile none more).behind (Report.ofLoadFile none bytes).segments bytes.length
        (Report.ofLoadFile none bytes).markers := by
  have hreport : Report.ofLoadFile none (bytes ++ more) =
      ((LoadFile.parse more).prepend (LoadFile.parse bytes).entries).report :=
    congrArg LoadFile.report (LoadFile.parse_append h hmore)
  have hlen : total ((LoadFile.parse bytes).entries.map Entry.len) = bytes.length := by
    rw [← h, LoadFile.blockEnd, List.take_length]
  have hfinal : (LoadFile.parse bytes).markers = 0 := congrArg LoadFile.markers (LoadFile.parse_eq_of_blockEnd h)
  have hmarkers : (Report.ofLoadFile none bytes).markers =
      total ((LoadFile.parse bytes).entries.map Entry.markers) := by
    simp [Report.ofLoadFile, LoadFile.read, LoadFile.report, hfinal]
  rw [hreport, LoadFile.report_prepend, hlen, hmarkers]
  rfl

/-- Behind a file without markers: one marker, then a malformed header. -/
theorem ofLoadFile_append_malformed :
    Report.ofLoadFile none
        ([0x00, 0x20, 0x01, 0x20, 0xA9, 0x05] ++ [0xFF, 0xFF, 0xFF, 0x00, 0xFE, 0x00, 0x01]) =
      ⟨[⟨0x2000, 0x2001, [0xA9, 0x05]⟩], none, some ⟨8, 0x00FF, 0x00FE, 0, 1⟩, 1⟩ :=
  ofLoadFile_append (by decide) (by decide)

end Disasm6502
