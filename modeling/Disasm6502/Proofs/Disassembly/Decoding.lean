import Disasm6502.Disassembly
import Disasm6502.Proofs.Sweep.Tiling

/-!
# Decoded segments

A segment that was decoded carries the sweep of its bytes, so its addresses and its items say all there is to
say of it: its bytes are those of its items.
-/
namespace Disasm6502

/-- The items are those of the segment. -/
def DecodedSegment.Swept (s : DecodedSegment) : Prop :=
  s.items = s.segment.items

namespace DecodedSegment.Swept

variable {s t : DecodedSegment}

theorem bytes_eq (hs : s.Swept) : s.items.flatMap Item.bytes = s.segment.bytes := by
  rw [hs]
  exact (tiling_sweep s.segment.start s.segment.bytes).bytes_eq

theorem ext (hs : s.Swept) (ht : t.Swept) (hstart : s.segment.start = t.segment.start)
    (hlast : s.segment.last = t.segment.last) (hitems : s.items = t.items) : s = t := by
  have hbytes : s.segment.bytes = t.segment.bytes := by rw [← hs.bytes_eq, hitems, ht.bytes_eq]
  obtain ⟨⟨start, last, bytes⟩, items⟩ := s
  obtain ⟨⟨start', last', bytes'⟩, items'⟩ := t
  cases hstart
  cases hlast
  cases hbytes
  cases hitems
  rfl

theorem mem_sweep (hs : s.Swept) {item : Item} (h : item ∈ s.items) :
    item ∈ sweep s.segment.start s.segment.bytes := by
  rw [hs] at h
  exact h

end DecodedSegment.Swept

theorem swept_of_mem_ofBytes {format : Format} {limit : Option Nat} {bytes : List UInt8} {s : DecodedSegment}
    (h : s ∈ (Disassembly.ofBytes { format, limit, decode := true } bytes).segments) : s.Swept := by
  obtain ⟨segment, -, rfl⟩ := List.mem_map.mp h
  rfl

end Disasm6502
