import Disasm6502.Disassembly
import Disasm6502.Proofs.LoadFile.Truncation
import Disasm6502.Proofs.Sweep.Tiling
import Mathlib.Data.List.Chain

/-!
# Items cover their segments

The items of a segment run from its first address to its last, each from where the one before stops. Addresses
wrap at 64K, and so may a segment that is an image; one of a load file lies within the address space, and no
address wraps in it.
-/
namespace Disasm6502

/-- The items take up the segment from its first address to its last. -/
structure DecodedSegment.Covered (s : DecodedSegment) : Prop where
  nonempty : s.items ≠ []
  first : ∀ item ∈ s.items.head?, item.address = s.segment.start
  next : s.items.IsChain fun item following => item.nextAddress = following.address
  last : ∀ item ∈ s.items.getLast?, item.nextAddress = s.segment.last + 1
  bytes_eq : s.items.flatMap Item.bytes = s.segment.bytes

/-- No address wraps within the segment. -/
structure DecodedSegment.Unwrapped (s : DecodedSegment) : Prop where
  address_eq : ∀ before item after, s.items = before ++ item :: after →
    item.address.toNat = s.segment.start.toNat + (before.flatMap Item.bytes).length
  increasing : s.items.Pairwise fun item later => item.address < later.address
  le_last : ∀ item ∈ s.items, ∀ i < item.len, item.address.toNat + i ≤ s.segment.last.toNat

namespace Tiling

variable {base : UInt16} {bytes : List UInt8} {items before after : List Item} {item : Item}

theorem address_eq (h : Tiling base bytes items) (hsplit : items = before ++ item :: after) :
    item.address = base + UInt16.ofNat (before.flatMap Item.bytes).length := by
  apply UInt16.toNat_inj.mp
  rw [(h.itemAt before item after hsplit).address_eq, toNat_add_ofNat]

theorem nextAddress_eq (h : Tiling base bytes items) (hsplit : items = before ++ item :: after) :
    item.nextAddress = base + UInt16.ofNat ((before ++ [item]).flatMap Item.bytes).length := by
  rw [Item.nextAddress, h.address_eq hsplit, List.flatMap_append, List.flatMap_singleton, List.length_append,
    UInt16.ofNat_add, UInt16.add_assoc]
  rfl

theorem length_le (h : Tiling base bytes items) (hsplit : items = before ++ item :: after) :
    (before.flatMap Item.bytes).length + item.len ≤ bytes.length := by
  rw [← h.bytes_eq, hsplit, List.flatMap_append, List.flatMap_cons, List.length_append, List.length_append]
  exact Nat.add_le_add_left (Nat.le_add_right _ _) _

theorem isChain_nextAddress (h : Tiling base bytes items) :
    items.IsChain fun item following => item.nextAddress = following.address := by
  rw [List.isChain_iff_forall_rel_of_append_cons_cons]
  intro item following before after hsplit
  have hnext : items = before ++ [item] ++ following :: after := hsplit.trans (List.append_cons ..)
  rw [h.nextAddress_eq hsplit, h.address_eq hnext]

end Tiling

/-- There are bytes, and they end where the last address says, wrapping at 64K. -/
structure Segment.Spans (s : Segment) : Prop where
  nonempty : s.bytes ≠ []
  end_eq : s.start + UInt16.ofNat s.len = s.last + 1

theorem Segment.Complete.end_toNat {s : Segment} (h : s.Complete) :
    s.start.toNat + s.len = s.last.toNat + 1 := by
  have hle := UInt16.le_iff_toNat_le.mp h.start_le
  have hlen := h.len_eq
  omega

theorem Segment.Complete.spans {s : Segment} (h : s.Complete) : s.Spans where
  nonempty := by
    intro hnil
    have hlen := h.len_eq
    rw [Segment.len, hnil, List.length_nil] at hlen
    omega
  end_eq := by
    apply UInt16.toNat_inj.mp
    rw [toNat_add_ofNat, h.end_toNat, UInt16.toNat_add]
    rfl

theorem spans_of_rawSegment?_eq_some {base : UInt16} {bytes : List UInt8} {s : Segment}
    (h : rawSegment? base bytes = some s) : s.Spans := by
  cases bytes with
  | nil => cases h
  | cons b rest =>
    cases h
    refine ⟨List.cons_ne_nil b rest, ?_⟩
    rw [Segment.len, List.length_cons, Nat.add_sub_cancel, UInt16.ofNat_add, UInt16.add_assoc]
    rfl

theorem LoadFile.mem_entries_of_mem_read {limit : Option Nat} {bytes : List UInt8} {e : Entry}
    (h : e ∈ (read limit bytes).entries) : e ∈ (parse bytes).entries := by
  cases limit with
  | none => exact h
  | some count =>
    simp only [read, cut] at h
    split at h
    · exact List.mem_of_mem_take h
    · exact h

theorem complete_of_mem_ofLoadFile {limit : Option Nat} {bytes : List UInt8} {s : Segment}
    (h : s ∈ (Report.ofLoadFile limit bytes).segments) : s.Complete := by
  obtain ⟨e, he, rfl⟩ := List.mem_map.mp h
  obtain ⟨i, hi, rfl⟩ := List.getElem_of_mem (LoadFile.mem_entries_of_mem_read he)
  exact (LoadFile.lawful_entries bytes i hi).complete

theorem spans_of_mem_load {format : Format} {limit : Option Nat} {bytes : List UInt8} {s : Segment}
    (h : s ∈ (Report.load format limit bytes).segments) : s.Spans := by
  cases format with
  | xex => exact (complete_of_mem_ofLoadFile h).spans
  | raw base => exact spans_of_rawSegment?_eq_some (Option.mem_toList.mp h)

theorem Segment.Spans.covered {s : Segment} (h : s.Spans) : (DecodedSegment.mk s s.items).Covered := by
  have htiling : Tiling s.start s.bytes s.items := tiling_sweep s.start s.bytes
  refine ⟨?_, ?_, htiling.isChain_nextAddress, ?_, htiling.bytes_eq⟩
  · intro hnil
    exact h.nonempty (htiling.bytes_eq.symm.trans (congrArg (List.flatMap Item.bytes) hnil))
  · intro item hitem
    obtain ⟨after, hsplit⟩ := List.head?_eq_some_iff.mp hitem
    have hfirst : s.items = [] ++ item :: after := hsplit
    rw [htiling.address_eq hfirst]
    exact UInt16.add_zero s.start
  · intro item hitem
    obtain ⟨before, hsplit⟩ := List.getLast?_eq_some_iff.mp hitem
    rw [htiling.nextAddress_eq hsplit, ← hsplit, htiling.bytes_eq]
    exact h.end_eq

/-- A segment that does not run backwards ends within the address space, so no sum of addresses wraps. -/
theorem Segment.Complete.address_toNat {s : Segment} (h : s.Complete) {before after : List Item} {item : Item}
    (hsplit : s.items = before ++ item :: after) :
    item.address.toNat = s.start.toNat + (before.flatMap Item.bytes).length ∧
      item.address.toNat + item.len ≤ s.last.toNat + 1 ∧ 0 < item.len := by
  have htiling : Tiling s.start s.bytes s.items := tiling_sweep s.start s.bytes
  have hpos : 0 < item.len :=
    Item.len_pos_of_mem_sweep (hsplit ▸ List.mem_append_right before List.mem_cons_self)
  have hlen : (before.flatMap Item.bytes).length + item.len ≤ s.len := htiling.length_le hsplit
  have hend := h.end_toNat
  have hlast := s.last.toNat_lt_size
  have haddress : item.address.toNat = s.start.toNat + (before.flatMap Item.bytes).length := by
    rw [htiling.address_eq hsplit, toNat_add_ofNat, Nat.mod_eq_of_lt (by omega)]
  exact ⟨haddress, by omega, hpos⟩

theorem Segment.Complete.unwrapped {s : Segment} (h : s.Complete) :
    (DecodedSegment.mk s s.items).Unwrapped where
  address_eq before item after hsplit := (h.address_toNat hsplit).1
  increasing := by
    have : IsTrans Item fun item later => item.address < later.address := ⟨fun _ _ _ => UInt16.lt_trans⟩
    refine List.isChain_iff_pairwise.mp (List.isChain_iff_forall_rel_of_append_cons_cons.mpr ?_)
    intro item following before after hsplit
    have hnext : s.items = before ++ [item] ++ following :: after := hsplit.trans (List.append_cons ..)
    obtain ⟨hitem, -, hpos⟩ := h.address_toNat hsplit
    obtain ⟨hfollowing, -, -⟩ := h.address_toNat hnext
    rw [UInt16.lt_iff_toNat_lt, hitem, hfollowing, List.flatMap_append, List.flatMap_singleton,
      List.length_append]
    exact Nat.add_lt_add_left (Nat.lt_add_of_pos_right hpos) _
  le_last := by
    intro item hitem i hi
    obtain ⟨before, after, hsplit⟩ := List.append_of_mem hitem
    obtain ⟨-, hle, -⟩ := h.address_toNat hsplit
    exact Nat.le_of_lt_succ (Nat.lt_of_lt_of_le (Nat.add_lt_add_left hi _) hle)

/-- The items of each segment cover it, and no address of a load file's segment wraps. -/
theorem covered_of_mem_ofBytes {format : Format} {limit : Option Nat} {bytes : List UInt8} {s : DecodedSegment}
    (h : s ∈ (Disassembly.ofBytes { format, limit, decode := true } bytes).segments) :
    s.Covered ∧ (format = .xex → s.Unwrapped) := by
  obtain ⟨segment, hsegment, rfl⟩ := List.mem_map.mp h
  constructor
  · exact (spans_of_mem_load hsegment).covered
  · rintro rfl
    exact (complete_of_mem_ofLoadFile hsegment).unwrapped

/-- A load file's segment that ends at the last address, and an image that wraps there. -/
theorem covered_at_last_address :
    (∃ s ∈ (Disassembly.ofBytes { format := .xex, limit := some 1, decode := true }
        [0xFF, 0xFF, 0xFE, 0xFF, 0xFF, 0xFF, 0xA9, 0x05]).segments,
      s.segment = ⟨0xFFFE, 0xFFFF, [0xA9, 0x05]⟩ ∧ s.Covered ∧ s.Unwrapped) ∧
    ∃ s ∈ (Disassembly.ofBytes { format := .raw 0xFFFF, limit := none, decode := true } [0xA9, 0x05]).segments,
      s.segment = ⟨0xFFFF, 0x0000, [0xA9, 0x05]⟩ ∧ s.Covered := by
  have hfile : ⟨⟨0xFFFE, 0xFFFF, [0xA9, 0x05]⟩, sweep 0xFFFE [0xA9, 0x05]⟩ ∈
      (Disassembly.ofBytes { format := .xex, limit := some 1, decode := true }
        [0xFF, 0xFF, 0xFE, 0xFF, 0xFF, 0xFF, 0xA9, 0x05]).segments := by decide +kernel
  have himage : ⟨⟨0xFFFF, 0x0000, [0xA9, 0x05]⟩, sweep 0xFFFF [0xA9, 0x05]⟩ ∈
      (Disassembly.ofBytes { format := .raw 0xFFFF, limit := none, decode := true }
        [0xA9, 0x05]).segments := by decide +kernel
  obtain ⟨hcovered, hunwrapped⟩ := covered_of_mem_ofBytes hfile
  exact ⟨⟨_, hfile, rfl, hcovered, hunwrapped rfl⟩, _, himage, rfl, (covered_of_mem_ofBytes himage).1⟩

end Disasm6502
