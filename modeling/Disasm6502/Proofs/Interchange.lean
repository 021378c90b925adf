import Disasm6502.Interchange
import Disasm6502.Proofs.Listing.Document
import Disasm6502.Proofs.LoadFile.Truncation

/-!
# What the interchange form keeps

Segments and trailing bytes read back from their form as what they were. Of an operand the form keeps the value
and not the width, so a word without a high byte comes back as a byte; the other members of an item make up for
that, and no two lists of decoded items have one form.
-/
namespace Disasm6502

namespace Interchange

/-- Written and read again, as a value or as text in any spacing, `a` is what it was. -/
structure RoundTrips {α : Type} (write : α → Json) (read : Json → Option α) (a : α) : Prop where
  value : read (write a) = some a
  text : ∀ spacing : Json.Spacing, spacing.Blank → (Json.read? ((write a).render spacing)).bind read = some a

/-- Objects with the same members, in whatever order these stand. -/
def SameMembers (j k : Json) : Prop :=
  ∀ key, fields? [key] j = fields? [key] k

theorem natural?_number {bound n : Nat} (h : n < bound) : natural? bound (.number n) = some n :=
  if_pos h

@[simp] theorem byte?_byte (b : UInt8) : byte? (byte b) = some b := by
  rw [byte?, byte, natural?_number b.toNat_lt_size, Option.map_some, UInt8.ofNat_toNat]

@[simp] theorem word?_word (w : UInt16) : word? (word w) = some w := by
  rw [word?, word, natural?_number w.toNat_lt_size, Option.map_some, UInt16.ofNat_toNat]

@[simp] theorem bytes?_bytes (bs : List UInt8) : bytes? (bytes bs) = some bs := by
  show (bs.map byte).mapM byte? = some bs
  induction bs with
  | nil => rfl
  | cons b bs ih => simp [List.mapM_cons, ih]

/-- What reads back is written apart from everything else. -/
theorem eq_of_read {α : Type} {write : α → Json} {read : Json → Option α} (hread : ∀ a, read (write a) = some a)
    {a b : α} (h : write a = write b) : a = b := by
  apply Option.some.inj
  rw [← hread a, h, hread b]

theorem natural_bytes (bs : List UInt8) : (bytes bs).Natural := by
  refine .array _ fun j hj => ?_
  obtain ⟨b, -, rfl⟩ := List.mem_map.mp hj
  exact .number _

/-- A form of natural numbers needs only be read back as a value. -/
theorem RoundTrips.of_natural {α : Type} {write : α → Json} {read : Json → Option α} {a : α}
    (hnatural : (write a).Natural) (hvalue : read (write a) = some a) : RoundTrips write read a := by
  refine ⟨hvalue, fun spacing hspacing => ?_⟩
  have hread : Json.read? ((write a).render spacing ++ "") = some (write a) :=
    Json.read?_render hspacing hnatural nofun
  rw [String.append_empty] at hread
  rw [hread]
  exact hvalue

theorem segment?_segment (s : Segment) : segment? (segment s) = some s := by
  have hfields : fields? ["start", "end", "bytes"] (segment s) = some [word s.start, word s.last, bytes s.bytes] := rfl
  simp only [segment?, hfields, word?_word, bytes?_bytes]

theorem trailing?_trailing {t : Trailing} (h : t.offset < Word.offsetBound) : trailing? (trailing t) = some t := by
  have hfields : fields? ["offset", "bytes"] (trailing t) = some [.number t.offset, bytes t.bytes] := rfl
  simp only [trailing?, hfields, count?, natural?_number h, bytes?_bytes]

theorem roundTrips_segment (s : Segment) : RoundTrips segment segment? s := by
  refine .of_natural (.object _ ?_) (segment?_segment s)
  simp only [List.forall_mem_cons]
  exact ⟨.number _, .number _, natural_bytes _, nofun⟩

theorem roundTrips_trailing {t : Trailing} (h : t.offset < Word.offsetBound) : RoundTrips trailing trailing? t := by
  refine .of_natural (.object _ ?_) (trailing?_trailing h)
  simp only [List.forall_mem_cons]
  exact ⟨.number _, natural_bytes _, nofun⟩

theorem operand?_byte (b : UInt8) : operand? (operand (.byte b)) = some (.byte b) := by
  have hbyte : byte? (operand (.byte b)) = some b := byte?_byte b
  rw [operand?, hbyte]

/-- A word without a high byte is written as its low byte is, and that is what it comes back as. -/
theorem operand?_narrow (b : UInt8) : operand? (operand (.word b.toUInt16)) = some (.byte b) :=
  operand?_byte b

theorem operand?_wide {w : UInt16} (h : UInt8.size ≤ w.toNat) : operand? (operand (.word w)) = some (.word w) := by
  have hbyte : byte? (operand (.word w)) = none := by
    have hnatural : natural? UInt8.size (word w) = none := if_neg (Nat.not_lt_of_le h)
    exact congrArg (Option.map UInt8.ofNat) hnatural
  have hword : word? (operand (.word w)) = some w := word?_word w
  rw [operand?, hbyte, hword]
  rfl

theorem roundTrips_operand_iff {o : Operand} :
    RoundTrips operand operand? o ↔ ∀ b : UInt8, o ≠ .word b.toUInt16 := by
  constructor
  · intro h b ho
    subst ho
    have hback := h.value
    rw [operand?_narrow] at hback
    cases hback
  · intro h
    refine .of_natural (.number _) ?_
    cases o with
    | byte b => exact operand?_byte b
    | word w =>
      refine operand?_wide (Nat.le_of_not_lt fun hlt => h w.toUInt8 ?_)
      have hw : w.toUInt8.toUInt16 = w := by
        apply UInt16.toNat_inj.mp
        rw [UInt8.toNat_toUInt16, UInt16.toNat_toUInt8, Nat.mod_eq_of_lt hlt]
      rw [hw]

/-- Two operand bytes hold a word without a high byte exactly if the second one is zero. -/
theorem ofBytes?_eq_narrow_iff {body : List UInt8} {low : UInt8} :
    Operand.ofBytes? body = some (.word low.toUInt16) ↔ body = [low, 0] := by
  have hzero : Word.ofBytes low 0 = low.toUInt16 := by
    apply UInt16.toNat_inj.mp
    rw [Word.toNat_ofBytes, UInt8.toNat_toUInt16]
    rfl
  rw [← hzero]
  match body with
  | [] | [_] | _ :: _ :: _ :: _ => simp [Operand.ofBytes?]
  | [low', high] => simp [Operand.ofBytes?, Word.ofBytes_inj]

/-- The operand of a decoded instruction comes back as it was, except where the second of two operand bytes is
zero. Such a word comes back as the byte of its value. -/
theorem operand_of_mem_sweep {base : UInt16} {buffer : List UInt8} {i : Instruction} {o : Operand}
    (h : .instruction i ∈ sweep base buffer) (ho : i.operand = some o) :
    (RoundTrips operand operand? o ↔ ∀ low, i.bytes ≠ [i.opcode, low, 0]) ∧
      ∀ low, i.bytes = [i.opcode, low, 0] → o = .word low.toUInt16 ∧ operand? (operand o) = some (.byte low) := by
  obtain ⟨row, -, body, -, hi⟩ := instruction_of_mem_sweep h
  have hnarrow (low : UInt8) : o = .word low.toUInt16 ↔ i.bytes = [i.opcode, low, 0] := by
    have hbytes : i.bytes = i.opcode :: body := by
      rw [hi]
      rfl
    have hoperand : Operand.ofBytes? body = some o := by
      rw [← ho, hi]
      rfl
    rw [hbytes, List.cons_inj_right, ← ofBytes?_eq_narrow_iff, hoperand, Option.some.injEq]
  constructor
  · rw [roundTrips_operand_iff]
    exact forall_congr' fun low => not_congr (hnarrow low)
  · intro low hlow
    have hword := (hnarrow low).mpr hlow
    rw [hword]
    exact ⟨rfl, operand?_narrow low⟩

/-- Two instructions whose operands differ in the high byte alone. -/
theorem operand_of_mem_sweep_absolute :
    let narrow : Instruction := ⟨0x1000, 0xAD, [0xAD, 0x05, 0x00], "LDA", .absolute, some (.word 0x0005), none⟩
    let wide : Instruction := ⟨0x1003, 0xAD, [0xAD, 0x05, 0x03], "LDA", .absolute, some (.word 0x0305), none⟩
    sweep 0x1000 [0xAD, 0x05, 0x00, 0xAD, 0x05, 0x03] = [.instruction narrow, .instruction wide] ∧
      operand? (operand (.word 0x0005)) = some (.byte 0x05) ∧ RoundTrips operand operand? (.word 0x0305) := by
  intro narrow wide
  have hsweep : sweep 0x1000 [0xAD, 0x05, 0x00, 0xAD, 0x05, 0x03] = [.instruction narrow, .instruction wide] := by
    decide +kernel
  have hnarrow : .instruction narrow ∈ sweep 0x1000 [0xAD, 0x05, 0x00, 0xAD, 0x05, 0x03] := by simp [hsweep]
  have hwide : .instruction wide ∈ sweep 0x1000 [0xAD, 0x05, 0x00, 0xAD, 0x05, 0x03] := by simp [hsweep]
  refine ⟨hsweep, ((operand_of_mem_sweep hnarrow rfl).2 0x05 rfl).2, (operand_of_mem_sweep hwide rfl).1.mpr ?_⟩
  intro low hlow
  cases hlow

/-- Not every operand that is decoded comes back as it was: `LDA $0005` in its long form loses its width. -/
theorem operand_width_lost :
    .instruction ⟨0x1000, 0xAD, [0xAD, 0x05, 0x00], "LDA", .absolute, some (.word 0x0005), none⟩ ∈
        sweep 0x1000 [0xAD, 0x05, 0x00] ∧
      ¬ ∀ base buffer i o, .instruction i ∈ sweep base buffer → i.operand = some o →
        operand? (operand o) = some o := by
  have hlong : .instruction ⟨0x1000, 0xAD, [0xAD, 0x05, 0x00], "LDA", .absolute, some (.word 0x0005), none⟩ ∈
      sweep 0x1000 [0xAD, 0x05, 0x00] := by decide +kernel
  refine ⟨hlong, fun hall => ?_⟩
  have hback : operand? (operand (.word 0x0005)) = some (.byte 0x05) := operand?_narrow 0x05
  cases hback.symm.trans (hall _ _ _ _ hlong rfl)

theorem natural_item (x : Item) : (item x).Natural := by
  cases x with
  | instruction i =>
    refine .object _ ?_
    simp only [List.forall_mem_cons]
    exact ⟨.string _, .number _, .number _, natural_bytes _, .string _, .string _,
      Document.natural_ofOption (fun _ => .number _) _, Document.natural_ofOption (fun _ => .number _) _, nofun⟩
  | unknown address opcode =>
    refine .object _ ?_
    simp only [List.forall_mem_cons]
    exact ⟨.string _, .number _, .number _, nofun⟩
  | truncated address opcode held expectedLen =>
    refine .object _ ?_
    simp only [List.forall_mem_cons]
    exact ⟨.string _, .number _, .number _, natural_bytes _, .number _, nofun⟩

theorem fields?_address (x : Item) : fields? ["address"] (item x) = some [word x.address] := by
  cases x <;> rfl

theorem fields?_opcode (x : Item) : fields? ["opcode"] (item x) = some [byte x.opcode] := by
  cases x <;> rfl

/-- An unknown byte is written without its bytes. -/
theorem fields?_bytes (x : Item) : fields? ["bytes"] (item x) = if x.isUnknown then none else some [bytes x.bytes] := by
  cases x <;> rfl

variable {base base' : UInt16} {buffer buffer' : List UInt8} {x y : Item}

/-- The width of an operand is not missed: an item that was decoded follows from its address and its bytes, and
the form holds these. -/
theorem eq_of_sameMembers (hx : x ∈ sweep base buffer) (hy : y ∈ sweep base' buffer')
    (h : SameMembers (item x) (item y)) : x = y := by
  have haddress := h "address"
  have hopcode := h "opcode"
  have hbytes := h "bytes"
  rw [fields?_address, fields?_address, Option.some.injEq, List.cons.injEq] at haddress
  rw [fields?_opcode, fields?_opcode, Option.some.injEq, List.cons.injEq] at hopcode
  rw [fields?_bytes, fields?_bytes] at hbytes
  refine Item.eq_of_mem_sweep hx hy (eq_of_read word?_word haddress.1) ?_
  by_cases hunknown : x.isUnknown
  · by_cases hunknown' : y.isUnknown
    · rw [Item.bytes_of_isUnknown hunknown, Item.bytes_of_isUnknown hunknown', eq_of_read byte?_byte hopcode.1]
    · rw [if_pos hunknown, if_neg hunknown'] at hbytes
      cases hbytes
  · by_cases hunknown' : y.isUnknown
    · rw [if_neg hunknown, if_pos hunknown'] at hbytes
      cases hbytes
    · rw [if_neg hunknown, if_neg hunknown', Option.some.injEq, List.cons.injEq] at hbytes
      exact eq_of_read bytes?_bytes hbytes.1

theorem items_eq_of_sameMembers
    (h : List.Forall₂ SameMembers ((sweep base buffer).map item) ((sweep base' buffer').map item)) :
    sweep base buffer = sweep base' buffer' := by
  rw [List.forall₂_map_left_iff, List.forall₂_map_right_iff, List.forall₂_iff_zip] at h
  obtain ⟨hlen, hall⟩ := h
  have heq : List.Forall₂ (· = ·) (sweep base buffer) (sweep base' buffer') := by
    rw [List.forall₂_iff_zip]
    refine ⟨hlen, fun {x y} hpair => ?_⟩
    obtain ⟨hx, hy⟩ := List.of_mem_zip hpair
    exact eq_of_sameMembers hx hy (hall hpair)
  rwa [List.forall₂_eq_eq_eq] at heq

/-- Texts of items tell them apart, whatever the spacings are. -/
theorem map_item_eq_of_render_eq {items items' : List Item} {spacing spacing' : Json.Spacing}
    (hspacing : spacing.Blank) (hspacing' : spacing'.Blank)
    (h : (Json.array (items.map item)).render spacing = (Json.array (items'.map item)).render spacing') :
    items.map item = items'.map item := by
  have hread (items : List Item) {spacing : Json.Spacing} (hspacing : spacing.Blank) :
      Json.read? ((Json.array (items.map item)).render spacing ++ "") = some (.array (items.map item)) := by
    refine Json.read?_render hspacing (.array _ fun j hj => ?_) nofun
    obtain ⟨x, -, rfl⟩ := List.mem_map.mp hj
    exact natural_item x
  have hsame : some (Json.array (items.map item)) = some (.array (items'.map item)) := by
    rw [← hread items hspacing, h, hread items' hspacing']
  exact Json.array.inj (Option.some.inj hsame)

/-- Trailing bytes stand within the buffer. -/
theorem offset_lt_of_trailing {options : Options} {t : Trailing}
    (h : (Disassembly.ofBytes options buffer).trailing = some t) : t.offset < buffer.length := by
  obtain ⟨format, limit, decode⟩ := options
  cases format with
  | raw base => cases h
  | xex =>
    have hread : (LoadFile.read limit buffer).trailing? = some t := h
    exact Nat.lt_of_lt_of_le (LoadFile.offset_lt_of_trailing? hread) (LoadFile.encode_read_prefix limit buffer).length_le

/-- Every segment and all trailing bytes of a buffer that has 64-bit offsets come back from what is written of
them, and no two lists of decoded items are written alike, be it as texts or member by member. -/
theorem interchange_lossless :
    (∀ options buffer, buffer.length ≤ Word.offsetBound →
      (∀ s ∈ (Disassembly.ofBytes options buffer).segments, RoundTrips segment segment? s.segment) ∧
        ∀ t ∈ (Disassembly.ofBytes options buffer).trailing, RoundTrips trailing trailing? t) ∧
      (∀ base base' buffer buffer',
        List.Forall₂ SameMembers ((sweep base buffer).map item) ((sweep base' buffer').map item) →
          sweep base buffer = sweep base' buffer') ∧
      ∀ base base' buffer buffer' (spacing spacing' : Json.Spacing), spacing.Blank → spacing'.Blank →
        (Json.array ((sweep base buffer).map item)).render spacing =
            (Json.array ((sweep base' buffer').map item)).render spacing' →
          sweep base buffer = sweep base' buffer' := by
  refine ⟨fun options buffer hbound => ⟨fun s _ => roundTrips_segment s.segment, fun t ht => ?_⟩,
    fun _ _ _ _ => items_eq_of_sameMembers, fun base base' buffer buffer' spacing spacing' hspacing hspacing' h => ?_⟩
  · exact roundTrips_trailing (Nat.lt_of_lt_of_le (offset_lt_of_trailing ht) hbound)
  · refine items_eq_of_sameMembers ?_
    rw [map_item_eq_of_render_eq hspacing hspacing' h]
    exact List.forall₂_same.mpr fun _ _ _ => rfl

/-- A segment with a residue behind it. The long and the short form of `LDA $05` have operands that are written alike,
and yet their items are not; without items there is one text, whatever the address. -/
theorem interchange_lossless_residue :
    (RoundTrips segment segment? ⟨0x2000, 0x2001, [0xA9, 0x05]⟩ ∧ RoundTrips trailing trailing? ⟨6, [0x01]⟩) ∧
      (operand (.word 0x0005) = operand (.byte 0x05) ∧
        ¬ List.Forall₂ SameMembers ((sweep 0x2000 [0xAD, 0x05, 0x00]).map item)
          ((sweep 0x2000 [0xA5, 0x05]).map item)) ∧
      sweep 0x1000 [] = sweep 0x2000 [] := by
  obtain ⟨hback, hmembers, htexts⟩ := interchange_lossless
  obtain ⟨hsegments, htrailing⟩ :=
    hback Options.standard [0x00, 0x20, 0x01, 0x20, 0xA9, 0x05, 0x01] (by decide)
  have hlists : sweep 0x2000 [0xAD, 0x05, 0x00] ≠ sweep 0x2000 [0xA5, 0x05] := by decide +kernel
  refine ⟨⟨?_, ?_⟩, ⟨rfl, fun h => hlists (hmembers _ _ _ _ h)⟩, ?_⟩
  · exact hsegments ⟨⟨0x2000, 0x2001, [0xA9, 0x05]⟩, sweep 0x2000 [0xA9, 0x05]⟩ (by decide +kernel)
  · exact htrailing ⟨6, [0x01]⟩ (by decide +kernel)
  · exact htexts 0x1000 0x2000 [] [] .compact .indented Json.blank_compact Json.blank_indented rfl

end Interchange
end Disasm6502
