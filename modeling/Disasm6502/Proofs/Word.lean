import Disasm6502.Word

/-!
# Words and their bytes

A word and its two bytes determine each other. Wherever two bytes are left in a buffer that has offsets
throughout, the word that they make is read, and it does not depend on the bytes in front of it.
-/
namespace Disasm6502.Word

theorem toNat_ofBytes (low high : UInt8) :
    (ofBytes low high).toNat = low.toNat + 256 * high.toNat := by
  have hl := low.toNat_lt
  have hh := high.toNat_lt
  simp only [ofBytes, UInt16.toNat_add, UInt16.toNat_mul, UInt8.toNat_toUInt16, UInt16.reduceToNat]
  omega

@[simp] theorem ofBytes_halves (w : UInt16) : ofBytes w.toUInt8 (w / 256).toUInt8 = w := by
  have hw := w.toNat_lt
  apply UInt16.toNat_inj.mp
  rw [toNat_ofBytes]
  simp only [UInt16.toNat_toUInt8, UInt16.toNat_div, UInt16.reduceToNat]
  omega

theorem ofBytes_inj {a b c d : UInt8} : ofBytes a b = ofBytes c d ↔ a = c ∧ b = d := by
  constructor
  · intro h
    have hn := congrArg UInt16.toNat h
    rw [toNat_ofBytes, toNat_ofBytes] at hn
    have ha := a.toNat_lt
    have hc := c.toNat_lt
    exact ⟨UInt8.toNat_inj.mp (by omega), UInt8.toNat_inj.mp (by omega)⟩
  · intro h
    rw [h.1, h.2]

@[simp] theorem toBytes_ofBytes (low high : UInt8) : toBytes (ofBytes low high) = [low, high] := by
  obtain ⟨hl, hh⟩ := ofBytes_inj.mp (ofBytes_halves (ofBytes low high))
  rw [toBytes, hl, hh]

@[simp] theorem length_toBytes (w : UInt16) : (toBytes w).length = 2 := rfl

theorem toBytes_inj {v w : UInt16} : toBytes v = toBytes w ↔ v = w := by
  constructor
  · intro h
    obtain ⟨hl, hh⟩ : v.toUInt8 = w.toUInt8 ∧ (v / 256).toUInt8 = (w / 256).toUInt8 := by
      simpa [toBytes] using h
    rw [← ofBytes_halves v, hl, hh, ofBytes_halves]
  · intro h
    rw [h]

/-- A word is read where its two bytes stand, if its second byte has an offset. -/
theorem read?_eq_some_iff_of_lt {bytes : List UInt8} {offset : Nat} (hoffset : offset + 2 < offsetBound)
    {w : UInt16} : read? bytes offset = some w ↔ toBytes w <+: bytes.drop offset := by
  unfold read?
  rw [if_pos hoffset]
  rcases bytes.drop offset with _ | ⟨low, _ | ⟨high, rest⟩⟩
  · simp [toBytes]
  · simp [toBytes]
  · constructor
    · intro h
      rw [← Option.some.inj h, toBytes_ofBytes]
      exact ⟨rest, rfl⟩
    · intro h
      obtain ⟨behind, h⟩ := h
      cases h
      exact congrArg some (ofBytes_halves w)

/-- In a buffer that has offsets throughout a word is read exactly where its two bytes stand. -/
theorem read?_eq_some_iff {bytes : List UInt8} (hbound : bytes.length < offsetBound) {offset : Nat}
    {w : UInt16} : read? bytes offset = some w ↔ toBytes w <+: bytes.drop offset := by
  by_cases hoffset : offset + 2 < offsetBound
  · exact read?_eq_some_iff_of_lt hoffset
  · have hnone : read? bytes offset = none := if_neg hoffset
    rw [hnone]
    constructor
    · nofun
    · intro h
      have hlen := h.length_le
      rw [length_toBytes, List.length_drop] at hlen
      omega

section

variable {bytes : List UInt8} (hbound : bytes.length < offsetBound)
include hbound

theorem read?_eq_some_ofBytes {offset : Nat} (hroom : offset + 2 ≤ bytes.length) :
    read? bytes offset = some (ofBytes bytes[offset] bytes[offset + 1]) := by
  have hlow : offset < bytes.length := Nat.lt_of_succ_lt hroom
  rw [read?_eq_some_iff hbound, toBytes_ofBytes, List.drop_eq_getElem_cons hlow,
    List.drop_eq_getElem_cons hroom]
  exact List.prefix_append [_, _] _

theorem read?_eq_none_iff {offset : Nat} : read? bytes offset = none ↔ bytes.length < offset + 2 := by
  constructor
  · intro h
    apply Nat.lt_of_not_le
    intro hroom
    rw [read?_eq_some_ofBytes hbound hroom] at h
    cases h
  · intro hshort
    apply Option.eq_none_iff_forall_ne_some.mpr
    intro w h
    have hlen := ((read?_eq_some_iff hbound).mp h).length_le
    rw [length_toBytes, List.length_drop] at hlen
    omega

/-- The word at an offset as a number, in terms of the buffer alone. -/
theorem map_toNat_read? (offset : Nat) :
    (read? bytes offset).map UInt16.toNat =
      if h : offset + 2 ≤ bytes.length then
        some ((bytes.get ⟨offset, Nat.lt_of_succ_lt h⟩).toNat + 256 * (bytes.get ⟨offset + 1, h⟩).toNat)
      else none := by
  split
  · rename_i hroom
    rw [read?_eq_some_ofBytes hbound hroom, Option.map_some, toNat_ofBytes]
    rfl
  · rename_i hshort
    rw [(read?_eq_none_iff hbound).mpr (Nat.lt_of_not_le hshort), Option.map_none]

/-- The bytes in front of a word make no difference to it. -/
theorem read?_drop (first offset : Nat) : read? (bytes.drop first) offset = read? bytes (first + offset) := by
  have hbehind : (bytes.drop first).length < offsetBound := by
    rw [List.length_drop]
    omega
  apply Option.ext
  intro w
  rw [read?_eq_some_iff hbehind, read?_eq_some_iff hbound, List.drop_drop]

end

end Disasm6502.Word
