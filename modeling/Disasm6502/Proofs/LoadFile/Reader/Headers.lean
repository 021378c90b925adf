import Disasm6502.Proofs.LoadFile.Reader.Runs

/-!
# Words and headers where they stand

What a reader finds out by walking the bytes can be read off the whole buffer at 64-bit offsets. A word is there
where two bytes are left and a header where four are, up to the last offset, and the header behind the markers
decides what a call answers: a call of a reader that is still open answers with a segment or a fault of the header
that is read there, and with nothing only where none is.
-/
namespace Disasm6502

/-- The header whose two words are read from `offset` on. -/
def Header.read? (bytes : List UInt8) (offset : Nat) : Option Header := do
  let start ← Word.read? bytes offset
  let last ← Word.read? bytes (offset + 2)
  some { start, last }

/-- The header that an answer comes from. -/
def Reader.headerOf : Except Malformed Segment → Header
  | .ok s => s.header
  | .error m => { start := m.start, last := m.last }

variable {bytes : List UInt8}

section

variable (hbound : bytes.length < Word.offsetBound)
include hbound

theorem Header.read?_eq_some_iff {offset : Nat} {h : Header} :
    Header.read? bytes offset = some h ↔ h.toBytes <+: bytes.drop offset := by
  rw [← Header.words_read_iff hbound]
  cases h with
  | mk start last => simp [Header.read?, Option.bind_eq_some_iff]

theorem Header.read?_eq_none_of_short {offset : Nat} (hshort : bytes.length < offset + Header.size) :
    Header.read? bytes offset = none := by
  have hlast : Word.read? bytes (offset + 2) = none := (Word.read?_eq_none_iff hbound).mpr hshort
  simp [Header.read?, hlast]

/-- Where four bytes are left, both words of a header are there. -/
theorem Header.isSome_words {offset : Nat} (hroom : offset + Header.size ≤ bytes.length) :
    (Word.read? bytes offset).isSome ∧ (Word.read? bytes (offset + 2)).isSome := by
  have hlast : offset + 2 + 2 ≤ bytes.length := hroom
  rw [Word.read?_eq_some_ofBytes hbound (Nat.le_of_add_right_le hlast), Word.read?_eq_some_ofBytes hbound hlast]
  exact ⟨rfl, rfl⟩

/-- The answer of an open reader comes from the header that is read behind the markers. -/
theorem Reader.Called.map_headerOf {r r' : Reader} {answer : Option (Except Malformed Segment)}
    (h : r.Called answer r') (hr : r.Within bytes) (hopen : r.finished = false) :
    answer.map Reader.headerOf = Header.read? bytes r.passMarkers.offset := by
  have hwithin := hr.passMarkers
  cases h with
  | stopped finished => exact nomatch hopen.symm.trans finished
  | @entry e rest unfinished lawful rest_eq =>
    have hheader : e.segment.header.toBytes ++ (e.segment.bytes ++ rest) = r.passMarkers.rest := by
      rw [Reader.passMarkers_of_entry lawful rest_eq]
    rw [(Header.read?_eq_some_iff hbound).mpr ⟨_, hheader.trans hwithin.rest_eq⟩]
    rfl
  | @ending count ending endsIn =>
    have hending : ending.encode = r.passMarkers.rest := by
      rw [Reader.passMarkers_eq endsIn.rest_eq endsIn.le endsIn.greedy]
    have hdrop := hending.trans hwithin.rest_eq
    rcases ending with residue | ⟨header, rest⟩
    · have hlen : residue.length = bytes.length - r.passMarkers.offset := by
        rw [← List.length_drop, ← hdrop]
        rfl
      have hfinal : residue.length < Header.size := endsIn.final
      have hshort : bytes.length < r.passMarkers.offset + Header.size := by omega
      rw [Header.read?_eq_none_of_short hbound hshort]
      rfl
    · rw [(Header.read?_eq_some_iff hbound).mpr ⟨rest, hdrop⟩]
      rfl

end

/-- In a buffer that has 64-bit offsets throughout the word at any offset is the number that its two bytes make, low
byte first, and there is none where fewer than two are left. So both words of a header are there where four bytes
are left, and every call of an open reader answers with the header that they make. A word is the same as at the
front of what remains without the bytes before it. -/
theorem words_read_in_place (hbound : bytes.length < Word.offsetBound) :
    (∀ offset, (Word.read? bytes offset).map UInt16.toNat =
        if h : offset + 2 ≤ bytes.length then
          some ((bytes.get ⟨offset, Nat.lt_of_succ_lt h⟩).toNat + 256 * (bytes.get ⟨offset + 1, h⟩).toNat)
        else none) ∧
      (∀ offset, offset + Header.size ≤ bytes.length →
        (Word.read? bytes offset).isSome ∧ (Word.read? bytes (offset + 2)).isSome) ∧
      (∀ count, ((Reader.ofBytes bytes).after count).finished = false →
        ((Reader.ofBytes bytes).answer count).map Reader.headerOf =
          Header.read? bytes ((Reader.ofBytes bytes).after count).passMarkers.offset) ∧
      (∀ offset, Word.read? bytes offset = Word.read? (bytes.drop offset) 0) := by
  refine ⟨Word.map_toNat_read? hbound, fun offset => Header.isSome_words hbound, fun count hopen => ?_,
    fun offset => (Word.read?_drop hbound offset 0).symm⟩
  have hcall := Reader.called_after (Reader.ofBytes bytes) count
  exact hcall.map_headerOf hbound (Reader.consistent_after bytes count).within hopen

/-- A marker, a backward header and a last byte: the last word, the first offset without one, the last 64-bit
offset, the header that the first call refuses, and the last word again where it stands alone. -/
theorem words_read_in_place_last_offset :
    ([0xFF, 0xFF, 0x00, 0x20, 0xFF, 0x1F, 0x07] : List UInt8).length < Word.offsetBound ∧
      (Word.read? [0xFF, 0xFF, 0x00, 0x20, 0xFF, 0x1F, 0x07] 5).map UInt16.toNat = some 0x071F ∧
      (Word.read? [0xFF, 0xFF, 0x00, 0x20, 0xFF, 0x1F, 0x07] 6).map UInt16.toNat = none ∧
      (Word.read? [0xFF, 0xFF, 0x00, 0x20, 0xFF, 0x1F, 0x07] 18446744073709551615).map UInt16.toNat = none ∧
      (Word.read? [0xFF, 0xFF, 0x00, 0x20, 0xFF, 0x1F, 0x07] (3 + 2)).isSome ∧
      Header.read? [0xFF, 0xFF, 0x00, 0x20, 0xFF, 0x1F, 0x07] 2 = some ⟨0x2000, 0x1FFF⟩ ∧
      Word.read? [0xFF, 0xFF, 0x00, 0x20, 0xFF, 0x1F, 0x07] 5 = Word.read? [0x1F, 0x07] 0 := by
  have hbound : ([0xFF, 0xFF, 0x00, 0x20, 0xFF, 0x1F, 0x07] : List UInt8).length < Word.offsetBound := by decide
  obtain ⟨hword, hwords, hanswer, hdrop⟩ := words_read_in_place hbound
  exact ⟨hbound, hword 5, hword 6, hword 18446744073709551615, (hwords 3 (by decide)).2,
    (hanswer 0 rfl).symm.trans (by decide), hdrop 5⟩

end Disasm6502
