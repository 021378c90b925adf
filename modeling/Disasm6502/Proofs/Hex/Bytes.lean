import Disasm6502.Proofs.Hex
import Disasm6502.Proofs.Text

/-!
# Reading written bytes back

A byte is two digits. Bytes without a gap are cut off the text where the digits end; bytes with a blank
between them, where no further digit follows a blank. What is cut off is the text of one list of bytes.
-/
namespace Disasm6502.Hex

def isDigit (c : Char) : Bool :=
  (value? c).isSome

section Numbers

variable {rest rest' : List Char}

theorem upper_byte_append_inj {b c : UInt8}
    (h : (upper 2 b.toNat).toList ++ rest = (upper 2 c.toNat).toList ++ rest') : b = c ∧ rest = rest' := by
  obtain ⟨hdigits, hrest⟩ := List.append_inj h (by rw [length_upper_byte, length_upper_byte])
  exact ⟨UInt8.toNat_inj.mp (upper_inj.mp (String.toList_inj.mp hdigits)), hrest⟩

theorem upper_word_append_inj {v w : UInt16}
    (h : (upper 4 v.toNat).toList ++ rest = (upper 4 w.toNat).toList ++ rest') : v = w ∧ rest = rest' := by
  obtain ⟨hdigits, hrest⟩ := List.append_inj h (by rw [length_upper_word, length_upper_word])
  exact ⟨UInt16.toNat_inj.mp (upper_inj.mp (String.toList_inj.mp hdigits)), hrest⟩

theorem lower_byte_append_inj {b c : UInt8}
    (h : (lower 2 b.toNat).toList ++ rest = (lower 2 c.toNat).toList ++ rest') : b = c ∧ rest = rest' := by
  obtain ⟨hdigits, hrest⟩ := List.append_inj h (by rw [length_lower_byte, length_lower_byte])
  refine ⟨UInt8.toNat_inj.mp ?_, hrest⟩
  rw [← ofDigits_lower 2 b.toNat, hdigits, ofDigits_lower]

/-- A word starts with a digit. -/
theorem exists_upper_word (w : UInt16) : ∃ c digits, (upper 4 w.toNat).toList = c :: digits ∧ isDigit c := by
  cases hdigits : (upper 4 w.toNat).toList with
  | nil =>
    have hlen := length_upper_word w
    rw [hdigits] at hlen
    cases hlen
  | cons c digits =>
    exact ⟨c, digits, rfl, isSome_value?_of_mem_upper (hdigits ▸ List.mem_cons_self)⟩

end Numbers

theorem toList_packed_cons (b : UInt8) (bytes : List UInt8) :
    (packed (b :: bytes)).toList = (lower 2 b.toNat).toList ++ (packed bytes).toList := by
  simp [packed]

theorem isDigit_of_mem_packed {bytes : List UInt8} {c : Char} (h : c ∈ (packed bytes).toList) : isDigit c := by
  induction bytes with
  | nil => simp [packed] at h
  | cons b bytes ih =>
    rw [toList_packed_cons] at h
    rcases List.mem_append.mp h with hfirst | hrest
    · exact isSome_value?_of_mem_lower hfirst
    · exact ih hrest

theorem toList_packed_inj {bytes bytes' : List UInt8} (h : (packed bytes).toList = (packed bytes').toList) :
    bytes = bytes' := by
  have hpos : ∀ (b : UInt8) bytes, (packed (b :: bytes)).toList ≠ [] := by
    intro b bytes hnil
    rw [toList_packed_cons] at hnil
    have hlen := length_lower_byte b
    rw [(List.append_eq_nil_iff.mp hnil).1] at hlen
    cases hlen
  induction bytes generalizing bytes' with
  | nil =>
    cases bytes' with
    | nil => rfl
    | cons b' bytes' => exact absurd h.symm (hpos b' bytes')
  | cons b bytes ih =>
    cases bytes' with
    | nil => exact absurd h (hpos b bytes)
    | cons b' bytes' =>
      rw [toList_packed_cons, toList_packed_cons] at h
      obtain ⟨rfl, hrest⟩ := lower_byte_append_inj h
      rw [ih hrest]

theorem packed_inj {bytes bytes' : List UInt8} : packed bytes = packed bytes' ↔ bytes = bytes' := by
  constructor
  · intro h
    exact toList_packed_inj (congrArg String.toList h)
  · intro h
    rw [h]

theorem packed_append_inj {bytes bytes' : List UInt8} {rest rest' : List Char} (hrest : StopsAt isDigit rest)
    (hrest' : StopsAt isDigit rest') (h : (packed bytes).toList ++ rest = (packed bytes').toList ++ rest') :
    bytes = bytes' ∧ rest = rest' := by
  obtain ⟨hbytes, hbehind⟩ := word_append_inj (fun _ => isDigit_of_mem_packed)
    (fun _ => isDigit_of_mem_packed) hrest hrest' h
  exact ⟨toList_packed_inj hbytes, hbehind⟩

theorem toList_spaced_singleton (b : UInt8) : (spaced [b]).toList = (upper 2 b.toNat).toList := by
  simp [spaced]

theorem toList_spaced_cons_cons (b c : UInt8) (bytes : List UInt8) :
    (spaced (b :: c :: bytes)).toList = (upper 2 b.toNat).toList ++ ' ' :: (spaced (c :: bytes)).toList := by
  simp [spaced]

theorem exists_spaced_cons (b : UInt8) (bytes : List UInt8) :
    ∃ c digits, (spaced (b :: bytes)).toList = c :: digits ∧ isDigit c := by
  obtain ⟨rest, hrest⟩ : ∃ rest, (spaced (b :: bytes)).toList = (upper 2 b.toNat).toList ++ rest := by
    cases bytes with
    | nil => exact ⟨[], by rw [toList_spaced_singleton, List.append_nil]⟩
    | cons c bytes => exact ⟨_, toList_spaced_cons_cons b c bytes⟩
  cases hdigits : (upper 2 b.toNat).toList with
  | nil =>
    have hlen := length_upper_byte b
    rw [hdigits] at hlen
    cases hlen
  | cons c digits =>
    rw [hdigits] at hrest
    exact ⟨c, digits ++ rest, hrest, isSome_value?_of_mem_upper (hdigits ▸ List.mem_cons_self)⟩

/-- No blank with a digit behind it leads, so a row of bytes does not go on. -/
def EndsRow (rest : List Char) : Prop :=
  ∀ c more, rest = ' ' :: c :: more → isDigit c = false

theorem endsRow_nil : EndsRow [] :=
  nofun

theorem endsRow_cons {c d : Char} {rest : List Char} (h : c = ' ' → isDigit d = false) :
    EndsRow (c :: d :: rest) := by
  intro d' more heq
  cases heq
  exact h rfl

theorem not_endsRow_spaced (b : UInt8) (bytes : List UInt8) (rest : List Char) :
    ¬ EndsRow (' ' :: (spaced (b :: bytes)).toList ++ rest) := by
  obtain ⟨c, digits, hdigits, hc⟩ := exists_spaced_cons b bytes
  intro h
  have hno := h c (digits ++ rest) (by rw [hdigits]; rfl)
  exact Bool.false_ne_true (hno.symm.trans hc)

/-- A row of bytes is read off as far as it goes. -/
theorem spaced_append_inj {bytes bytes' : List UInt8} {rest rest' : List Char} (hbytes : bytes ≠ [])
    (hbytes' : bytes' ≠ []) (hrest : EndsRow rest) (hrest' : EndsRow rest')
    (h : (spaced bytes).toList ++ rest = (spaced bytes').toList ++ rest') : bytes = bytes' ∧ rest = rest' := by
  induction bytes generalizing bytes' with
  | nil => exact absurd rfl hbytes
  | cons b bytes ih =>
    obtain ⟨b', bytes', rfl⟩ := List.exists_cons_of_ne_nil hbytes'
    rcases bytes with _ | ⟨c, bytes⟩ <;> rcases bytes' with _ | ⟨c', bytes'⟩
    · rw [toList_spaced_singleton, toList_spaced_singleton] at h
      obtain ⟨rfl, hbehind⟩ := upper_byte_append_inj h
      exact ⟨rfl, hbehind⟩
    · rw [toList_spaced_singleton, toList_spaced_cons_cons, List.append_assoc] at h
      obtain ⟨-, hbehind⟩ := upper_byte_append_inj h
      exact absurd (hbehind ▸ hrest) (not_endsRow_spaced c' bytes' rest')
    · rw [toList_spaced_singleton, toList_spaced_cons_cons, List.append_assoc] at h
      obtain ⟨-, hbehind⟩ := upper_byte_append_inj h
      exact absurd (hbehind ▸ hrest') (not_endsRow_spaced c bytes rest)
    · rw [toList_spaced_cons_cons, toList_spaced_cons_cons, List.append_assoc, List.append_assoc] at h
      obtain ⟨rfl, hbehind⟩ := upper_byte_append_inj h
      obtain ⟨hmore, hbehind⟩ := ih (List.cons_ne_nil c bytes) (List.cons_ne_nil c' bytes')
        (List.cons.inj hbehind).2
      exact ⟨congrArg (b :: ·) hmore, hbehind⟩

end Disasm6502.Hex
