import Disasm6502.Format
import Disasm6502.Proofs.Numeral

/-!
# The language of addresses

An address is typed as digits of either case, with a plus sign and a mark in front or without. These texts are
read as the words that they stand for, and everything else is refused, be it a second mark or a number that is
no word. The base of an image is shown in a form that reads back.
-/
namespace Disasm6502.Numeral

def digitValues : List (Char × Nat) :=
  "0123456789abcdef".toList.zipIdx ++ "ABCDEF".toList.zipIdx 10

/-- One or more digits and the number that they stand for. -/
inductive Spells : List Char → Nat → Prop
  | one {c : Char} {d : Nat} (digit : (c, d) ∈ digitValues) : Spells [c] d
  | more {text : List Char} {n : Nat} {c : Char} {d : Nat} (front : Spells text n)
      (digit : (c, d) ∈ digitValues) : Spells (text ++ [c]) (16 * n + d)

/-- Digits, with a plus sign in front or without. -/
def IsNumeral (text : List Char) (n : Nat) : Prop :=
  ∃ sign ∈ ["", "+"], ∃ digits, Spells digits n ∧ text = sign.toList ++ digits

/-- A numeral, with a mark in front or without; its value may be too large for a word. -/
def IsAddress (text : String) (n : Nat) : Prop :=
  ∃ mark ∈ ["", "$", "0x", "0X"], ∃ numeral, IsNumeral numeral n ∧ text.toList = mark.toList ++ numeral

theorem value?_of_mem_digitValues : ∀ p ∈ digitValues, Hex.value? p.1 = some p.2 := by decide

theorem mem_digitValues_of_value? {c : Char} {d : Nat} (h : Hex.value? c = some d) : (c, d) ∈ digitValues := by
  have hsmall : c.toNat < 'f'.toNat + 1 := by
    have hlast {last : Char} (hc : c ≤ last) (hf : last.toNat ≤ 'f'.toNat) : c.toNat < 'f'.toNat + 1 :=
      Nat.lt_succ_of_le (Nat.le_trans hc hf)
    unfold Hex.value? at h
    split at h
    · rename_i hc
      exact hlast hc.2 (by decide)
    split at h
    · rename_i hc
      exact hlast hc.2 (by decide)
    split at h
    · rename_i hc
      exact hlast hc.2 (by decide)
    · cases h
  -- No character behind the last digit is one, and the table can be gone through up to it.
  have hall : ∀ n < 'f'.toNat + 1, ∀ d ∈ Hex.value? (Char.ofNat n), (Char.ofNat n, d) ∈ digitValues := by
    decide
  have hc := hall c.toNat hsmall d
  rw [Char.ofNat_toNat] at hc
  exact hc h

theorem mem_digitValues_iff {c : Char} {d : Nat} : (c, d) ∈ digitValues ↔ digit? 16 c = some d := by
  rw [digit?_hex]
  exact ⟨value?_of_mem_digitValues (c, d), mem_digitValues_of_value?⟩

theorem valueFrom_cons {value d : Nat} {c : Char} {rest : List Char} (h : digit? 16 c = some d) :
    valueFrom 16 value (c :: rest) = valueFrom 16 (16 * value + d) rest := by
  rw [valueFrom, List.foldl_cons, h, Nat.mul_comm]
  rfl

theorem Spells.append {text digits : List Char} {n : Nat} (h : Spells text n)
    (hdigits : ∀ c ∈ digits, (digit? 16 c).isSome) : Spells (text ++ digits) (valueFrom 16 n digits) := by
  induction digits generalizing text n with
  | nil => rwa [List.append_nil]
  | cons c rest ih =>
    obtain ⟨hc, hrest⟩ := List.forall_mem_cons.mp hdigits
    obtain ⟨d, hd⟩ := Option.isSome_iff_exists.mp hc
    rw [valueFrom_cons hd, List.append_cons]
    exact ih (h.more (mem_digitValues_iff.mpr hd)) hrest

/-- Digits spell the number that they are read as. -/
theorem spells_iff {text : List Char} {n : Nat} :
    Spells text n ↔ text ≠ [] ∧ (∀ c ∈ text, (digit? 16 c).isSome) ∧ valueFrom 16 0 text = n := by
  constructor
  · intro h
    induction h with
    | one digit =>
      have hd := mem_digitValues_iff.mp digit
      simp [valueFrom, hd]
    | more front digit ih =>
      obtain ⟨-, hdigits, rfl⟩ := ih
      have hd := mem_digitValues_iff.mp digit
      refine ⟨by simp, ?_, ?_⟩
      · intro c hc
        rcases List.mem_append.mp hc with hfront | hlast
        · exact hdigits c hfront
        · rw [List.mem_singleton.mp hlast, hd]
          rfl
      · rw [valueFrom, List.foldl_append]
        exact valueFrom_cons hd
  · rintro ⟨htext, hdigits, hvalue⟩
    cases text with
    | nil => exact absurd rfl htext
    | cons c rest =>
      obtain ⟨hc, hrest⟩ := List.forall_mem_cons.mp hdigits
      obtain ⟨d, hd⟩ := Option.isSome_iff_exists.mp hc
      have hspells := (Spells.one (mem_digitValues_iff.mpr hd)).append hrest
      rw [valueFrom_cons hd, Nat.mul_zero, Nat.zero_add] at hvalue
      rwa [hvalue] at hspells

theorem Spells.isSome {text : List Char} {n : Nat} (h : Spells text n) : ∀ c ∈ text, (digit? 16 c).isSome :=
  (spells_iff.mp h).2.1

theorem isNumeral_iff {text : List Char} {n : Nat} :
    IsNumeral text n ↔ Spells text n ∨ ∃ digits, Spells digits n ∧ text = '+' :: digits := by
  simp [IsNumeral]

/-- The numerals below the bound are read, each as its value, and no other text is. -/
theorem read_eq_ok_iff {bound n : Nat} {text : List Char} (hbound : 0 < bound) :
    read 16 bound text = .ok n ↔ n < bound ∧ IsNumeral text n := by
  have hread {digits : List Char} (hdigits : digits ≠ []) :
      readDigits 16 bound 0 digits = .ok n ↔ n < bound ∧ Spells digits n := by
    rw [readDigits_eq_ok_iff (by decide) hbound, spells_iff]
    exact ⟨fun ⟨hall, hvalue, hn⟩ => ⟨hn, hdigits, hall, hvalue⟩,
      fun ⟨hn, _, hall, hvalue⟩ => ⟨hall, hvalue, hn⟩⟩
  have hempty : ¬ Spells [] n := fun h => (spells_iff.mp h).1 rfl
  have hplus (rest : List Char) : ¬ Spells ('+' :: rest) n := by
    intro h
    cases h.isSome '+' List.mem_cons_self
  rw [isNumeral_iff]
  unfold read
  split
  · simp [hempty]
  · simp [hempty, hplus]
  · rename_i digits hdigits
    rw [hread fun h => hdigits (h ▸ rfl)]
    simp [hplus]
  · rename_i hne _ hunsigned
    rw [hread hne]
    have hnone : ¬ ∃ digits, Spells digits n ∧ text = '+' :: digits :=
      fun ⟨digits, _, hplus⟩ => hunsigned digits hplus
    simp only [hnone, or_false]

theorem exists_mark (text : List Char) :
    ∃ mark ∈ ["", "$", "0x", "0X"], text = mark.toList ++ unmark text := by
  unfold unmark
  split
  · exact ⟨"$", by simp, rfl⟩
  · exact ⟨"0x", by simp, rfl⟩
  · exact ⟨"0X", by simp, rfl⟩
  · exact ⟨"", by simp, rfl⟩

/-- A numeral carries no mark. -/
theorem IsNumeral.unmark_eq {text : List Char} {n : Nat} (h : IsNumeral text n) : unmark text = text := by
  have hfirst {c : Char} {rest : List Char} (htext : text = c :: rest) (hc : c ≠ '+') :
      ∀ d ∈ text, (digit? 16 d).isSome := by
    rcases isNumeral_iff.mp h with hdigits | ⟨digits, -, hplus⟩
    · exact hdigits.isSome
    · rw [htext] at hplus
      exact absurd (List.cons.inj hplus).1 hc
  unfold unmark
  split
  · cases hfirst rfl (by decide) '$' (by simp)
  · cases hfirst rfl (by decide) 'x' (by simp)
  · cases hfirst rfl (by decide) 'X' (by simp)
  · rfl

theorem isAddress_iff {text : String} {n : Nat} : IsAddress text n ↔ IsNumeral (unmark text.toList) n := by
  constructor
  · rintro ⟨mark, hmark, numeral, hnumeral, htext⟩
    have hunmark : unmark text.toList = numeral := by
      rw [htext]
      simp only [List.mem_cons, List.not_mem_nil, or_false] at hmark
      rcases hmark with rfl | rfl | rfl | rfl
      · exact hnumeral.unmark_eq
      · rfl
      · rfl
      · rfl
    rwa [hunmark]
  · intro h
    obtain ⟨mark, hmark, htext⟩ := exists_mark text.toList
    exact ⟨mark, hmark, _, h, htext⟩

/-- The addresses of words are read, and no other text is. -/
theorem readAddress_eq_ok_iff {text : String} {w : UInt16} : readAddress text = .ok w ↔ IsAddress text w.toNat := by
  have hread {n : Nat} : read 16 UInt16.size (unmark text.toList) = .ok n ↔ n < UInt16.size ∧ IsAddress text n := by
    rw [read_eq_ok_iff (by decide), isAddress_iff]
  have hword : IsAddress text w.toNat ↔ read 16 UInt16.size (unmark text.toList) = .ok w.toNat := by
    rw [hread]
    exact ⟨fun h => ⟨w.toNat_lt_size, h⟩, And.right⟩
  rw [hword, readAddress]
  cases h : read 16 UInt16.size (unmark text.toList) with
  | ok n =>
    have hn : (UInt16.ofNat n).toNat = n := UInt16.toNat_ofNat_of_lt (hread.mp h).1
    simp only [Except.ok.injEq, ← UInt16.toNat_inj, hn]
  | error flaw => simp only [reduceCtorEq]

theorem readAddress_eq_error_iff {text : String} :
    (∃ flaw, readAddress text = .error flaw) ↔ ∀ n, IsAddress text n → UInt16.size ≤ n := by
  cases h : readAddress text with
  | ok w =>
    have haddress := readAddress_eq_ok_iff.mp h
    simp only [reduceCtorEq, exists_false, false_iff]
    intro hall
    exact absurd (hall _ haddress) (Nat.not_le_of_lt w.toNat_lt_size)
  | error flaw =>
    refine iff_of_true ⟨flaw, rfl⟩ fun n hn => Nat.le_of_not_lt fun hlt => ?_
    have hw : (UInt16.ofNat n).toNat = n := UInt16.toNat_ofNat_of_lt hlt
    rw [← hw] at hn
    cases h.symm.trans (readAddress_eq_ok_iff.mpr hn)

/-- The texts of words, marked or not and signed or not, are what is read as an address; every other text is
refused. The base of an image is shown behind a mark in four digits that read back. -/
theorem address_language :
    (∀ text w, readAddress text = .ok w ↔ IsAddress text w.toNat) ∧
      (∀ text, (∃ flaw, readAddress text = .error flaw) ↔ ∀ n, IsAddress text n → UInt16.size ≤ n) ∧
      ∀ base, ∃ digits : String, (Format.raw base).text = "Raw @ $" ++ digits ∧ digits.length = 4 ∧
        (∀ c ∈ digits.toList, c ∈ "0123456789ABCDEF".toList) ∧ readAddress ("$" ++ digits) = .ok base := by
  refine ⟨fun _ _ => readAddress_eq_ok_iff, fun _ => readAddress_eq_error_iff, fun base => ?_⟩
  exact ⟨Hex.upper 4 base.toNat, rfl, Hex.length_upper_word base, fun _ => Hex.mem_of_mem_upper, readAddress_upper base⟩

/-- A mark, a sign, zeros and both cases; two marks, which no text of a word has; and one above the last word. -/
theorem address_language_marks :
    (readAddress "0x+00fF" = .ok 0xFF ∧ IsAddress "0x+00fF" 0xFF) ∧
      (∀ n, IsAddress "$0x10" n → UInt16.size ≤ n) ∧ IsAddress "$10000" 0x10000 ∧ UInt16.size ≤ 0x10000 := by
  have hsigned : readAddress "0x+00fF" = .ok 0xFF := by rfl
  have htwo : readAddress "$0x10" = .error .invalidDigit := by rfl
  have hlarge : readAddress "$10000" = .error .tooLarge := by rfl
  have hdigits : Spells ['1', '0', '0', '0', '0'] 0x10000 :=
    spells_iff.mpr ⟨by decide, by simp [digit?_hex, Hex.value?], by decide⟩
  have haddress : IsAddress "$10000" 0x10000 :=
    ⟨"$", by decide, _, isNumeral_iff.mpr (.inl hdigits), by rfl⟩
  obtain ⟨hread, hrefused, -⟩ := address_language
  exact ⟨⟨hsigned, (hread "0x+00fF" 0xFF).mp hsigned⟩, (hrefused "$0x10").mp ⟨_, htwo⟩, haddress,
    (hrefused "$10000").mp ⟨_, hlarge⟩ 0x10000 haddress⟩

end Disasm6502.Numeral
