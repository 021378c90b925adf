import Disasm6502.Numeral
import Disasm6502.Proofs.Hex
import Disasm6502.Proofs.Text

/-!
# Reading numerals

Digits are read as the number that they stand for, as long as it stays below the bound; so a number that was
written reads back, in decimal and behind the mark of an address.
-/
namespace Disasm6502.Numeral

/-- The number that digits stand for, behind those that make `value`. -/
def valueFrom (radix value : Nat) (text : List Char) : Nat :=
  text.foldl (fun n c => n * radix + (digit? radix c).getD 0) value

theorem le_valueFrom {radix : Nat} (hradix : 0 < radix) (value : Nat) (text : List Char) :
    value ≤ valueFrom radix value text := by
  induction text generalizing value with
  | nil => exact Nat.le_refl value
  | cons c rest ih =>
    calc value ≤ value * radix := Nat.le_mul_of_pos_right value hradix
      _ ≤ value * radix + (digit? radix c).getD 0 := Nat.le_add_right ..
      _ ≤ valueFrom radix value (c :: rest) := ih _

/-- Digits are read exactly if the whole number is below the bound: no part of it is larger. -/
theorem readDigits_eq_ok_iff {radix bound value n : Nat} {text : List Char} (hradix : 0 < radix)
    (hvalue : value < bound) : readDigits radix bound value text = .ok n ↔
      (∀ c ∈ text, (digit? radix c).isSome) ∧ valueFrom radix value text = n ∧ n < bound := by
  induction text generalizing value with
  | nil =>
    rw [readDigits, Except.ok.injEq]
    exact ⟨fun h => ⟨nofun, h, h ▸ hvalue⟩, fun ⟨_, h, _⟩ => h⟩
  | cons c rest ih =>
    rw [List.forall_mem_cons, readDigits]
    cases hdigit : digit? radix c with
    | none => simp
    | some d =>
      have hstep : valueFrom radix value (c :: rest) = valueFrom radix (value * radix + d) rest := by
        rw [valueFrom, List.foldl_cons, hdigit]
        rfl
      rw [hstep]
      by_cases hd : value * radix + d < bound
      · simp [hd, ih hd]
      · have hlarge := le_valueFrom hradix (value * radix + d) rest
        simp only [if_neg hd, reduceCtorEq, false_iff, not_and]
        omega

theorem read_eq_readDigits {radix bound : Nat} {text : List Char} (htext : text ≠ [])
    (hdigits : ∀ c ∈ text, (digit? radix c).isSome) :
    read radix bound text = readDigits radix bound 0 text := by
  have hsign : digit? radix '+' = none := rfl
  unfold read
  split
  · exact absurd rfl htext
  · have hplus := hdigits '+' (by simp)
    rw [hsign] at hplus
    cases hplus
  · have hplus := hdigits '+' (by simp)
    rw [hsign] at hplus
    cases hplus
  · rfl

theorem read_lt {radix bound n : Nat} {text : List Char} (hradix : 0 < radix) (hbound : 0 < bound)
    (h : read radix bound text = .ok n) : n < bound := by
  unfold read at h
  split at h
  · cases h
  · cases h
  · exact ((readDigits_eq_ok_iff hradix hbound).mp h).2.2
  · exact ((readDigits_eq_ok_iff hradix hbound).mp h).2.2

/-- Digits of a number below the bound are read as that number. -/
theorem read_of_digits {radix bound n : Nat} {text : List Char} (hradix : 0 < radix) (htext : text ≠ [])
    (hdigits : ∀ c ∈ text, (digit? radix c).isSome) (hvalue : valueFrom radix 0 text = n) (hn : n < bound) :
    read radix bound text = .ok n := by
  rw [read_eq_readDigits htext hdigits]
  exact (readDigits_eq_ok_iff hradix (Nat.lt_of_le_of_lt (Nat.zero_le n) hn)).mpr ⟨hdigits, hvalue, hn⟩

theorem digit?_decimal {c : Char} (h : c.isDigit) : digit? 10 c = some (c.toNat - '0'.toNat) := by
  rw [Char.isDigit_iff_toNat] at h
  have hdigit : '0' ≤ c ∧ c ≤ '9' := h
  have hvalue : c.toNat - '0'.toNat < 10 := by
    have hnine : c.toNat ≤ '0'.toNat + 9 := h.2
    omega
  rw [digit?, Hex.value?, if_pos hdigit, Option.filter_some, if_pos (by simpa using hvalue)]

theorem valueFrom_decimal {value : Nat} {text : List Char} (h : ∀ c ∈ text, c.isDigit) :
    valueFrom 10 value text = Nat.ofDigitChars 10 text value := by
  induction text generalizing value with
  | nil => rfl
  | cons c rest ih =>
    obtain ⟨hc, hrest⟩ := List.forall_mem_cons.mp h
    rw [Nat.ofDigitChars_cons, ← ih hrest, Nat.mul_comm 10 value, valueFrom, List.foldl_cons, digit?_decimal hc]
    rfl

/-- A count that was written reads back. -/
theorem readCount_toString {n : Nat} (h : n < UInt64.size) : readCount (toString n) = .ok n := by
  have hdigits : ∀ c ∈ (toString n).toList, c.isDigit := fun _ => isDigit_of_mem_toString
  have htext : (toString n).toList ≠ [] := by
    obtain ⟨c, digits, htext, -⟩ := exists_toString_cons n
    rw [htext]
    exact List.cons_ne_nil c digits
  refine read_of_digits (by decide) htext (fun c hc => ?_) ?_ h
  · rw [digit?_decimal (hdigits c hc)]
    rfl
  · rw [valueFrom_decimal hdigits, ofDigitChars_toString]

theorem readCount_lt {text : String} {n : Nat} (h : readCount text = .ok n) : n < UInt64.size :=
  read_lt (by decide) (by decide) h

theorem digit?_hex (c : Char) : digit? 16 c = Hex.value? c := by
  unfold digit?
  cases h : Hex.value? c with
  | none => rfl
  | some n => rw [Option.filter_some, if_pos (by simpa using Hex.lt_of_value? h)]

theorem valueFrom_hex (text : List Char) : valueFrom 16 0 text = Hex.ofDigits text := by
  simp only [valueFrom, Hex.ofDigits, digit?_hex, Nat.mul_comm]

/-- A word that was written reads back, whatever it was padded to. -/
theorem read_upper (width : Nat) (w : UInt16) :
    read 16 UInt16.size (Hex.upper width w.toNat).toList = .ok w.toNat := by
  have htext : (Hex.upper width w.toNat).toList ≠ [] := by
    refine List.ne_nil_of_length_pos ?_
    rw [Hex.length_upper, Hex.digitCount]
    omega
  have hdigits : ∀ c ∈ (Hex.upper width w.toNat).toList, (digit? 16 c).isSome := by
    intro c hc
    rw [digit?_hex]
    exact Hex.isSome_value?_of_mem_upper hc
  have hvalue : valueFrom 16 0 (Hex.upper width w.toNat).toList = w.toNat := by
    rw [valueFrom_hex, Hex.ofDigits_upper]
  exact read_of_digits (by decide) htext hdigits hvalue w.toNat_lt

/-- An address that was written reads back from behind its mark. -/
theorem readAddress_upper (w : UInt16) : readAddress ("$" ++ Hex.upper 4 w.toNat) = .ok w := by
  have hunmark : unmark ("$" ++ Hex.upper 4 w.toNat).toList = (Hex.upper 4 w.toNat).toList := by
    simp [unmark]
  rw [readAddress, hunmark, read_upper]
  exact congrArg Except.ok UInt16.ofNat_toNat

end Disasm6502.Numeral
