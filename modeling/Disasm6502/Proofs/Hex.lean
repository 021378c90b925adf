import Disasm6502.Hex
import Mathlib.Algebra.Group.Nat.Defs

/-!
# Reading hexadecimal digits back

Written numbers are digits throughout, and their digits give the number back, whatever it was padded to.
-/
namespace Disasm6502.Hex

/-- The number that digits stand for. -/
def ofDigits (text : List Char) : Nat :=
  text.foldl (fun n c => 16 * n + (value? c).getD 0) 0

theorem value?_digit : ∀ ten ∈ ['A', 'a'], ∀ n < 16, value? (digit ten n) = some n := by
  simp only [List.forall_mem_cons]
  exact ⟨by decide, by decide, nofun⟩

theorem lt_of_value? {c : Char} {n : Nat} (h : value? c = some n) : n < 16 := by
  have hlast : ∀ {last : Char}, c ≤ last → c.toNat ≤ last.toNat := fun h => h
  unfold value? at h
  split at h
  case isTrue hdigit =>
    have hnine : c.toNat ≤ '0'.toNat + 9 := hlast hdigit.2
    cases h
    omega
  case isFalse =>
    split at h
    case isTrue hupper =>
      have hf : c.toNat ≤ 'A'.toNat + 5 := hlast hupper.2
      cases h
      omega
    case isFalse =>
      split at h
      case isTrue hlower =>
        have hf : c.toNat ≤ 'a'.toNat + 5 := hlast hlower.2
        cases h
        omega
      case isFalse => cases h

theorem length_digits (ten : Char) (width n : Nat) : (digits ten width n).length = width := by
  induction width generalizing n with
  | zero => rfl
  | succ width ih => simp [digits, ih]

theorem exists_digit_of_mem_digits {ten : Char} {width n : Nat} {c : Char} (h : c ∈ digits ten width n) :
    ∃ d < 16, c = digit ten d := by
  induction width generalizing n with
  | zero => cases h
  | succ width ih =>
    rcases List.mem_append.mp h with hmem | hlast
    · exact ih hmem
    · exact ⟨n % 16, Nat.mod_lt n (by decide), List.mem_singleton.mp hlast⟩

theorem isSome_value?_of_mem_digits {ten : Char} (hten : ten ∈ ['A', 'a']) {width n : Nat} {c : Char}
    (h : c ∈ digits ten width n) : (value? c).isSome := by
  obtain ⟨d, hd, rfl⟩ := exists_digit_of_mem_digits h
  rw [value?_digit ten hten d hd]
  rfl

theorem ofDigits_digits {ten : Char} (hten : ten ∈ ['A', 'a']) (width n : Nat) :
    ofDigits (digits ten width n) = n % 16 ^ width := by
  induction width generalizing n with
  | zero => rw [Nat.pow_zero, Nat.mod_one]; rfl
  | succ width ih =>
    have hstep : ofDigits (digits ten (width + 1) n) = 16 * ofDigits (digits ten width (n / 16)) + n % 16 := by
      rw [digits, ofDigits, List.foldl_append, List.foldl_cons, List.foldl_nil,
        value?_digit ten hten _ (Nat.mod_lt n (by decide))]
      rfl
    rw [hstep, ih, Nat.pow_succ', Nat.mod_mul, Nat.add_comm]

theorem digitCount_le_iff {width n : Nat} : digitCount n ≤ width + 1 ↔ n < 16 ^ (width + 1) := by
  -- The count is read off the binary logarithm, which has a bound law; four bits make a digit.
  have hpow : 16 ^ (width + 1) = 2 ^ (4 * (width + 1)) := (Nat.pow_mul 2 4 (width + 1)).symm
  rw [hpow, digitCount]
  by_cases hn : n = 0
  · subst hn
    exact ⟨fun _ => Nat.pow_pos (by decide), fun _ => Nat.succ_le_succ (Nat.zero_le width)⟩
  · rw [← Nat.log2_lt hn]
    omega

theorem lt_pow_digitCount (n : Nat) : n < 16 ^ digitCount n :=
  digitCount_le_iff.mp (Nat.le_refl (n.log2 / 4 + 1))

/-- A number reads back from as many digits as it takes, or more. -/
theorem ofDigits_padded {ten : Char} (hten : ten ∈ ['A', 'a']) (width n : Nat) :
    ofDigits (digits ten (max width (digitCount n)) n) = n := by
  rw [ofDigits_digits hten]
  exact Nat.mod_eq_of_lt (Nat.lt_of_lt_of_le (lt_pow_digitCount n)
    (Nat.pow_le_pow_right (by decide) (Nat.le_max_right width _)))

/-- A written number reads back. -/
theorem ofDigits_upper (width n : Nat) : ofDigits (upper width n).toList = n := by
  rw [upper, String.toList_ofList, ofDigits_padded (by decide)]

theorem upper_inj {width m n : Nat} : upper width m = upper width n ↔ m = n := by
  constructor
  · intro h
    rw [← ofDigits_upper width m, h, ofDigits_upper]
  · intro h
    rw [h]

theorem length_upper (width n : Nat) : (upper width n).toList.length = max width (digitCount n) := by
  rw [upper, String.toList_ofList, length_digits]

theorem isSome_value?_of_mem_upper {width n : Nat} {c : Char} (h : c ∈ (upper width n).toList) :
    (value? c).isSome := by
  rw [upper, String.toList_ofList] at h
  exact isSome_value?_of_mem_digits (by decide) h

/-- Letters among the digits are capitals. -/
theorem mem_of_mem_upper {width n : Nat} {c : Char} (h : c ∈ (upper width n).toList) :
    c ∈ "0123456789ABCDEF".toList := by
  have hall : ∀ d < 16, digit 'A' d ∈ "0123456789ABCDEF".toList := by decide
  rw [upper, String.toList_ofList] at h
  obtain ⟨d, hd, rfl⟩ := exists_digit_of_mem_digits h
  exact hall d hd

theorem length_upper_byte (b : UInt8) : (upper 2 b.toNat).toList.length = 2 := by
  rw [length_upper, Nat.max_eq_left (digitCount_le_iff.mpr b.toNat_lt)]

theorem upper_word (w : UInt16) : upper 4 w.toNat = String.ofList (digits 'A' 4 w.toNat) := by
  rw [upper, Nat.max_eq_left (digitCount_le_iff.mpr w.toNat_lt)]

theorem length_upper_word (w : UInt16) : (upper 4 w.toNat).toList.length = 4 := by
  rw [upper_word, String.toList_ofList, length_digits]

theorem ofDigits_lower (width n : Nat) : ofDigits (lower width n).toList = n := by
  rw [lower, String.toList_ofList, ofDigits_padded (by decide)]

theorem isSome_value?_of_mem_lower {width n : Nat} {c : Char} (h : c ∈ (lower width n).toList) :
    (value? c).isSome := by
  rw [lower, String.toList_ofList] at h
  exact isSome_value?_of_mem_digits (by decide) h

theorem length_lower_byte (b : UInt8) : (lower 2 b.toNat).toList.length = 2 := by
  rw [lower, String.toList_ofList, length_digits, Nat.max_eq_left (digitCount_le_iff.mpr b.toNat_lt)]

end Disasm6502.Hex
