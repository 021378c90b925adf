import Disasm6502.Text

/-!
# Cutting text

A word of characters of one kind ends where a character of another kind follows, so a text that starts with
such a word is cut in one way. Decimal numbers are such words, and each is the text of one number.
-/
namespace Disasm6502

/-- No character of the kind leads. -/
def StopsAt (kind : Char → Bool) (rest : List Char) : Prop :=
  ∀ c ∈ rest.head?, kind c = false

section Words

variable {kind : Char → Bool} {word word' rest rest' : List Char}

theorem stopsAt_nil : StopsAt kind [] :=
  nofun

theorem stopsAt_cons {c : Char} (h : kind c = false) : StopsAt kind (c :: rest) := by
  intro d hd
  obtain rfl : c = d := by simpa using hd
  exact h

theorem takeWhile_word (hword : ∀ c ∈ word, kind c) (hrest : StopsAt kind rest) :
    (word ++ rest).takeWhile kind = word := by
  rw [List.takeWhile_append_of_pos hword]
  cases rest with
  | nil => exact List.append_nil word
  | cons c rest =>
    have hc : kind c = false := hrest c rfl
    rw [List.takeWhile_cons_of_neg (by simp [hc]), List.append_nil]

theorem dropWhile_word (hword : ∀ c ∈ word, kind c) (hrest : StopsAt kind rest) :
    (word ++ rest).dropWhile kind = rest := by
  rw [List.dropWhile_append_of_pos hword]
  cases rest with
  | nil => rfl
  | cons c rest =>
    have hc : kind c = false := hrest c rfl
    rw [List.dropWhile_cons_of_neg (by simp [hc])]

/-- A text is cut behind its first word in one way. -/
theorem word_append_inj (hword : ∀ c ∈ word, kind c) (hword' : ∀ c ∈ word', kind c)
    (hrest : StopsAt kind rest) (hrest' : StopsAt kind rest') (h : word ++ rest = word' ++ rest') :
    word = word' ∧ rest = rest' := by
  have hfirst : word = word' := by
    rw [← takeWhile_word hword hrest, h, takeWhile_word hword' hrest']
  subst hfirst
  exact ⟨rfl, List.append_cancel_left h⟩

end Words

theorem isDigit_of_mem_toString {n : Nat} {c : Char} (h : c ∈ (toString n).toList) : c.isDigit := by
  rw [Nat.toString_eq_repr, Nat.toList_repr] at h
  exact Nat.isDigit_of_mem_toDigits (by decide) (by decide) h

theorem exists_toString_cons (n : Nat) : ∃ c digits, (toString n).toList = c :: digits ∧ c.isDigit := by
  obtain ⟨c, digits, hdigits⟩ := List.exists_cons_of_ne_nil (Nat.toDigits_ne_nil (n := n) (b := 10))
  have htext : (toString n).toList = c :: digits := by rw [Nat.toString_eq_repr, Nat.toList_repr, hdigits]
  exact ⟨c, digits, htext, isDigit_of_mem_toString (htext ▸ List.mem_cons_self)⟩

theorem ofDigitChars_toString (n : Nat) : Nat.ofDigitChars 10 (toString n).toList 0 = n := by
  rw [Nat.toString_eq_repr, Nat.toList_repr]
  exact Nat.ofDigitChars_ten_toDigits

/-- A number at the front of a text is read off up to the first character that is no digit. -/
theorem toString_append_inj {m n : Nat} {rest rest' : List Char} (hrest : StopsAt Char.isDigit rest)
    (hrest' : StopsAt Char.isDigit rest') (h : (toString m).toList ++ rest = (toString n).toList ++ rest') :
    m = n ∧ rest = rest' := by
  obtain ⟨hdigits, hbehind⟩ := word_append_inj (fun _ => isDigit_of_mem_toString)
    (fun _ => isDigit_of_mem_toString) hrest hrest' h
  refine ⟨?_, hbehind⟩
  rw [← ofDigitChars_toString m, hdigits, ofDigitChars_toString]

end Disasm6502
