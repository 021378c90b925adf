import Disasm6502.Proofs.Assembly
import Disasm6502.Proofs.Hex.Bytes
import Disasm6502.Proofs.Numeral

/-!
# Literals in assembler text

The literals of a text are what its dollar signs lead: cut at these, each piece starts with the digits of a number.
An operand is written as one literal, which no decoration runs into, so its value is read back whatever its width.
-/
namespace Disasm6502

/-- The numbers of 16 bits whose hexadecimal digits stand behind the dollar signs of a text. -/
def literals (text : String) : List Nat :=
  (text.toList.splitOn '$').tail.filterMap fun piece =>
    (Numeral.read 16 UInt16.size (piece.takeWhile Hex.isDigit)).toOption

/-- A value in the frame stands behind the only dollar sign, and no digit follows it. -/
structure Frame.Sharp (frame : Frame) : Prop where
  before : ∃ lead, frame.before.toList = lead ++ ['$'] ∧ '$' ∉ lead
  dollar_not_mem : '$' ∉ frame.after.toList
  stopsAt : StopsAt Hex.isDigit frame.after.toList

theorem Mode.sharp_frame {mode : Mode} (h : 0 < mode.operandLen) : mode.frame.Sharp := by
  cases mode with
  | implicit | accumulator => exact absurd h (Nat.lt_irrefl 0)
  | immediate => exact ⟨⟨['#'], rfl, by decide⟩, by decide, stopsAt_nil⟩
  | zeroPage | absolute | relative => exact ⟨⟨[], rfl, by decide⟩, by decide, stopsAt_nil⟩
  | zeroPageX | zeroPageY | absoluteX | absoluteY =>
    exact ⟨⟨[], rfl, by decide⟩, by decide, stopsAt_cons (by decide)⟩
  | indirect | indexedIndirect | indirectIndexed =>
    exact ⟨⟨['('], rfl, by decide⟩, by decide, stopsAt_cons (by decide)⟩

/-- The literal of a text with one dollar sign. -/
theorem literals_of_digits {text : String} {lead rest : List Char} {width : Nat} {w : UInt16}
    (htext : text.toList = lead ++ '$' :: ((Hex.upper width w.toNat).toList ++ rest)) (hlead : '$' ∉ lead)
    (hrest : '$' ∉ rest) (hstop : StopsAt Hex.isDigit rest) : literals text = [w.toNat] := by
  have hdigits : ∀ c ∈ (Hex.upper width w.toNat).toList, Hex.isDigit c :=
    fun _ => Hex.isSome_value?_of_mem_upper
  -- A dollar sign is no digit, so the number and what follows it stay in one piece.
  have hpiece : '$' ∉ (Hex.upper width w.toNat).toList ++ rest := by
    intro hmem
    rcases List.mem_append.mp hmem with hdigit | hbehind
    · exact absurd (hdigits '$' hdigit) (by decide)
    · exact hrest hbehind
  rw [literals, htext, List.splitOn_append_cons_self_of_not_mem hlead, List.splitOn_eq_singleton hpiece,
    List.tail_cons, List.filterMap_cons, takeWhile_word hdigits hstop, Numeral.read_upper]
  rfl

theorem Frame.Sharp.literals_text {frame : Frame} (h : frame.Sharp) (w : UInt16) :
    literals (frame.text w) = [w.toNat] := by
  obtain ⟨lead, hbefore, hlead⟩ := h.before
  have htext : (frame.text w).toList =
      lead ++ '$' :: ((Hex.upper frame.width w.toNat).toList ++ frame.after.toList) := by
    simp [Frame.text, hbefore]
  exact literals_of_digits htext hlead h.dollar_not_mem h.stopsAt

theorem literals_addressText (w : UInt16) : literals (addressText w) = [w.toNat] := by
  have htext : (addressText w).toList = [] ++ '$' :: ((Hex.upper 4 w.toNat).toList ++ []) := by
    simp [addressText]
  exact literals_of_digits htext List.not_mem_nil List.not_mem_nil stopsAt_nil

/-- What a written operand reads back as: its value, or the destination of a branch that has one. -/
theorem literals_operandText {mode : Mode} (h : 0 < mode.operandLen) (operand : Operand)
    (target : Option UInt16) :
    literals (operandText mode (some operand) target) =
      match mode, target with
      | .relative, some target => [target.toNat]
      | _, _ => [operand.value.toNat] := by
  have hvalue := (Mode.sharp_frame h).literals_text operand.value
  cases mode with
  | implicit | accumulator => exact absurd h (Nat.lt_irrefl 0)
  | relative =>
    cases target with
    | none => exact hvalue
    | some target => exact literals_addressText target
  | _ => exact hvalue

/-- A word where the mode takes a byte, between brackets and an index. -/
theorem literals_operandText_wide :
    0 < Mode.operandLen .indirectIndexed ∧
      operandText .indirectIndexed (some (.word 0xBEEF)) (some 0x1234) = "($BEEF),Y" ∧
      literals "($BEEF),Y" = [0xBEEF] := by
  have htext : operandText .indirectIndexed (some (.word 0xBEEF)) (some 0x1234) = "($BEEF),Y" := by
    decide +kernel
  refine ⟨by decide, htext, ?_⟩
  rw [← htext]
  exact literals_operandText (by decide) (.word 0xBEEF) (some 0x1234)

end Disasm6502
