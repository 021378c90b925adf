import Disasm6502.Assembly
import Disasm6502.Proofs.Hex
import Disasm6502.Proofs.Sweep.Tiling
import Disasm6502.Proofs.Word

/-!
# Assembler text is unambiguous

An address and the text behind it give an instruction back. Blotting out the digits of an operand leaves an
outline that settles the mode, except that a branch looks like an absolute operand; the mnemonic tells these
apart, and the digits hold the operand.
-/
namespace Disasm6502

/-- Text with its digits blotted out. -/
def outline (text : String) : List Char :=
  text.toList.map fun c => if (Hex.value? c).isSome then '0' else c

/-- The outline that all operands of a mode have. -/
def Mode.outline : Mode → List Char
  | implicit => []
  | accumulator => Disasm6502.outline "A"
  | relative => Disasm6502.outline "$" ++ List.replicate 4 '0'
  | mode =>
    Disasm6502.outline mode.frame.before ++ List.replicate mode.frame.width '0'
      ++ Disasm6502.outline mode.frame.after

theorem Mode.eq_or_of_outline_eq {m n : Mode} (h : m.outline = n.outline) :
    m = n ∨ (m = .relative ∧ n = .absolute) ∨ (m = .absolute ∧ n = .relative) := by
  revert h
  cases m <;> cases n <;> decide

theorem outline_append (first second : String) :
    outline (first ++ second) = outline first ++ outline second := by
  simp [outline]

theorem outline_upper (width n : Nat) :
    outline (Hex.upper width n) = List.replicate (Hex.upper width n).toList.length '0' := by
  refine List.eq_replicate_iff.mpr ⟨List.length_map _, fun c hc => ?_⟩
  obtain ⟨d, hd, rfl⟩ := List.mem_map.mp hc
  exact if_pos (Hex.isSome_value?_of_mem_upper hd)

theorem Frame.text_inj (frame : Frame) {v w : UInt16} : frame.text v = frame.text w ↔ v = w := by
  rw [Frame.text, Frame.text, String.append_left_inj, String.append_right_inj, Hex.upper_inj,
    UInt16.toNat_inj]

theorem addressText_inj {v w : UInt16} : addressText v = addressText w ↔ v = w := by
  rw [addressText, addressText, String.append_right_inj, Hex.upper_inj, UInt16.toNat_inj]

theorem outline_frame_byte (frame : Frame) (b : UInt8) (h : frame.width = 2) :
    outline (frame.text b.toUInt16) =
      outline frame.before ++ List.replicate frame.width '0' ++ outline frame.after := by
  rw [Frame.text, outline_append, outline_append, outline_upper, h, UInt8.toNat_toUInt16,
    Hex.length_upper_byte]

theorem outline_frame_word (frame : Frame) (w : UInt16) (h : frame.width = 4) :
    outline (frame.text w) =
      outline frame.before ++ List.replicate frame.width '0' ++ outline frame.after := by
  rw [Frame.text, outline_append, outline_append, outline_upper, h, Hex.length_upper_word]

/-- The operand text of an instruction with the operand bytes `body`. -/
def Mode.bodyText (mode : Mode) (address : UInt16) (len : Nat) (body : List UInt8) : String :=
  operandText mode (Operand.ofBytes? body) (mode.target? address len (Operand.ofBytes? body))

theorem outline_bodyText {mode : Mode} {body : List UInt8} (h : body.length = mode.operandLen)
    (address : UInt16) (len : Nat) : outline (mode.bodyText address len body) = mode.outline := by
  cases mode with
  | implicit | accumulator => rfl
  | relative =>
    obtain ⟨b, rfl⟩ : ∃ b, body = [b] := List.length_eq_one_iff.mp h
    change outline ("$" ++ Hex.upper 4 (branchTarget address len b).toNat) = _
    rw [outline_append, outline_upper, Hex.length_upper_word]
    rfl
  | immediate | zeroPage | zeroPageX | zeroPageY | indexedIndirect | indirectIndexed =>
    obtain ⟨b, rfl⟩ : ∃ b, body = [b] := List.length_eq_one_iff.mp h
    exact outline_frame_byte _ b rfl
  | absolute | absoluteX | absoluteY | indirect =>
    obtain ⟨low, high, rfl⟩ : ∃ low high, body = [low, high] := List.length_eq_two.mp h
    exact outline_frame_word _ _ rfl

theorem toUInt8_displacement (b : UInt8) : (displacement b).toUInt8 = b := by
  apply UInt8.toNat_inj.mp
  have hb := b.toNat_lt
  unfold displacement
  split
  · simp
  · simp only [UInt16.toNat_toUInt8, UInt16.toNat_add, UInt8.toNat_toUInt16, UInt16.reduceToNat]
    omega

theorem branchTarget_inj {address : UInt16} {len : Nat} {b c : UInt8} :
    branchTarget address len b = branchTarget address len c ↔ b = c := by
  constructor
  · intro h
    rw [branchTarget, branchTarget, UInt16.add_right_inj] at h
    rw [← toUInt8_displacement b, h, toUInt8_displacement]
  · intro h
    rw [h]

theorem bodyText_inj {mode : Mode} {body body' : List UInt8} {address : UInt16} {len : Nat}
    (hbody : body.length = mode.operandLen) (hbody' : body'.length = mode.operandLen)
    (h : mode.bodyText address len body = mode.bodyText address len body') : body = body' := by
  cases mode with
  | implicit | accumulator =>
    rw [List.length_eq_zero_iff.mp hbody, List.length_eq_zero_iff.mp hbody']
  | relative =>
    obtain ⟨b, rfl⟩ : ∃ b, body = [b] := List.length_eq_one_iff.mp hbody
    obtain ⟨b', rfl⟩ : ∃ b, body' = [b] := List.length_eq_one_iff.mp hbody'
    rw [branchTarget_inj.mp (addressText_inj.mp h)]
  | immediate | zeroPage | zeroPageX | zeroPageY | indexedIndirect | indirectIndexed =>
    obtain ⟨b, rfl⟩ : ∃ b, body = [b] := List.length_eq_one_iff.mp hbody
    obtain ⟨b', rfl⟩ : ∃ b, body' = [b] := List.length_eq_one_iff.mp hbody'
    have hvalue : b.toUInt16 = b'.toUInt16 := (Frame.text_inj _).mp h
    rw [UInt8.toUInt16_inj.mp hvalue]
  | absolute | absoluteX | absoluteY | indirect =>
    obtain ⟨low, high, rfl⟩ : ∃ low high, body = [low, high] := List.length_eq_two.mp hbody
    obtain ⟨low', high', rfl⟩ : ∃ low high, body' = [low, high] := List.length_eq_two.mp hbody'
    have hvalue : Word.ofBytes low high = Word.ofBytes low' high' := (Frame.text_inj _).mp h
    obtain ⟨rfl, rfl⟩ := Word.ofBytes_inj.mp hvalue
    rfl

theorem toList_instructionText (mnemonic : String) (mode : Mode) (operand : Option Operand)
    (target : Option UInt16) :
    (instructionText mnemonic mode operand target).toList = mnemonic.toList ++
      if operandText mode operand target = "" then []
      else ' ' :: (operandText mode operand target).toList := by
  unfold instructionText
  by_cases h : operandText mode operand target = ""
  · simp [h]
  · simp [h]

theorem instructionText_inj {mnemonic mnemonic' : String} {mode mode' : Mode}
    {operand operand' : Option Operand} {target target' : Option UInt16}
    (hlen : mnemonic.toList.length = mnemonic'.toList.length)
    (h : instructionText mnemonic mode operand target = instructionText mnemonic' mode' operand' target') :
    mnemonic = mnemonic' ∧ operandText mode operand target = operandText mode' operand' target' := by
  -- Mnemonics of one length end at one place, so what is left of the text is the operand.
  have hlist := congrArg String.toList h
  rw [toList_instructionText, toList_instructionText] at hlist
  obtain ⟨hmnemonic, hoperand⟩ := List.append_inj hlist hlen
  refine ⟨String.toList_inj.mp hmnemonic, ?_⟩
  split at hoperand <;> split at hoperand
  · rename_i hempty hempty'
    rw [hempty, hempty']
  · cases hoperand
  · cases hoperand
  · exact String.toList_inj.mp (List.cons.inj hoperand).2

/-- Instructions of sweeps with one address and one text are one instruction. -/
theorem text_injOn_sweep {base base' : UInt16} {bytes bytes' : List UInt8} {i j : Instruction}
    (hi : .instruction i ∈ sweep base bytes) (hj : .instruction j ∈ sweep base' bytes')
    (haddress : i.address = j.address) (htext : i.text = j.text) : i = j := by
  obtain ⟨row, hrow, body, hbody, hi⟩ := instruction_of_mem_sweep hi
  obtain ⟨row', hrow', body', hbody', hj⟩ := instruction_of_mem_sweep hj
  rw [← haddress] at hj
  generalize i.address = address at hi hj
  subst hi hj
  have hlen : row.mnemonic.toList.length = row'.mnemonic.toList.length := by
    rw [Opcode.length_mnemonic row hrow, Opcode.length_mnemonic row' hrow']
  obtain ⟨hmnemonic, hoperand⟩ := instructionText_inj hlen htext
  change row.mode.bodyText address row.len body = row'.mode.bodyText address row'.len body' at hoperand
  -- The outline settles the mode up to relative and absolute, and mnemonic and mode settle the row.
  have houtline : row.mode.outline = row'.mode.outline := by
    rw [← outline_bodyText hbody address row.len, hoperand, outline_bodyText hbody']
  have hmode : row.mode = row'.mode := by
    obtain hmode | ⟨hrel, habs⟩ | ⟨habs, hrel⟩ := Mode.eq_or_of_outline_eq houtline
    · exact hmode
    · exact absurd hmnemonic (Opcode.mnemonic_ne_of_relative row hrow hrel row' hrow' habs)
    · exact absurd hmnemonic.symm (Opcode.mnemonic_ne_of_relative row' hrow' hrel row hrow habs)
  obtain rfl := Opcode.mnemonic_injOn hrow hrow' hmode hmnemonic
  rw [bodyText_inj hbody hbody' hoperand]

/-- A branch to itself, behind another instruction and on its own. -/
theorem text_injOn_sweep_branch :
    (⟨0x1001, 0xD0, [0xD0, 0xFE], "BNE", .relative, some (.byte 0xFE), some 0x1001⟩ : Instruction) =
      Opcode.instruction ⟨0xD0, "BNE", .relative⟩ 0x1001 [0xFE] :=
  @text_injOn_sweep 0x1000 0x1001 [0xEA, 0xD0, 0xFE] [0xD0, 0xFE] _ _ (by decide +kernel) (by decide +kernel)
    (by decide) (by decide +kernel)

end Disasm6502
