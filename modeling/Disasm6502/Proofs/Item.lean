import Disasm6502.Item
import Disasm6502.Proofs.Opcode

/-!
# Reading one item

The item at a place is settled by the row of the first byte and by how many bytes stand behind it.
-/
namespace Disasm6502

/-- The instruction of a row with operand bytes `body`. -/
def Opcode.instruction (row : Opcode) (address : UInt16) (body : List UInt8) : Instruction :=
  { address, opcode := row.code, bytes := row.code :: body, mnemonic := row.mnemonic, mode := row.mode
    operand := Operand.ofBytes? body
    target := row.mode.target? address row.len (Operand.ofBytes? body) }

namespace Item

variable {address : UInt16} {opcode : UInt8} {behind : List UInt8} {row : Opcode}

theorem read_undocumented (h : ∀ row ∈ Opcode.documented, row.code ≠ opcode) :
    read address opcode behind = .unknown address opcode := by
  simp only [read, Opcode.find?_eq_none h]

theorem read_short (hrow : row ∈ Opcode.documented) (hshort : behind.length < row.mode.operandLen) :
    read address row.code behind = .truncated address row.code (row.code :: behind) row.len := by
  have hbody : behind.take row.mode.operandLen = behind := List.take_of_length_le (Nat.le_of_lt hshort)
  simp only [read, Opcode.find?_code hrow, hbody, if_pos hshort]

theorem read_full (hrow : row ∈ Opcode.documented) (hfull : row.mode.operandLen ≤ behind.length) :
    read address row.code behind =
      .instruction (row.instruction address (behind.take row.mode.operandLen)) := by
  have hbody : ¬ (behind.take row.mode.operandLen).length < row.mode.operandLen := by
    rw [List.length_take_of_le hfull]
    exact Nat.lt_irrefl _
  simp only [read, Opcode.find?_code hrow, if_neg hbody, Opcode.instruction]

/-- The three outcomes of a read and when each comes about. -/
theorem read_cases (address : UInt16) (opcode : UInt8) (behind : List UInt8) :
    ((∀ row ∈ Opcode.documented, row.code ≠ opcode) ∧
      read address opcode behind = .unknown address opcode) ∨
    ∃ row ∈ Opcode.documented, row.code = opcode ∧
      (behind.length < row.mode.operandLen ∧
          read address opcode behind = .truncated address opcode (opcode :: behind) row.len ∨
        row.mode.operandLen ≤ behind.length ∧
          read address opcode behind =
            .instruction (row.instruction address (behind.take row.mode.operandLen))) := by
  by_cases h : ∃ row ∈ Opcode.documented, row.code = opcode
  · obtain ⟨row, hrow, rfl⟩ := h
    refine .inr ⟨row, hrow, rfl, ?_⟩
    by_cases hshort : behind.length < row.mode.operandLen
    · exact .inl ⟨hshort, read_short hrow hshort⟩
    · have hfull : row.mode.operandLen ≤ behind.length := Nat.le_of_not_lt hshort
      exact .inr ⟨hfull, read_full hrow hfull⟩
  · have hno : ∀ row ∈ Opcode.documented, row.code ≠ opcode :=
      fun row hrow hcode => h ⟨row, hrow, hcode⟩
    exact .inl ⟨hno, read_undocumented hno⟩

theorem address_read (address : UInt16) (opcode : UInt8) (behind : List UInt8) :
    (read address opcode behind).address = address := by
  obtain ⟨-, hread⟩ | ⟨row, -, rfl, ⟨-, hread⟩ | ⟨-, hread⟩⟩ := read_cases address opcode behind
  all_goals
    rw [hread]
    rfl

/-- An item is what its own bytes read as: nothing behind them has a say in it. -/
theorem read_own_bytes (address : UInt16) (opcode : UInt8) (behind : List UInt8) :
    ∃ body, (read address opcode behind).bytes = opcode :: body ∧
      read address opcode body = read address opcode behind := by
  obtain ⟨hno, hread⟩ | ⟨row, hrow, rfl, ⟨-, hread⟩ | ⟨hfull, hread⟩⟩ := read_cases address opcode behind
  · exact ⟨[], by rw [hread]; rfl, by rw [hread, read_undocumented hno]⟩
  · exact ⟨behind, by rw [hread]; rfl, rfl⟩
  · refine ⟨behind.take row.mode.operandLen, by rw [hread]; rfl, ?_⟩
    rw [read_full hrow (List.length_take_of_le hfull).ge, List.take_take, Nat.min_self, hread]

theorem len_read_succ (address : UInt16) (opcode : UInt8) (behind : List UInt8) :
    ∃ n, (read address opcode behind).len = n + 1 :=
  Nat.exists_eq_succ_of_ne_zero (Nat.ne_of_gt (len_read_pos address opcode behind))

theorem bytes_of_isUnknown {item : Item} (h : item.isUnknown) : item.bytes = [item.opcode] := by
  cases item with
  | unknown => rfl
  | instruction | truncated => cases h

end Item
end Disasm6502
