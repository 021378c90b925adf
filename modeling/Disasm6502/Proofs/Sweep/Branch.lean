import Disasm6502.Proofs.Assembly
import Disasm6502.Proofs.Sweep.Cutting

/-!
# Branches

A branch holds its destination as a signed distance from the instruction behind it. In integers the destination
is a plain sum, wrapped at 64K, and the distance can be had back from it. The text of a branch that was swept up
shows the destination to its last digit and never the distance.
-/
namespace Disasm6502

/-- The integer that a byte stands for in two's complement. -/
def signedByte (b : UInt8) : Int :=
  if b.toNat < 128 then b.toNat else b.toNat - 256

/-- The instruction, at `offset` of bytes loaded at `base`, is a branch by `b` to `target`. -/
structure Instruction.Branches (base : UInt16) (offset : Nat) (b : UInt8) (target : UInt16)
    (i : Instruction) : Prop where
  bytes_eq : i.bytes = [i.opcode, b]
  operand_eq : i.operand = some (.byte b)
  target_eq : i.target = some target
  toNat_target : (target.toNat : Int) = (base.toNat + offset + 2 + signedByte b) % UInt16.size
  toNat_byte : (b.toNat : Int) = (target.toNat - i.address.toNat - 2) % UInt8.size
  text_eq : operandText i.mode i.operand i.target = "$" ++ String.ofList (Hex.digits 'A' 4 target.toNat)

theorem toNat_displacement (b : UInt8) : ((displacement b).toNat : Int) = signedByte b % UInt16.size := by
  have hb := b.toNat_lt
  have hsmall : b < 128 ↔ b.toNat < 128 := UInt8.lt_iff_toNat_lt
  simp only [displacement, signedByte, hsmall, UInt16.size]
  split
  · rw [UInt8.toNat_toUInt16]
    omega
  · simp only [UInt16.toNat_add, UInt8.toNat_toUInt16, UInt16.reduceToNat]
    omega

/-- The destination in integers: where the bits are extended and where they wrap makes no difference. -/
theorem toNat_branchTarget (address : UInt16) (len : Nat) (offset : UInt8) :
    ((branchTarget address len offset).toNat : Int) =
      (address.toNat + len + signedByte offset) % UInt16.size := by
  have hdisplacement := toNat_displacement offset
  rw [branchTarget, UInt16.toNat_add, UInt16.toNat_add, UInt16.toNat_ofNat']
  simp only [UInt16.size] at hdisplacement ⊢
  omega

/-- A destination lies within one page of the branch, so the low byte of the distance tells it. -/
theorem toNat_byte_of_target {address target : UInt16} {b : UInt8}
    (h : (target.toNat : Int) = (address.toNat + 2 + signedByte b) % UInt16.size) :
    (b.toNat : Int) = (target.toNat - address.toNat - 2) % UInt8.size := by
  have hb := b.toNat_lt
  simp only [signedByte, UInt16.size, UInt8.size] at h ⊢
  split at h <;> omega

variable {base : UInt16} {bytes : List UInt8} {i : Instruction} {row : Opcode}

theorem Instruction.Follows.isSome_target_iff (h : i.Follows row) : i.target.isSome ↔ i.mode = .relative := by
  constructor
  · intro hsome
    by_contra hmode
    rw [h.target_none hmode] at hsome
    cases hsome
  · intro hmode
    obtain ⟨b, -, htarget⟩ := h.target_some hmode
    rw [htarget]
    rfl

theorem Instruction.Follows.branches {offset : Nat} (h : i.Follows row) (hmode : i.mode = .relative)
    (haddress : i.address.toNat = (base.toNat + offset) % UInt16.size) :
    ∃ b target, i.Branches base offset b target := by
  have hoperand := h.operand_eq
  rw [hmode] at hoperand
  obtain ⟨b, hbytes, hbyte⟩ := hoperand
  obtain ⟨b', hbyte', htarget⟩ := h.target_some hmode
  -- The bytes and the destination speak of one operand.
  obtain rfl : b = b' := by
    cases hbyte.symm.trans hbyte'
    rfl
  have hnat := toNat_branchTarget i.address i.bytes.length b
  have hlen : i.bytes.length = 2 := by
    rw [hbytes]
    rfl
  rw [hlen] at hnat htarget
  refine ⟨b, _, hbytes, hbyte, htarget, ?_, toNat_byte_of_target hnat, ?_⟩
  · rw [hnat, haddress]
    simp only [UInt16.size]
    omega
  · rw [hmode, htarget]
    exact congrArg ("$" ++ ·) (Hex.upper_word _)

/-- An instruction of a sweep has a destination exactly if it is a branch; the destination is the sum of its
place and its signed distance, gives the distance back, and is what the text shows. -/
theorem branches_of_sweep (base : UInt16) (bytes : List UInt8) :
    (∀ before i after, sweep base bytes = before ++ .instruction i :: after →
      (i.target.isSome ↔ i.mode = .relative) ∧
        (i.mode = .relative → ∃ b target, i.Branches base (extent before) b target)) ∧
      ∀ (address : UInt16) (len : Nat) (offset : UInt8),
        ((branchTarget address len offset).toNat : Int) =
          (address.toNat + len + signedByte offset) % UInt16.size := by
  refine ⟨fun before i after hsweep => ?_, toNat_branchTarget⟩
  have hplace := (tiling_sweep base bytes).itemAt before (.instruction i) after hsweep
  obtain ⟨row, -, -, hfollows⟩ := hplace.instruction i rfl
  have haddress := hplace.address_eq
  rw [length_flatMap_bytes] at haddress
  exact ⟨hfollows.isSome_target_iff, fun hmode => hfollows.branches hmode haddress⟩

/-- A branch at the last address goes back across address 0. -/
theorem branches_of_sweep_last_address :
    let idle : Item := .instruction ⟨0xFFFE, 0xEA, [0xEA], "NOP", .implicit, none, none⟩
    let branch : Instruction := ⟨0xFFFF, 0xD0, [0xD0, 0x80], "BNE", .relative, some (.byte 0x80), some 0xFF81⟩
    sweep 0xFFFE [0xEA, 0xD0, 0x80] = [idle] ++ .instruction branch :: [] ∧
      branch.Branches 0xFFFE 1 0x80 0xFF81 := by
  intro idle branch
  have hsweep : sweep 0xFFFE [0xEA, 0xD0, 0x80] = [idle] ++ .instruction branch :: [] := by decide +kernel
  obtain ⟨b, target, hbranch⟩ := ((branches_of_sweep 0xFFFE [0xEA, 0xD0, 0x80]).1 _ _ _ hsweep).2 rfl
  cases hbranch.operand_eq
  cases hbranch.target_eq
  exact ⟨hsweep, hbranch⟩

end Disasm6502
