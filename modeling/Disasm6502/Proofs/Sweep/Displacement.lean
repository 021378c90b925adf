import Disasm6502.Proofs.Sweep.Branch

/-!
# Displaced sweeps

Where bytes are loaded shows in addresses and branch destinations and nowhere else: loaded a distance further on,
they give the same items, each moved by that distance. In the assembler text only branches notice.
-/
namespace Disasm6502

/-- The instruction `distance` addresses further on, together with the destination of its branch. -/
def Instruction.moved (distance : UInt16) (i : Instruction) : Instruction :=
  { i with address := i.address + distance, target := i.target.map (· + distance) }

def Item.moved (distance : UInt16) : Item → Item
  | .instruction i => .instruction (i.moved distance)
  | .unknown address opcode => .unknown (address + distance) opcode
  | .truncated address opcode bytes expectedLen => .truncated (address + distance) opcode bytes expectedLen

@[simp] theorem Item.len_moved (distance : UInt16) (item : Item) : (item.moved distance).len = item.len := by
  cases item <;> rfl

theorem Instruction.moved_zero (i : Instruction) : i.moved 0 = i := by
  obtain ⟨address, opcode, bytes, mnemonic, mode, operand, target⟩ := i
  cases target <;> simp [moved]

/-- A displacement is added to what it is added to before or after another one. -/
theorem branchTarget_add (address distance : UInt16) (len : Nat) (offset : UInt8) :
    branchTarget (address + distance) len offset = branchTarget address len offset + distance := by
  unfold branchTarget
  ac_rfl

theorem Mode.target?_add (mode : Mode) (address distance : UInt16) (len : Nat) (operand : Option Operand) :
    mode.target? (address + distance) len operand = (mode.target? address len operand).map (· + distance) := by
  unfold Mode.target?
  split
  · rw [branchTarget_add]
    rfl
  · rfl

theorem Opcode.instruction_add (row : Opcode) (address distance : UInt16) (body : List UInt8) :
    row.instruction (address + distance) body = (row.instruction address body).moved distance := by
  simp only [Opcode.instruction, Instruction.moved, Mode.target?_add]

/-- At a displaced address the displaced item is read. -/
theorem Item.read_add (address distance : UInt16) (opcode : UInt8) (behind : List UInt8) :
    read (address + distance) opcode behind = (read address opcode behind).moved distance := by
  obtain ⟨hno, hread⟩ | ⟨row, hrow, rfl, ⟨hshort, hread⟩ | ⟨hfull, hread⟩⟩ := read_cases address opcode behind
  · rw [hread, read_undocumented hno]
    rfl
  · rw [hread, read_short hrow hshort]
    rfl
  · rw [hread, read_full hrow hfull, Opcode.instruction_add]
    rfl

theorem sweep_add (base distance : UInt16) (bytes : List UInt8) :
    sweep (base + distance) bytes = (sweep base bytes).map (Item.moved distance) := by
  induction base, bytes using sweep_induction with
  | nil base => rfl
  | cons base opcode rest ih =>
    -- A moved item is as long as before, so the next one starts as far behind it.
    have hbehind : base + distance + UInt16.ofNat (Item.read base opcode rest).len =
        base + UInt16.ofNat (Item.read base opcode rest).len + distance := by ac_rfl
    rw [sweep_cons, sweep_cons]
    simp only [Item.read_add, Item.len_moved, List.map_cons]
    rw [hbehind, ih]

/-- Only a relative operand is written as its destination. -/
theorem operandText_of_ne {mode : Mode} (h : mode ≠ .relative) (operand : Option Operand)
    (target other : Option UInt16) : operandText mode operand target = operandText mode operand other := by
  cases mode with
  | relative => exact absurd rfl h
  | _ => cases operand <;> rfl

variable {base distance : UInt16} {bytes : List UInt8} {i : Instruction}

theorem text_moved_of_ne (h : i.mode ≠ .relative) : (i.moved distance).text = i.text := by
  simp only [Instruction.text, instructionText, Instruction.moved,
    operandText_of_ne h i.operand (i.target.map (· + distance)) i.target]

theorem text_moved_iff (h : i.target.isSome ↔ i.mode = .relative) :
    (i.moved distance).text = i.text ↔ i.mode ≠ .relative ∨ distance = 0 := by
  constructor
  · intro htext
    by_cases hmode : i.mode = .relative
    · obtain ⟨target, htarget⟩ := Option.isSome_iff_exists.mp (h.mpr hmode)
      obtain ⟨-, hoperand⟩ := instructionText_inj rfl htext
      -- Both texts are a destination, and different destinations are written differently.
      simp only [Instruction.moved, hmode, htarget] at hoperand
      have haddress : addressText (target + distance) = addressText target := hoperand
      exact .inr (UInt16.add_eq_left.mp (addressText_inj.mp haddress))
    · exact .inl hmode
  · rintro (hmode | rfl)
    · exact text_moved_of_ne hmode
    · rw [i.moved_zero]

/-- The sweep of bytes loaded a distance further on is the sweep moved by that distance, and but for branches every
instruction keeps its text. -/
theorem sweep_displaced (base distance : UInt16) (bytes : List UInt8) :
    sweep (base + distance) bytes = (sweep base bytes).map (Item.moved distance) ∧
      ∀ i, .instruction i ∈ sweep base bytes →
        ((i.moved distance).text = i.text ↔ i.mode ≠ .relative ∨ distance = 0) := by
  refine ⟨sweep_add base distance bytes, fun i hi => ?_⟩
  obtain ⟨row, -, body, hbody, hrow⟩ := instruction_of_mem_sweep hi
  have hfollows := row.instruction_follows i.address hbody
  rw [← hrow] at hfollows
  exact text_moved_iff hfollows.isSome_target_iff

/-- A branch to itself, a load, a byte that is no opcode and a jump that is cut off, first across address 0. -/
theorem sweep_displaced_across_zero :
    let bytes : List UInt8 := [0xD0, 0xFE, 0xA9, 0x05, 0x02, 0x4C]
    let load : Instruction := ⟨0xFFFF, 0xA9, [0xA9, 0x05], "LDA", .immediate, some (.byte 0x05), none⟩
    .instruction load ∈ sweep 0xFFFD bytes ∧ (load.moved 0x1003).text = load.text ∧
      sweep 0x1000 bytes =
        [.instruction ⟨0x1000, 0xD0, [0xD0, 0xFE], "BNE", .relative, some (.byte 0xFE), some 0x1000⟩,
          .instruction (load.moved 0x1003), .unknown 0x1004 0x02, .truncated 0x1005 0x4C [0x4C] 3] := by
  intro bytes load
  obtain ⟨hsweep, htext⟩ := sweep_displaced 0xFFFD 0x1003 bytes
  have hload : .instruction load ∈ sweep 0xFFFD bytes := by decide +kernel
  exact ⟨hload, (htext load hload).mpr (.inl (by decide)), hsweep.trans (by decide +kernel)⟩

end Disasm6502
