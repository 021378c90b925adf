import Disasm6502.Item

/-!
# Linear sweep

A sweep cuts bytes into items from the first byte to the last. It walks byte by byte: the bytes behind an
opcode that its item takes are skipped, and the next byte starts the next item. `sweep_cons` is the rule of
one step.
-/
namespace Disasm6502

/-- The items of `bytes` from `address` on, last one first, in front of `done`. The first `skip` bytes
belong to the item before. -/
def sweepOnto (done : List Item) (address : UInt16) : Nat → List UInt8 → List Item
  | _, [] => done
  | skip + 1, _ :: rest => sweepOnto done (address + 1) skip rest
  | 0, opcode :: rest =>
    let item := Item.read address opcode rest
    sweepOnto (item :: done) (address + 1) (item.len - 1) rest

/-- The items of `bytes` as loaded at `base`. -/
def sweep (base : UInt16) (bytes : List UInt8) : List Item :=
  (sweepOnto [] base 0 bytes).reverse

theorem sweepOnto_append (done : List Item) (address : UInt16) (skip : Nat) (bytes : List UInt8) :
    sweepOnto done address skip bytes = sweepOnto [] address skip bytes ++ done := by
  induction bytes generalizing done address skip with
  | nil => simp [sweepOnto]
  | cons b rest ih =>
    cases skip with
    | succ skip => exact ih done (address + 1) skip
    | zero =>
      simp only [sweepOnto]
      rw [ih (_ :: done), ih [_]]
      simp

theorem sweepOnto_skip (done : List Item) (address : UInt16) (skip : Nat) (bytes : List UInt8) :
    sweepOnto done address skip bytes =
      sweepOnto done (address + UInt16.ofNat skip) 0 (bytes.drop skip) := by
  induction bytes generalizing address skip with
  | nil => simp [sweepOnto]
  | cons b rest ih =>
    cases skip with
    | zero => simp
    | succ skip =>
      rw [List.drop_succ_cons, sweepOnto, ih]
      congr 1
      rw [UInt16.ofNat_add]
      ac_rfl

@[simp] theorem sweep_nil (base : UInt16) : sweep base [] = [] := rfl

/-- One step: the first item, then the sweep of what lies behind it. -/
theorem sweep_cons (base : UInt16) (opcode : UInt8) (rest : List UInt8) :
    sweep base (opcode :: rest) =
      let item := Item.read base opcode rest
      item :: sweep (base + UInt16.ofNat item.len) (rest.drop (item.len - 1)) := by
  have hpos := Item.len_read_pos base opcode rest
  simp only [sweep, sweepOnto]
  rw [sweepOnto_append, sweepOnto_skip]
  have h : base + 1 + UInt16.ofNat ((Item.read base opcode rest).len - 1) =
      base + UInt16.ofNat (Item.read base opcode rest).len := by
    obtain ⟨n, hn⟩ : ∃ n, (Item.read base opcode rest).len = n + 1 :=
      ⟨_, (Nat.succ_pred (by omega)).symm⟩
    rw [hn, Nat.add_sub_cancel, UInt16.ofNat_add]
    ac_rfl
  simp [h]

end Disasm6502
