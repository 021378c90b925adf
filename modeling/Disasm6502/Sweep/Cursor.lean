import Disasm6502.Sweep

/-!
# A sweep item by item

A cursor stands between two items of a sweep. It hands out the items ahead one by one, and whatever else is asked
of it is settled by taking them. It knows how far it has come and how many items can still follow.
-/
namespace Disasm6502

structure Cursor where
  /-- Address of the next byte. -/
  address : UInt16
  /-- Bytes passed since the cursor was made. -/
  offset : Nat
  rest : List UInt8
deriving DecidableEq

namespace Cursor

def ofBytes (base : UInt16) (bytes : List UInt8) : Cursor :=
  { address := base, offset := 0, rest := bytes }

/-- The next item, if there is one, and the cursor behind it. -/
def next (c : Cursor) : Option Item × Cursor :=
  match c.rest with
  | [] => (none, c)
  | opcode :: behind =>
    let item := Item.read c.address opcode behind
    (some item,
      { address := c.address + UInt16.ofNat item.len
        offset := c.offset + item.len
        rest := behind.drop (item.len - 1) })

/-- The item that `n` others precede, and the cursor behind it; at the end of the items, the end. -/
def nth : Nat → Cursor → Option Item × Cursor
  | 0, c => c.next
  | n + 1, c =>
    match c.next with
    | (none, c) => (none, c)
    | (some _, c) => nth n c

theorem length_rest_next_lt {c c' : Cursor} {item : Item} (h : c.next = (some item, c')) :
    c'.rest.length < c.rest.length := by
  unfold next at h
  split at h
  case h_1 => cases h
  case h_2 opcode behind hrest =>
    cases h
    rw [hrest, List.length_cons, List.length_drop]
    omega

/-- Takes all items ahead, `f` at each of them, and ends behind them. -/
def fold {β : Type} (f : β → Item → β) (init : β) (c : Cursor) : β × Cursor :=
  match h : c.next with
  | (none, c') => (init, c')
  | (some item, c') =>
    have := length_rest_next_lt h
    fold f (f init item) c'
termination_by c.rest.length

section

variable {β : Type} {f : β → Item → β} {init : β} {c c' : Cursor}

theorem fold_of_next_none (h : c.next = (none, c')) : c.fold f init = (init, c') := by
  rw [fold]
  split
  case h_1 hnone =>
    cases hnone.symm.trans h
    rfl
  case h_2 hsome => cases hsome.symm.trans h

theorem fold_of_next_some {item : Item} (h : c.next = (some item, c')) :
    c.fold f init = c'.fold f (f init item) := by
  rw [fold]
  split
  case h_1 hnone => cases hnone.symm.trans h
  case h_2 hsome =>
    cases hsome.symm.trans h
    rfl

end

/-- Bounds on the number of items ahead: an item takes one to three bytes. -/
def sizeHint (c : Cursor) : Nat × Nat :=
  let remaining := c.rest.length
  ((remaining + 2) / 3, remaining)

end Cursor
end Disasm6502
