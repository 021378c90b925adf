import Disasm6502.Proofs.Item
import Disasm6502.Sweep
import Mathlib.Tactic.MkIffOfInductiveProp

/-!
# Sweeps tile their bytes

A sweep is described item by item, each by the offset of its first byte: its address, when it is an
instruction, an unknown byte or cut off by the end, and what it then holds. The description fits no second
list.
-/
namespace Disasm6502

/-- The instruction is one of the row's, and its own bytes hold its operand. -/
structure Instruction.Follows (row : Opcode) (i : Instruction) : Prop where
  mnemonic_eq : i.mnemonic = row.mnemonic
  mode_eq : i.mode = row.mode
  length_eq : i.bytes.length = row.len
  operand_eq : match i.mode.operandLen with
    | 0 => i.operand = none
    | 1 => ∃ b, i.bytes = [i.opcode, b] ∧ i.operand = some (.byte b)
    | _ => ∃ low high, i.bytes = [i.opcode, low, high] ∧ i.operand = some (.word (Word.ofBytes low high))
  target_none : i.mode ≠ .relative → i.target = none
  -- Without the destination itself, a list would be settled up to destinations only.
  target_some : i.mode = .relative →
    ∃ b, i.operand = some (.byte b) ∧ i.target = some (branchTarget i.address i.bytes.length b)

/-- What stands at `offset` of `bytes`, which are loaded at `base`. -/
@[mk_iff]
structure ItemAt (base : UInt16) (bytes : List UInt8) (offset : Nat) (item : Item) : Prop where
  address_eq : item.address.toNat = (base.toNat + offset) % UInt16.size
  opcode_eq : bytes[offset]? = some item.opcode
  unknown_iff : item.isUnknown ↔ ∀ row ∈ Opcode.documented, row.code ≠ item.opcode
  unknown_len : item.isUnknown → item.len = 1
  truncated_iff : item.isTruncated ↔
    ∃ row ∈ Opcode.documented, row.code = item.opcode ∧ bytes.length - offset < row.len
  truncated : ∀ address opcode held expectedLen, item = .truncated address opcode held expectedLen →
    held = bytes.drop offset ∧ 1 ≤ held.length ∧ held.length < expectedLen ∧
      ∃ row ∈ Opcode.documented, row.code = opcode ∧ expectedLen = row.len
  instruction : ∀ i, item = .instruction i →
    ∃ row ∈ Opcode.documented, row.code = i.opcode ∧ i.Follows row

/-- The items take all of `bytes` in turn, and one that is cut off is the last. -/
structure Tiling (base : UInt16) (bytes : List UInt8) (items : List Item) : Prop where
  bytes_eq : items.flatMap Item.bytes = bytes
  itemAt : ∀ before item after, items = before ++ item :: after →
    ItemAt base bytes (before.flatMap Item.bytes).length item
  truncated_last : ∀ before item after, items = before ++ item :: after → item.isTruncated → after = []

theorem Mode.target?_of_ne {mode : Mode} (h : mode ≠ .relative) (address : UInt16) (len : Nat)
    (operand : Option Operand) : mode.target? address len operand = none := by
  unfold Mode.target?
  split
  · exact absurd rfl h
  · rfl

theorem Mode.operandLen_le (mode : Mode) : mode.operandLen ≤ 2 := by
  cases mode <;> decide

theorem Opcode.instruction_follows (row : Opcode) (address : UInt16) {body : List UInt8}
    (h : body.length = row.mode.operandLen) : (row.instruction address body).Follows row where
  mnemonic_eq := rfl
  mode_eq := rfl
  length_eq := by simp [instruction, len, h, Nat.add_comm]
  operand_eq := by
    simp only [instruction, ← h]
    rcases body with _ | ⟨b, _ | ⟨high, _ | ⟨_, _⟩⟩⟩
    · rfl
    · exact ⟨b, rfl, rfl⟩
    · exact ⟨b, high, rfl, rfl⟩
    · have hle := row.mode.operandLen_le
      simp only [List.length_cons] at h
      omega
  target_none hne := Mode.target?_of_ne hne _ _ _
  target_some hmode := by
    have hmode' : row.mode = .relative := hmode
    rw [hmode'] at h
    obtain ⟨b, rfl⟩ : ∃ b, body = [b] := List.length_eq_one_iff.mp h
    refine ⟨b, rfl, ?_⟩
    simp only [instruction, hmode', Mode.target?, Operand.ofBytes?, len, List.length_cons, List.length_nil,
      Mode.operandLen]

theorem Instruction.Follows.eq {row : Opcode} {i : Instruction} {body : List UInt8} (h : i.Follows row)
    (hbytes : i.bytes = row.code :: body) (hcode : row.code = i.opcode) :
    i = row.instruction i.address body := by
  obtain ⟨hmnemonic, hmode, hlen, hoperand, hnone, hsome⟩ := h
  obtain ⟨address, opcode, bytes, mnemonic, mode, operand, target⟩ := i
  simp only at *
  subst hbytes hcode hmnemonic hmode
  have hbody : body.length = row.mode.operandLen := by
    simp only [Opcode.len, List.length_cons] at hlen
    omega
  have hof : operand = Operand.ofBytes? body := by
    rw [← hbody] at hoperand
    rcases body with _ | ⟨_, _ | ⟨_, _ | ⟨_, _⟩⟩⟩
    · exact hoperand
    · obtain ⟨b, hb, ho⟩ := hoperand
      cases hb
      exact ho
    · obtain ⟨low, high, hb, ho⟩ := hoperand
      cases hb
      exact ho
    · obtain ⟨low, high, hb, ho⟩ := hoperand
      cases hb
  subst hof
  have htarget : target = row.mode.target? address row.len (Operand.ofBytes? body) := by
    by_cases hrel : row.mode = .relative
    · obtain ⟨b, hb, ht⟩ := hsome hrel
      rw [ht, hb, hlen, hrel]
      rfl
    · rw [hnone hrel, Mode.target?_of_ne hrel]
  rw [htarget]
  rfl

theorem toNat_add_ofNat (base : UInt16) (n : Nat) :
    (base + UInt16.ofNat n).toNat = (base.toNat + n) % UInt16.size := by
  simp [UInt16.toNat_add, UInt16.size]

/-- The description of a place needs nothing in front of it. -/
theorem itemAt_drop (base : UInt16) (bytes : List UInt8) (n offset : Nat) (item : Item) :
    ItemAt (base + UInt16.ofNat n) (bytes.drop n) offset item ↔ ItemAt base bytes (n + offset) item := by
  have haddress : ((base.toNat + n) % UInt16.size + offset) % UInt16.size =
      (base.toNat + (n + offset)) % UInt16.size := by
    rw [Nat.mod_add_mod, Nat.add_assoc]
  rw [itemAt_iff, itemAt_iff, toNat_add_ofNat, haddress, List.getElem?_drop, List.length_drop,
    List.drop_drop, Nat.sub_sub]

theorem ItemAt.address {base : UInt16} {bytes : List UInt8} {item : Item} (h : ItemAt base bytes 0 item) :
    item.address = base := by
  apply UInt16.toNat_inj.mp
  rw [h.address_eq, Nat.add_zero, Nat.mod_eq_of_lt base.toNat_lt_size]

theorem itemAt_read (base : UInt16) (opcode : UInt8) (rest : List UInt8) :
    ItemAt base (opcode :: rest) 0 (Item.read base opcode rest) := by
  have haddress : base.toNat = (base.toNat + 0) % UInt16.size := (Nat.mod_eq_of_lt base.toNat_lt_size).symm
  obtain ⟨hno, hread⟩ | ⟨row, hrow, rfl, hread⟩ := Item.read_cases base opcode rest
  · rw [hread]
    exact
      { address_eq := haddress
        opcode_eq := rfl
        unknown_iff := ⟨fun _ => hno, fun _ => rfl⟩
        unknown_len := fun _ => rfl
        truncated_iff := ⟨nofun, fun ⟨r, hr, hcode, _⟩ => absurd hcode (hno r hr)⟩
        truncated := nofun
        instruction := nofun }
  have hknown : ¬ ∀ r ∈ Opcode.documented, r.code ≠ row.code := fun h => h row hrow rfl
  obtain ⟨hshort, hread⟩ | ⟨hfull, hread⟩ := hread
  · have hlen : (row.code :: rest).length < row.len := by
      rw [List.length_cons, Opcode.len]
      omega
    rw [hread]
    exact
      { address_eq := haddress
        opcode_eq := rfl
        unknown_iff := ⟨nofun, fun h => absurd h hknown⟩
        unknown_len := nofun
        truncated_iff := ⟨fun _ => ⟨row, hrow, rfl, hlen⟩, fun _ => rfl⟩
        truncated := by
          intro address opcode held expectedLen h
          cases h
          exact ⟨rfl, Nat.succ_pos _, hlen, row, hrow, rfl, rfl⟩
        instruction := nofun }
  · have hlen : ¬ ∃ r ∈ Opcode.documented, r.code = row.code ∧ (row.code :: rest).length < r.len := by
      intro h
      obtain ⟨r, hr, hcode, hlen⟩ := h
      -- A code has one row, so a longer row with this code is this row.
      rw [Opcode.code_injOn hr hrow hcode, List.length_cons, Opcode.len] at hlen
      omega
    rw [hread]
    exact
      { address_eq := haddress
        opcode_eq := rfl
        unknown_iff := ⟨nofun, fun h => absurd h hknown⟩
        unknown_len := nofun
        truncated_iff := ⟨nofun, fun h => absurd h hlen⟩
        truncated := nofun
        instruction := by
          intro i h
          cases h
          exact ⟨row, hrow, rfl, row.instruction_follows base (List.length_take_of_le hfull)⟩ }

/-- No other item fits the description with bytes that stand at its place. -/
theorem ItemAt.eq_read {base : UInt16} {opcode : UInt8} {rest : List UInt8} {item : Item}
    (h : ItemAt base (opcode :: rest) 0 item) (hbytes : item.bytes <+: opcode :: rest) :
    item = Item.read base opcode rest := by
  have hopcode : item.opcode = opcode := (Option.some.inj h.opcode_eq).symm
  cases item with
  | unknown address code =>
    obtain rfl : address = base := h.address
    obtain rfl : code = opcode := hopcode
    exact (Item.read_undocumented (h.unknown_iff.mp rfl)).symm
  | truncated address code held expectedLen =>
    obtain rfl : address = base := h.address
    obtain rfl : code = opcode := hopcode
    obtain ⟨hheld, -, hlen, row, hrow, rfl, rfl⟩ := h.truncated _ _ _ _ rfl
    subst hheld
    have hshort : rest.length < row.mode.operandLen := by
      rw [List.drop_zero, List.length_cons, Opcode.len] at hlen
      omega
    exact (Item.read_short hrow hshort).symm
  | instruction i =>
    obtain rfl : i.address = base := h.address
    obtain ⟨row, hrow, hcode, hfollows⟩ := h.instruction i rfl
    obtain rfl : row.code = opcode := hcode.trans hopcode
    have hlen : i.bytes.length = row.mode.operandLen + 1 := hfollows.length_eq.trans (Nat.add_comm _ _)
    have htake : i.bytes = row.code :: rest.take row.mode.operandLen := by
      have hfront : i.bytes = (row.code :: rest).take i.bytes.length := List.prefix_iff_eq_take.mp hbytes
      rwa [hlen, List.take_succ_cons] at hfront
    have hfull : row.mode.operandLen ≤ rest.length := by
      rw [htake, List.length_cons, List.length_take] at hlen
      omega
    rw [Item.read_full hrow hfull]
    exact congrArg Item.instruction (hfollows.eq htake hcode)

theorem tiling_cons_iff {base : UInt16} {bytes : List UInt8} {item : Item} {items : List Item} :
    Tiling base bytes (item :: items) ↔
      ItemAt base bytes 0 item ∧ item.bytes <+: bytes ∧ (item.isTruncated → items = []) ∧
        Tiling (base + UInt16.ofNat item.len) (bytes.drop item.len) items := by
  constructor
  · intro h
    have hbytes : item.bytes ++ items.flatMap Item.bytes = bytes := h.bytes_eq
    refine ⟨h.itemAt [] item items rfl, ⟨_, hbytes⟩, h.truncated_last [] item items rfl, ?_, ?_, ?_⟩
    · rw [← hbytes]
      exact (List.drop_left' rfl).symm
    · intro before next after hitems
      subst hitems
      have hnext := h.itemAt (item :: before) next after rfl
      rw [List.flatMap_cons, List.length_append] at hnext
      exact (itemAt_drop base bytes item.len _ next).mpr hnext
    · intro before next after hitems
      exact h.truncated_last (item :: before) next after (congrArg (item :: ·) hitems)
  · intro h
    obtain ⟨hitem, ⟨rest, rfl⟩, hlast, hrest⟩ := h
    obtain ⟨hbytes, hitems, hlasts⟩ := hrest
    refine ⟨?_, ?_, ?_⟩
    · rw [List.flatMap_cons, hbytes]
      exact congrArg (item.bytes ++ ·) (List.drop_left' rfl)
    · intro before next after hsplit
      cases before with
      | nil =>
        cases hsplit
        exact hitem
      | cons first before =>
        cases hsplit
        rw [List.flatMap_cons, List.length_append]
        exact (itemAt_drop base _ item.len _ next).mp (hitems before next after rfl)
    · intro before next after hsplit
      cases before with
      | nil =>
        cases hsplit
        exact hlast
      | cons first before =>
        cases hsplit
        exact hlasts before next after rfl

theorem sweep_induction {motive : UInt16 → List UInt8 → Prop} (nil : ∀ base, motive base [])
    (cons : ∀ base opcode rest,
      motive (base + UInt16.ofNat (Item.read base opcode rest).len)
        (rest.drop ((Item.read base opcode rest).len - 1)) → motive base (opcode :: rest))
    (base : UInt16) (bytes : List UInt8) : motive base bytes := by
  induction hn : bytes.length using Nat.strongRecOn generalizing base bytes with
  | ind n ih =>
    cases bytes with
    | nil => exact nil base
    | cons opcode rest =>
      refine cons base opcode rest (ih _ ?_ _ _ rfl)
      rw [← hn, List.length_drop, List.length_cons]
      omega

theorem exists_read_of_mem_sweep {base : UInt16} {bytes : List UInt8} {item : Item}
    (h : item ∈ sweep base bytes) : ∃ address opcode behind, item = Item.read address opcode behind := by
  induction base, bytes using sweep_induction with
  | nil base => cases h
  | cons base opcode rest ih =>
    rw [sweep_cons] at h
    rcases List.mem_cons.mp h with hfirst | hrest
    · exact ⟨base, opcode, rest, hfirst⟩
    · exact ih hrest

theorem Item.len_pos_of_mem_sweep {base : UInt16} {bytes : List UInt8} {item : Item}
    (h : item ∈ sweep base bytes) : 0 < item.len := by
  obtain ⟨address, opcode, behind, rfl⟩ := exists_read_of_mem_sweep h
  exact Item.len_read_pos address opcode behind

/-- Address and bytes tell the items of sweeps apart. -/
theorem Item.eq_of_mem_sweep {base base' : UInt16} {bytes bytes' : List UInt8} {item item' : Item}
    (h : item ∈ sweep base bytes) (h' : item' ∈ sweep base' bytes') (haddress : item.address = item'.address)
    (hbytes : item.bytes = item'.bytes) : item = item' := by
  obtain ⟨address, opcode, behind, rfl⟩ := exists_read_of_mem_sweep h
  obtain ⟨address', opcode', behind', rfl⟩ := exists_read_of_mem_sweep h'
  obtain ⟨body, hbody, hread⟩ := Item.read_own_bytes address opcode behind
  obtain ⟨body', hbody', hread'⟩ := Item.read_own_bytes address' opcode' behind'
  rw [Item.address_read, Item.address_read] at haddress
  rw [hbody, hbody'] at hbytes
  obtain ⟨rfl, rfl⟩ := List.cons.inj hbytes
  rw [← hread, ← hread', haddress]

/-- An instruction of a sweep is one of a row's, with as many operand bytes as the mode takes. -/
theorem instruction_of_mem_sweep {base : UInt16} {bytes : List UInt8} {i : Instruction}
    (h : .instruction i ∈ sweep base bytes) : ∃ row ∈ Opcode.documented, ∃ body : List UInt8,
      body.length = row.mode.operandLen ∧ i = row.instruction i.address body := by
  obtain ⟨address, opcode, behind, hi⟩ := exists_read_of_mem_sweep h
  obtain ⟨-, hread⟩ | ⟨row, hrow, rfl, ⟨-, hread⟩ | ⟨hfull, hread⟩⟩ :=
    Item.read_cases address opcode behind
  · cases hi.trans hread
  · cases hi.trans hread
  · cases hi.trans hread
    exact ⟨row, hrow, _, List.length_take_of_le hfull, rfl⟩

theorem Item.drop_len_read (base : UInt16) (opcode : UInt8) (rest : List UInt8) :
    (opcode :: rest).drop (Item.read base opcode rest).len =
      rest.drop ((Item.read base opcode rest).len - 1) := by
  obtain ⟨n, hn⟩ := Item.len_read_succ base opcode rest
  rw [hn]
  rfl

theorem Item.bytes_read (base : UInt16) (opcode : UInt8) (rest : List UInt8) :
    (Item.read base opcode rest).bytes <+: opcode :: rest ∧
      ((Item.read base opcode rest).isTruncated → (Item.read base opcode rest).bytes = opcode :: rest) := by
  obtain ⟨-, hread⟩ | ⟨row, -, rfl, ⟨-, hread⟩ | ⟨-, hread⟩⟩ := Item.read_cases base opcode rest
  · rw [hread]
    exact ⟨⟨rest, rfl⟩, nofun⟩
  · rw [hread]
    exact ⟨List.prefix_rfl, fun _ => rfl⟩
  · rw [hread]
    exact ⟨List.cons_prefix_cons.mpr ⟨rfl, List.take_prefix _ _⟩, nofun⟩

theorem tiling_sweep (base : UInt16) (bytes : List UInt8) : Tiling base bytes (sweep base bytes) := by
  induction base, bytes using sweep_induction with
  | nil base => exact ⟨rfl, by simp, by simp⟩
  | cons base opcode rest ih =>
    obtain ⟨hfront, hall⟩ := Item.bytes_read base opcode rest
    have hdrop := Item.drop_len_read base opcode rest
    rw [sweep_cons, tiling_cons_iff, hdrop]
    refine ⟨itemAt_read base opcode rest, hfront, fun h => ?_, ih⟩
    rw [← hdrop, Item.len, hall h, List.drop_length, sweep_nil]

/-- The sweep is the only list that fits the description. -/
theorem tiling_iff_eq_sweep (base : UInt16) (bytes : List UInt8) (items : List Item) :
    Tiling base bytes items ↔ items = sweep base bytes := by
  constructor
  · intro h
    -- The first item is forced, and its length settles where the next one starts.
    induction items generalizing base bytes with
    | nil => rw [← h.bytes_eq, List.flatMap_nil, sweep_nil]
    | cons item items ih =>
      obtain ⟨hitem, hbytes, -, hitems⟩ := tiling_cons_iff.mp h
      cases bytes with
      | nil => exact absurd hitem.opcode_eq (by simp)
      | cons opcode rest =>
        obtain rfl := hitem.eq_read hbytes
        rw [sweep_cons, ih _ _ hitems, Item.drop_len_read]
  · intro h
    rw [h]
    exact tiling_sweep base bytes

end Disasm6502
