import Disasm6502.Proofs.Sweep.Tiling
import Disasm6502.Total

/-!
# Cutting a sweep

A sweep has no memory: behind any of its items it goes on as a sweep that starts there, so two sweeps that meet
go on alike. Cutting the bytes short keeps the items that end in front of the cut and makes one item that is cut
off of what is left.
-/
namespace Disasm6502

/-- How many bytes items take up. -/
def extent (items : List Item) : Nat :=
  total (items.map Item.len)

@[simp] theorem extent_nil : extent [] = 0 := rfl

@[simp] theorem extent_cons (item : Item) (items : List Item) :
    extent (item :: items) = item.len + extent items := rfl

@[simp] theorem extent_append (first second : List Item) :
    extent (first ++ second) = extent first + extent second := by
  simp [extent]

theorem length_flatMap_bytes (items : List Item) : (items.flatMap Item.bytes).length = extent items := by
  induction items with
  | nil => rfl
  | cons item items ih =>
    rw [List.flatMap_cons, List.length_append, ih]
    rfl

theorem extent_mono {first items : List Item} (h : first <+: items) : extent first ≤ extent items := by
  obtain ⟨rest, rfl⟩ := h
  rw [extent_append]
  exact Nat.le_add_right _ _

namespace Item

variable {address : UInt16} {opcode : UInt8} {behind : List UInt8} {n : Nat}

/-- Bytes behind an item have no say in it. -/
theorem read_take (h : (read address opcode behind).len ≤ n + 1) :
    read address opcode (behind.take n) = read address opcode behind := by
  obtain ⟨hno, hread⟩ | ⟨row, hrow, rfl, ⟨-, hread⟩ | ⟨hfull, hread⟩⟩ := read_cases address opcode behind
  · rw [hread, read_undocumented hno]
  · have hall : behind.length ≤ n := by
      rw [hread] at h
      exact Nat.le_of_succ_le_succ h
    rw [List.take_of_length_le hall]
  · have hbody : row.mode.operandLen ≤ n := by
      rw [hread, len, bytes, Opcode.instruction, List.length_cons, List.length_take_of_le hfull] at h
      omega
    have hfull' : row.mode.operandLen ≤ (behind.take n).length := by
      rw [List.length_take]
      omega
    rw [read_full hrow hfull', List.take_take, Nat.min_eq_left hbody, hread]

/-- Where the bytes end within an item, what is left of it is cut off. -/
theorem read_take_of_lt (h : n + 1 < (read address opcode behind).len) :
    (read address opcode behind).isUnknown = false ∧ ∃ row ∈ Opcode.documented, row.code = opcode ∧
      read address opcode (behind.take n) = .truncated address opcode (opcode :: behind.take n) row.len := by
  obtain ⟨-, hread⟩ | ⟨row, hrow, rfl, hread⟩ := read_cases address opcode behind
  · have hlen : (read address opcode behind).len = 1 := by
      rw [hread]
      rfl
    omega
  have hshort : n < row.mode.operandLen := by
    obtain ⟨hshort, hread⟩ | ⟨hfull, hread⟩ := hread
    · rw [hread, len, bytes, List.length_cons] at h
      omega
    · rw [hread, len, bytes, Opcode.instruction, List.length_cons, List.length_take_of_le hfull] at h
      omega
  have hleft : (behind.take n).length < row.mode.operandLen := by
    rw [List.length_take]
    omega
  refine ⟨?_, row, hrow, rfl, read_short hrow hleft⟩
  obtain ⟨-, hread⟩ | ⟨-, hread⟩ := hread
  all_goals
    rw [hread]
    rfl

theorem opcode_read (address : UInt16) (opcode : UInt8) (behind : List UInt8) :
    (read address opcode behind).opcode = opcode := by
  obtain ⟨-, hread⟩ | ⟨row, -, rfl, ⟨-, hread⟩ | ⟨-, hread⟩⟩ := read_cases address opcode behind
  all_goals
    rw [hread]
    rfl

end Item

section

variable {base : UInt16} {bytes : List UInt8} {item : Item} {items before after : List Item} {k : Nat}

theorem sweep_read_cons (base : UInt16) (opcode : UInt8) (rest : List UInt8) :
    sweep base (opcode :: rest) = Item.read base opcode rest ::
      sweep (base + UInt16.ofNat (Item.read base opcode rest).len)
        ((opcode :: rest).drop (Item.read base opcode rest).len) := by
  rw [sweep_cons, Item.drop_len_read]

/-- The first item of a sweep is what its bytes read as. -/
theorem sweep_eq_cons (h : sweep base bytes = item :: items) :
    (∃ opcode rest, bytes = opcode :: rest ∧ item = Item.read base opcode rest) ∧
      sweep (base + UInt16.ofNat item.len) (bytes.drop item.len) = items := by
  cases bytes with
  | nil => cases h
  | cons opcode rest =>
    rw [sweep_read_cons] at h
    obtain ⟨rfl, rfl⟩ := List.cons.inj h
    exact ⟨⟨opcode, rest, rfl, rfl⟩, rfl⟩

/-- Behind any of its items a sweep goes on as a sweep that starts there. -/
theorem sweep_behind (h : sweep base bytes = before ++ after) :
    sweep (base + UInt16.ofNat (extent before)) (bytes.drop (extent before)) = after := by
  induction before generalizing base bytes with
  | nil =>
    have hbase : base + UInt16.ofNat 0 = base := UInt16.add_zero base
    rw [extent_nil, hbase]
    exact h
  | cons item before ih =>
    rw [extent_cons, UInt16.ofNat_add, ← UInt16.add_assoc, ← List.drop_drop]
    exact ih (sweep_eq_cons h).2

theorem extent_sweep (base : UInt16) (bytes : List UInt8) : extent (sweep base bytes) = bytes.length := by
  rw [← length_flatMap_bytes, (tiling_sweep base bytes).bytes_eq]

theorem extent_le_length (h : sweep base bytes = before ++ after) : extent before ≤ bytes.length := by
  rw [← extent_sweep base bytes, h, extent_append]
  exact Nat.le_add_right _ _

/-- The items in front of a cut at `k`: they end there or before, and the next one does not. -/
structure CutAt (k : Nat) (before after : List Item) : Prop where
  ends_le : extent before ≤ k
  lt_next : ∀ next ∈ after.head?, k < extent before + next.len

theorem exists_cutAt (k : Nat) (items : List Item) :
    ∃ before after, items = before ++ after ∧ CutAt k before after := by
  induction items generalizing k with
  | nil => exact ⟨[], [], rfl, Nat.zero_le k, nofun⟩
  | cons item items ih =>
    by_cases hitem : item.len ≤ k
    · obtain ⟨before, after, rfl, hends, hnext⟩ := ih (k - item.len)
      refine ⟨item :: before, after, rfl, ?_, fun next hmem => ?_⟩
      · rw [extent_cons]
        omega
      · have hlt := hnext next hmem
        rw [extent_cons]
        omega
    · refine ⟨[], item :: items, rfl, Nat.zero_le k, fun next hmem => ?_⟩
      obtain rfl : item = next := by simpa using hmem
      rw [extent_nil]
      omega

/-- An item is in front of a cut if it ends there or before. -/
theorem CutAt.lt_length_iff (hcut : CutAt k before after) {place : Nat}
    (hplace : place < (before ++ after).length) :
    place < before.length ↔ extent ((before ++ after).take (place + 1)) ≤ k := by
  constructor
  · intro hlt
    have hfront : (before ++ after).take (place + 1) <+: before := by
      rw [List.take_append_of_le_length hlt]
      exact List.take_prefix _ _
    exact (extent_mono hfront).trans hcut.ends_le
  · intro hle
    by_contra hge
    obtain ⟨next, later, rfl⟩ : ∃ next later, after = next :: later := by
      apply List.exists_cons_of_ne_nil
      rintro rfl
      rw [List.append_nil] at hplace
      exact hge hplace
    have hfront : before ++ [next] <+: (before ++ next :: later).take (place + 1) := by
      refine List.prefix_take_iff.mpr ⟨⟨later, (List.append_cons ..).symm⟩, ?_⟩
      rw [List.length_append, List.length_singleton]
      omega
    have hends := extent_mono hfront
    have hlt := hcut.lt_next next rfl
    rw [extent_append, extent_cons, extent_nil] at hends
    omega

/-- A cut behind the first item leaves it as it is. -/
theorem sweep_take_cons (h : sweep base bytes = item :: items) (hk : item.len ≤ k) :
    sweep base (bytes.take k) =
      item :: sweep (base + UInt16.ofNat item.len) ((bytes.drop item.len).take (k - item.len)) := by
  obtain ⟨⟨opcode, rest, rfl, rfl⟩, -⟩ := sweep_eq_cons h
  obtain ⟨n, rfl⟩ : ∃ n, k = n + 1 := by
    have hpos := Item.len_read_pos base opcode rest
    exact ⟨k - 1, by omega⟩
  have hread := Item.read_take hk
  rw [List.take_succ_cons, sweep_read_cons, hread, ← List.drop_take, List.take_succ_cons]

/-- A cut within the first item leaves one item that is cut off. -/
theorem sweep_take_within (h : sweep base bytes = item :: items) (hpos : 0 < k) (hk : k < item.len) :
    item.isUnknown = false ∧ ∃ row ∈ Opcode.documented, row.code = item.opcode ∧
      sweep base (bytes.take k) = [.truncated item.address item.opcode (bytes.take k) row.len] := by
  obtain ⟨⟨opcode, rest, rfl, rfl⟩, -⟩ := sweep_eq_cons h
  obtain ⟨n, rfl⟩ : ∃ n, k = n + 1 := ⟨k - 1, by omega⟩
  obtain ⟨hknown, row, hrow, hcode, hread⟩ := Item.read_take_of_lt hk
  refine ⟨hknown, row, hrow, ?_, ?_⟩
  · rw [Item.opcode_read, hcode]
  · -- The item that is cut off holds all the bytes, so that nothing follows it.
    have hnothing : (opcode :: rest.take n).drop
        (Item.truncated base opcode (opcode :: rest.take n) row.len).len = [] := List.drop_length
    rw [List.take_succ_cons, sweep_read_cons, hread, hnothing, sweep_nil, Item.address_read, Item.opcode_read]

/-- What a cut leaves of the items of `bytes`. -/
theorem sweep_take_of_cutAt (h : sweep base bytes = before ++ after) (hcut : CutAt k before after)
    (hk : k ≤ bytes.length) :
    (extent before = k ∧ sweep base (bytes.take k) = before) ∨
      (extent before < k ∧ ∃ next later, after = next :: later ∧ next.isUnknown = false ∧
        ∃ row ∈ Opcode.documented, row.code = next.opcode ∧ sweep base (bytes.take k) =
          before ++ [.truncated next.address next.opcode ((bytes.take k).drop (extent before)) row.len]) := by
  induction before generalizing base bytes k with
  | nil =>
    by_cases hzero : k = 0
    · subst hzero
      exact .inl ⟨rfl, by rw [List.take_zero, sweep_nil]⟩
    · have hpos : 0 < k := Nat.pos_of_ne_zero hzero
      obtain ⟨next, later, rfl⟩ : ∃ next later, after = next :: later := by
        apply List.exists_cons_of_ne_nil
        rintro rfl
        have hnone := extent_sweep base bytes
        rw [h, List.append_nil, extent_nil] at hnone
        omega
      have hlt := hcut.lt_next next rfl
      rw [extent_nil, Nat.zero_add] at hlt
      obtain ⟨hknown, row, hrow, hcode, hsweep⟩ := sweep_take_within h hpos hlt
      exact .inr ⟨hpos, next, later, rfl, hknown, row, hrow, hcode, hsweep⟩
  | cons item before ih =>
    have hends := hcut.ends_le
    rw [extent_cons] at hends
    have hcut' : CutAt (k - item.len) before after := by
      refine ⟨by omega, fun next hnext => ?_⟩
      have hlt := hcut.lt_next next hnext
      rw [extent_cons] at hlt
      omega
    have hk' : k - item.len ≤ (bytes.drop item.len).length := by
      rw [List.length_drop]
      omega
    have hstep := sweep_take_cons h (Nat.le_trans (Nat.le_add_right _ _) hends)
    obtain ⟨hall, hsweep⟩ | ⟨hlt, next, later, hafter, hknown, row, hrow, hcode, hsweep⟩ :=
      ih (sweep_eq_cons h).2 hcut' hk'
    · refine .inl ⟨?_, ?_⟩
      · rw [extent_cons]
        omega
      · rw [hstep, hsweep]
    · refine .inr ⟨?_, next, later, hafter, hknown, row, hrow, hcode, ?_⟩
      · rw [extent_cons]
        omega
      · rw [hstep, hsweep, ← List.drop_take, List.drop_drop, extent_cons, List.cons_append]

end

/-- A sweep can be stopped behind any of its items and taken up again there: bytes that leave no item cut off may
be followed by any others, and sweeps that meet go on alike. -/
theorem sweep_resumes (base : UInt16) (bytes : List UInt8) :
    ((∀ item ∈ sweep base bytes, item.isTruncated = false) → ∀ more,
      sweep base (bytes ++ more) = sweep base bytes ++ sweep (base + UInt16.ofNat bytes.length) more) ∧
    (∀ i j before after, sweep (base + UInt16.ofNat i) (bytes.drop i) = before ++ after →
      i + extent before = j → sweep (base + UInt16.ofNat j) (bytes.drop j) = after) ∧
    ∀ i before after i' before' after', sweep (base + UInt16.ofNat i) (bytes.drop i) = before ++ after →
      sweep (base + UInt16.ofNat i') (bytes.drop i') = before' ++ after' →
      i + extent before = i' + extent before' → after = after' := by
  have hbehind : ∀ i j before after, sweep (base + UInt16.ofNat i) (bytes.drop i) = before ++ after →
      i + extent before = j → sweep (base + UInt16.ofNat j) (bytes.drop j) = after := by
    rintro i _ before after h rfl
    rw [UInt16.ofNat_add, ← UInt16.add_assoc, ← List.drop_drop]
    exact sweep_behind h
  refine ⟨fun hwhole more => ?_, hbehind, fun i before after i' before' after' h h' hmeet => ?_⟩
  · obtain ⟨before, after, hsplit, hcut⟩ := exists_cutAt bytes.length (sweep base (bytes ++ more))
    have hlen : bytes.length ≤ (bytes ++ more).length := by simp
    have htake := sweep_take_of_cutAt hsplit hcut hlen
    rw [List.take_left' rfl] at htake
    obtain ⟨hall, hbefore⟩ | ⟨-, next, later, -, -, row, -, -, hbytes⟩ := htake
    · have hafter := sweep_behind hsplit
      rw [hall, List.drop_left' rfl] at hafter
      rw [hsplit, hbefore, hafter]
    · -- Only an item that the end of `bytes` cuts off could reach over the seam.
      have htruncated := hwhole _ (hbytes ▸ List.mem_append_right before List.mem_cons_self)
      cases htruncated
  · rw [← hbehind i _ before after h rfl, ← hbehind i' _ before' after' h' hmeet.symm]

/-- Sweeps from the first and from the second byte differ at first and meet at the fourth. -/
theorem sweep_resumes_meeting :
    let bytes : List UInt8 := [0x4C, 0xA9, 0x05, 0xEA]
    let jump : Item := .instruction ⟨0xFFFE, 0x4C, [0x4C, 0xA9, 0x05], "JMP", .absolute, some (.word 0x05A9), none⟩
    let load : Item := .instruction ⟨0xFFFF, 0xA9, [0xA9, 0x05], "LDA", .immediate, some (.byte 0x05), none⟩
    let idle : Item := .instruction ⟨0x0001, 0xEA, [0xEA], "NOP", .implicit, none, none⟩
    sweep 0xFFFE bytes = [jump] ++ [idle] ∧ sweep 0xFFFF (bytes.drop 1) = [load] ++ [idle] ∧
      sweep 0x0001 (bytes.drop 3) = [idle] ∧
      sweep 0xFFFE (bytes ++ [0x20, 0x00]) = [jump, idle] ++ [.truncated 0x0002 0x20 [0x20, 0x00] 3] := by
  intro bytes jump load idle
  obtain ⟨hmore, hbehind, hmeet⟩ := sweep_resumes 0xFFFE bytes
  have hfirst : sweep 0xFFFE bytes = [jump] ++ [idle] := by decide +kernel
  have hsecond : sweep 0xFFFF (bytes.drop 1) = [load] ++ sweep 0x0001 (bytes.drop 3) := by decide +kernel
  have hidle : [idle] = sweep 0x0001 (bytes.drop 3) :=
    hmeet 0 [jump] [idle] 1 [load] _ hfirst hsecond rfl
  refine ⟨hfirst, ?_, hbehind 0 3 [jump] [idle] hfirst rfl, ?_⟩
  · rw [hsecond, ← hidle]
  · rw [hmore (by decide +kernel), hfirst]
    decide +kernel

/-- Cutting bytes short leaves the items that end in front of the cut and, unless these take up all the bytes
that are left, one item that is cut off. -/
theorem sweep_take {base : UInt16} {bytes : List UInt8} {k : Nat} (hk : k ≤ bytes.length) :
    ∃ count ≤ (sweep base bytes).length,
      (∀ place < (sweep base bytes).length,
        place < count ↔ extent ((sweep base bytes).take (place + 1)) ≤ k) ∧
      let kept := (sweep base bytes).take count
      (extent kept = k ∧ sweep base (bytes.take k) = kept) ∨
        (extent kept < k ∧ ∃ next, (sweep base bytes)[count]? = some next ∧ next.isUnknown = false ∧
          ∃ row ∈ Opcode.documented, row.code = next.opcode ∧ sweep base (bytes.take k) =
            kept ++ [.truncated next.address next.opcode ((bytes.take k).drop (extent kept)) row.len]) := by
  obtain ⟨before, after, hsplit, hcut⟩ := exists_cutAt k (sweep base bytes)
  have htake := sweep_take_of_cutAt hsplit hcut hk
  rw [hsplit]
  refine ⟨before.length, ?_, fun place hplace => hcut.lt_length_iff hplace, ?_⟩
  · rw [List.length_append]
    exact Nat.le_add_right _ _
  · rw [List.take_left' rfl]
    obtain hall | ⟨hlt, next, later, rfl, hknown, hnext⟩ := htake
    · exact .inl hall
    · have hplace : (before ++ next :: later)[before.length]? = some next := by
        rw [List.getElem?_append_right (Nat.le_refl _), Nat.sub_self, List.getElem?_cons_zero]
      exact .inr ⟨hlt, next, hplace, hknown, hnext⟩

/-- A cut between the two operand bytes of the second of three instructions. -/
theorem sweep_take_operand :
    let bytes : List UInt8 := [0xA9, 0x05, 0x8D, 0x00, 0x20, 0xEA]
    4 ≤ bytes.length ∧ sweep 0x1000 (bytes.take 4) =
      [.instruction ⟨0x1000, 0xA9, [0xA9, 0x05], "LDA", .immediate, some (.byte 0x05), none⟩,
        .truncated 0x1002 0x8D [0x8D, 0x00] 3] := by
  intro bytes
  have hk : 4 ≤ bytes.length := by decide
  obtain ⟨count, -, hcount, hkept⟩ := @sweep_take 0x1000 bytes 4 hk
  obtain rfl : count = 1 := by
    have hfirst : 0 < count := (hcount 0 (by decide +kernel)).mpr (by decide +kernel)
    have hsecond : ¬ 1 < count := fun h => absurd ((hcount 1 (by decide +kernel)).mp h) (by decide +kernel)
    omega
  obtain ⟨hall, -⟩ | ⟨-, next, hnext, -, row, hrow, hcode, hsweep⟩ := hkept
  · exact absurd hall (by decide +kernel)
  · have hstore : (sweep 0x1000 bytes)[1]? =
        some (.instruction ⟨0x1002, 0x8D, [0x8D, 0x00, 0x20], "STA", .absolute, some (.word 0x2000), none⟩) := by
      decide +kernel
    obtain rfl := Option.some.inj (hnext.symm.trans hstore)
    obtain rfl : row = ⟨0x8D, "STA", .absolute⟩ := Opcode.code_injOn hrow (by decide +kernel) hcode
    exact ⟨hk, hsweep.trans (by decide +kernel)⟩

end Disasm6502
