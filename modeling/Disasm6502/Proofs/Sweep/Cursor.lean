import Disasm6502.Proofs.Sweep.Cutting
import Disasm6502.Sweep.Iterator
import Mathlib.Algebra.Order.Floor.Div
import Mathlib.Data.List.Forall2

/-!
# Cursors stand for lists

A cursor and its copies answer whatever they are asked as the list of all items would from the items on that are
not yet taken. Where a cursor stands is told by how many items it has handed out, and the bytes ahead bound the
items ahead, since an item takes one to three bytes.
-/
namespace Disasm6502

namespace Iterator

/-- What is asked of a list of which `taken` items are gone. -/
def answerFrom (items : List Item) (taken : Nat) : Call → Answer × Nat
  | .next => (.item items[taken]?, min (taken + 1) items.length)
  | .nth n => (.item items[taken + n]?, min (taken + n + 1) items.length)
  | .rest => (.items (items.drop taken), items.length)
  | .count => (.number (items.length - taken), taken)
  | .last => (.item (items.drop taken).getLast?, taken)

theorem answerFrom_le {items : List Item} {taken : Nat} (h : taken ≤ items.length) (c : Call) :
    (answerFrom items taken c).2 ≤ items.length := by
  cases c with
  | next | nth => exact Nat.min_le_right _ _
  | rest => exact Nat.le_refl _
  | count | last => exact h

/-- Iterators that answer alike and stay related do so over any steps on a row of them. -/
theorem run_map {σ τ : Type} {answer : σ → Call → Answer × σ} {answer' : τ → Call → Answer × τ} {f : σ → τ}
    {Holds : σ → Prop} (hholds : ∀ s, Holds s → ∀ c, Holds (answer s c).2)
    (hanswer : ∀ s, Holds s → ∀ c, answer' (f s) c = ((answer s c).1, f (answer s c).2))
    (steps : List (Nat × Step)) {row : List σ} (hrow : ∀ s ∈ row, Holds s) :
    run answer' (row.map f) steps = (run answer row steps).map (fun told => (told.1, f told.2)) ∧
      ∀ told ∈ run answer row steps, Holds told.2 := by
  induction steps generalizing row with
  | nil => exact ⟨rfl, nofun⟩
  | cons step steps ih =>
    obtain ⟨place, step⟩ := step
    cases hplace : row[place]? with
    | none =>
      have hplace' : (row.map f)[place]? = none := by rw [List.getElem?_map, hplace, Option.map_none]
      simp only [run, hplace, hplace']
      exact ih hrow
    | some s =>
      have hplace' : (row.map f)[place]? = some (f s) := by rw [List.getElem?_map, hplace, Option.map_some]
      have hs : Holds s := hrow s (List.mem_of_getElem? hplace)
      cases step with
      | clone =>
        have hlonger : ∀ t ∈ row ++ [s], Holds t := by
          intro t ht
          rcases List.mem_append.mp ht with ht | ht
          · exact hrow t ht
          · rwa [List.mem_singleton.mp ht]
        obtain ⟨hrun, hall⟩ := ih hlonger
        rw [List.map_append, List.map_singleton] at hrun
        simp only [run, hplace, hplace', List.length_map, List.map_cons, List.forall_mem_cons]
        exact ⟨congrArg _ hrun, hs, hall⟩
      | call c =>
        have hchanged : ∀ t ∈ row.set place (answer s c).2, Holds t := by
          intro t ht
          rcases List.mem_or_eq_of_mem_set ht with ht | rfl
          · exact hrow t ht
          · exact hholds s hs c
        obtain ⟨hrun, hall⟩ := ih hchanged
        rw [List.map_set] at hrun
        simp only [run, hplace, hplace', hanswer s hs c, List.map_cons, List.forall_mem_cons]
        exact ⟨congrArg _ hrun, hholds s hs c, hall⟩

end Iterator

theorem Item.len_le_of_mem_sweep {base : UInt16} {bytes : List UInt8} {item : Item} (h : item ∈ sweep base bytes) :
    item.len ≤ 3 := by
  obtain ⟨address, opcode, behind, rfl⟩ := exists_read_of_mem_sweep h
  obtain ⟨-, hread⟩ | ⟨row, -, rfl, ⟨hshort, hread⟩ | ⟨hfull, hread⟩⟩ := Item.read_cases address opcode behind
  · rw [hread, Item.len, Item.bytes, List.length_singleton]
    omega
  · have hle := row.mode.operandLen_le
    rw [hread, Item.len, Item.bytes, List.length_cons]
    omega
  · have hle := row.mode.operandLen_le
    rw [hread, Item.len, Item.bytes, Opcode.instruction, List.length_cons, List.length_take_of_le hfull]
    omega

theorem length_le_extent {items : List Item} (h : ∀ item ∈ items, 0 < item.len) : items.length ≤ extent items := by
  induction items with
  | nil => exact Nat.le_refl 0
  | cons item items ih =>
    obtain ⟨hitem, hitems⟩ := List.forall_mem_cons.mp h
    have hle := ih hitems
    rw [List.length_cons, extent_cons]
    omega

theorem extent_le_mul_length {items : List Item} {most : Nat} (h : ∀ item ∈ items, item.len ≤ most) :
    extent items ≤ most * items.length := by
  induction items with
  | nil => exact Nat.zero_le _
  | cons item items ih =>
    obtain ⟨hitem, hitems⟩ := List.forall_mem_cons.mp h
    have hle := ih hitems
    rw [List.length_cons, extent_cons, Nat.mul_succ]
    omega

namespace Cursor

/-- The cursor that has handed out the first `taken` items. -/
def past (base : UInt16) (bytes : List UInt8) (taken : Nat) : Cursor :=
  let offset := extent ((sweep base bytes).take taken)
  { address := base + UInt16.ofNat offset, offset, rest := bytes.drop offset }

variable {base : UInt16} {bytes : List UInt8} {taken : Nat}

theorem past_zero (base : UInt16) (bytes : List UInt8) : past base bytes 0 = ofBytes base bytes := by
  have hbase : base + UInt16.ofNat 0 = base := UInt16.add_zero base
  simp only [past, List.take_zero, extent_nil, hbase, List.drop_zero]
  rfl

theorem sweep_past (base : UInt16) (bytes : List UInt8) (taken : Nat) :
    sweep (past base bytes taken).address (past base bytes taken).rest = (sweep base bytes).drop taken :=
  sweep_behind (List.take_append_drop taken _).symm

theorem le_length_past (base : UInt16) (bytes : List UInt8) (taken : Nat) :
    extent ((sweep base bytes).take taken) ≤ bytes.length :=
  extent_le_length (List.take_append_drop taken _).symm

theorem next_past_of_lt (h : taken < (sweep base bytes).length) :
    (past base bytes taken).next = (some (sweep base bytes)[taken], past base bytes (taken + 1)) := by
  have hitems := sweep_past base bytes taken
  rw [List.drop_eq_getElem_cons h] at hitems
  obtain ⟨⟨opcode, behind, hrest, hitem⟩, -⟩ := sweep_eq_cons hitems
  have hextent : extent ((sweep base bytes).take (taken + 1)) =
      extent ((sweep base bytes).take taken) + (sweep base bytes)[taken].len := by
    rw [← List.take_concat_get' _ _ h, extent_append, extent_cons, extent_nil, Nat.add_zero]
  have hbehind : behind.drop ((sweep base bytes)[taken].len - 1) =
      (past base bytes taken).rest.drop (sweep base bytes)[taken].len := by
    rw [hrest, hitem, Item.drop_len_read]
  rw [next, hrest]
  dsimp only
  rw [← hitem, hbehind]
  simp only [past, hextent, UInt16.ofNat_add, UInt16.add_assoc, List.drop_drop]

theorem next_past_of_le (h : (sweep base bytes).length ≤ taken) :
    (past base bytes taken).next = (none, past base bytes taken) := by
  have hrest : (past base bytes taken).rest = [] := by
    simp only [past, List.take_of_length_le h, extent_sweep, List.drop_length]
  rw [next, hrest]

theorem next_past (h : taken ≤ (sweep base bytes).length) : (past base bytes taken).next =
    ((sweep base bytes)[taken]?, past base bytes (min (taken + 1) (sweep base bytes).length)) := by
  by_cases hlt : taken < (sweep base bytes).length
  · rw [next_past_of_lt hlt, List.getElem?_eq_getElem hlt, Nat.min_eq_left hlt]
  · have hge : (sweep base bytes).length ≤ taken := Nat.le_of_not_lt hlt
    rw [next_past_of_le hge, List.getElem?_eq_none hge, Nat.min_eq_right (by omega), Nat.le_antisymm h hge]

theorem nth_past (n : Nat) (h : taken ≤ (sweep base bytes).length) : (past base bytes taken).nth n =
    ((sweep base bytes)[taken + n]?, past base bytes (min (taken + n + 1) (sweep base bytes).length)) := by
  induction n generalizing taken with
  | zero => exact next_past h
  | succ n ih =>
    by_cases hlt : taken < (sweep base bytes).length
    · have hplace : taken + 1 + n = taken + (n + 1) := by omega
      rw [nth, next_past_of_lt hlt]
      dsimp only
      rw [ih hlt, hplace]
    · have hge : (sweep base bytes).length ≤ taken := Nat.le_of_not_lt hlt
      rw [nth, next_past_of_le hge]
      dsimp only
      rw [List.getElem?_eq_none (by omega), Nat.min_eq_right (by omega), Nat.le_antisymm h hge]

/-- Taking all items ahead is going through the rest of the list. -/
theorem fold_past {β : Type} (f : β → Item → β) (init : β) (h : taken ≤ (sweep base bytes).length) :
    (past base bytes taken).fold f init =
      (((sweep base bytes).drop taken).foldl f init, past base bytes (sweep base bytes).length) := by
  induction hahead : (sweep base bytes).length - taken generalizing taken init with
  | zero =>
    have hend : taken = (sweep base bytes).length := by omega
    rw [fold_of_next_none (next_past_of_le (Nat.le_of_eq hend.symm)), hend, List.drop_length, List.foldl_nil]
  | succ n ih =>
    have hlt : taken < (sweep base bytes).length := by omega
    rw [fold_of_next_some (next_past_of_lt hlt), ih _ hlt (by omega), List.drop_eq_getElem_cons hlt,
      List.foldl_cons]

theorem foldl_last (items : List Item) (init : Option Item) :
    items.foldl (fun _ item => some item) init = items.getLast?.or init := by
  induction items generalizing init with
  | nil => rfl
  | cons item items ih =>
    rw [List.foldl_cons, ih, List.getLast?_cons]
    cases items.getLast? <;> rfl

theorem answer_past (h : taken ≤ (sweep base bytes).length) (c : Iterator.Call) :
    (past base bytes taken).answer c = ((Iterator.answerFrom (sweep base bytes) taken c).1,
      past base bytes (Iterator.answerFrom (sweep base bytes) taken c).2) := by
  cases c with
  | next => rw [answer, next_past h]; rfl
  | nth n => rw [answer, nth_past n h]; rfl
  | rest =>
    rw [answer, fold_past _ _ h, List.foldl_flip_cons_eq_append', List.append_nil, List.reverse_reverse]
    rfl
  | count =>
    rw [answer, fold_past _ _ h, List.foldl_add_const, Nat.one_mul, Nat.zero_add, List.length_drop]
    rfl
  | last =>
    rw [answer, fold_past _ _ h, foldl_last, Option.or_none]
    rfl

/-- What a cursor over `bytes` tells that has handed out so many items. -/
structure Tells (base : UInt16) (bytes : List UInt8) (taken : Nat) (c : Cursor) : Prop where
  taken_le : taken ≤ (sweep base bytes).length
  offset_eq : c.offset = extent ((sweep base bytes).take taken)
  offset_le : c.offset ≤ bytes.length
  sizeHint_eq : c.sizeHint = ((bytes.length - c.offset) ⌈/⌉ 3, bytes.length - c.offset)
  low_le : c.sizeHint.1 ≤ (sweep base bytes).length - taken
  le_high : (sweep base bytes).length - taken ≤ c.sizeHint.2

theorem tells_past (h : taken ≤ (sweep base bytes).length) : (past base bytes taken).Tells base bytes taken := by
  have hmem : ∀ item ∈ (sweep base bytes).drop taken, item ∈ sweep base bytes := fun _ => List.mem_of_mem_drop
  have hlength : ((sweep base bytes).drop taken).length = (sweep base bytes).length - taken := List.length_drop
  have hahead : extent ((sweep base bytes).drop taken) = (past base bytes taken).rest.length := by
    rw [← sweep_past, extent_sweep]
  have hlow := extent_le_mul_length fun item h => Item.len_le_of_mem_sweep (hmem item h)
  have hhigh := length_le_extent fun item h => Item.len_pos_of_mem_sweep (hmem item h)
  have hrest : (past base bytes taken).rest.length = bytes.length - (past base bytes taken).offset := List.length_drop
  refine ⟨h, rfl, le_length_past base bytes taken, ?_, ?_, ?_⟩
  · rw [← hrest, Nat.ceilDiv_eq_add_pred_div]
    rfl
  · show ((past base bytes taken).rest.length + 2) / 3 ≤ _
    omega
  · show _ ≤ (past base bytes taken).rest.length
    omega

end Cursor

/-- Whatever a cursor and its copies are asked, in whatever order, each answers as the list of all items would
from those on that it has not yet handed out, and tells truly how far it has come and how much can follow. -/
theorem cursor_refines_sweep (base : UInt16) (bytes : List UInt8) (steps : List (Nat × Iterator.Step)) :
    List.Forall₂ (fun told meant => told.1 = meant.1 ∧ told.2.Tells base bytes meant.2)
      (Iterator.run Cursor.answer [Cursor.ofBytes base bytes] steps)
      (Iterator.run (Iterator.answerFrom (sweep base bytes)) [0] steps) := by
  let items := sweep base bytes
  have hstart : ∀ taken ∈ [0], taken ≤ items.length := by simp
  have hholds : ∀ taken, taken ≤ items.length → ∀ c, (Iterator.answerFrom items taken c).2 ≤ items.length :=
    fun _ h c => Iterator.answerFrom_le h c
  have hanswer : ∀ taken, taken ≤ items.length → ∀ c, Cursor.answer (Cursor.past base bytes taken) c =
      ((Iterator.answerFrom items taken c).1, Cursor.past base bytes (Iterator.answerFrom items taken c).2) :=
    fun _ h c => Cursor.answer_past h c
  obtain ⟨hrun, htaken⟩ := Iterator.run_map hholds hanswer steps hstart
  rw [List.map_singleton, Cursor.past_zero] at hrun
  rw [hrun, List.forall₂_map_left_iff, List.forall₂_same]
  exact fun told h => ⟨rfl, Cursor.tells_past (htaken told h)⟩

end Disasm6502
