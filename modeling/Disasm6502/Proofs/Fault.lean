import Disasm6502.Fault
import Disasm6502.Proofs.Hex.Bytes

/-!
# Messages tell faults apart

The message about a malformed header holds all that is known of it, and each number in it ends where the
wording goes on.
-/
namespace Disasm6502.Malformed

theorem message_inj {m n : Malformed} : m.message = n.message ↔ m = n := by
  constructor
  · intro h
    have hlist := congrArg String.toList h
    unfold message at hlist
    simp only [String.toList_append, List.append_assoc, String.reduceToList, List.cons_append,
      List.nil_append, List.cons.injEq, true_and] at hlist
    obtain ⟨hoffset, hlist⟩ := toString_append_inj (stopsAt_cons rfl) (stopsAt_cons rfl) hlist
    simp only [List.cons.injEq, true_and] at hlist
    obtain ⟨hstart, hlist⟩ := Hex.upper_word_append_inj hlist
    simp only [List.cons.injEq, true_and] at hlist
    obtain ⟨hlast, hlist⟩ := Hex.upper_word_append_inj hlist
    simp only [List.cons.injEq, true_and] at hlist
    obtain ⟨hneeded, hlist⟩ := toString_append_inj (stopsAt_cons rfl) (stopsAt_cons rfl) hlist
    simp only [List.cons.injEq, true_and] at hlist
    obtain ⟨havailable, -⟩ := toString_append_inj (stopsAt_cons rfl) (stopsAt_cons rfl) hlist
    cases m
    cases n
    congr
  · intro h
    rw [h]

end Disasm6502.Malformed
