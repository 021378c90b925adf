/-!
# Totals

The sum of a list of counts.
-/
namespace Disasm6502

def total (counts : List Nat) : Nat :=
  counts.foldr (fun count sum => count + sum) 0

@[simp] theorem total_nil : total [] = 0 := rfl

@[simp] theorem total_cons (count : Nat) (counts : List Nat) :
    total (count :: counts) = count + total counts := rfl

@[simp] theorem total_append (first second : List Nat) :
    total (first ++ second) = total first + total second := by
  induction first with
  | nil => simp
  | cons count counts ih => simp [ih, Nat.add_assoc]

end Disasm6502
