import Disasm6502.Sweep.Cursor

/-!
# Calls on iterators

What an iterator over items can be asked, and a row of iterators that are asked in any order. A copy of an iterator
joins the row at its end and goes its own way from there.
-/
namespace Disasm6502

namespace Iterator

inductive Call where
  | next
  /-- Passes `n` items over and takes the one behind them. -/
  | nth (n : Nat)
  | rest
  /-- Counts the items ahead and takes none. -/
  | count
  /-- Tells the last item ahead and takes none. -/
  | last
deriving DecidableEq

inductive Answer where
  | item (x : Option Item)
  | items (xs : List Item)
  | number (n : Nat)
deriving DecidableEq

inductive Step where
  | call (c : Call)
  /-- Puts a copy at the end of the row; its place there is the answer. -/
  | clone
deriving DecidableEq

/-- Takes the steps in turn, each at the place of the row that it names, and lists what is answered and the iterator
that is then at this place. A step at a place behind the row does nothing. -/
def run {σ : Type} (answer : σ → Call → Answer × σ) (row : List σ) : List (Nat × Step) → List (Answer × σ)
  | [] => []
  | (place, step) :: steps =>
    match row[place]?, step with
    | none, _ => run answer row steps
    | some s, .clone => (.number row.length, s) :: run answer (row ++ [s]) steps
    | some s, .call c =>
      let told := answer s c
      told :: run answer (row.set place told.2) steps

end Iterator

/-- The items ahead are counted, and the last of them is found, on a copy. -/
def Cursor.answer (c : Cursor) : Iterator.Call → Iterator.Answer × Cursor
  | .next => (.item c.next.1, c.next.2)
  | .nth n => (.item (c.nth n).1, (c.nth n).2)
  | .rest =>
    let told := c.fold (fun items item => item :: items) []
    (.items told.1.reverse, told.2)
  | .count => (.number (c.fold (fun n _ => n + 1) 0).1, c)
  | .last => (.item (c.fold (fun _ item => some item) none).1, c)

end Disasm6502
