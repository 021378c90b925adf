import Disasm6502.Json
import Disasm6502.Proofs.Hex
import Disasm6502.Proofs.Text

/-!
# Written values

The text of a value, as characters: a name, digits, a quoted text, or elements between brackets with commas
between them. What the writer has written before does not matter to what it adds.
-/
namespace Disasm6502.Json

@[elab_as_elim]
theorem induction {motive : Json → Prop} (null : motive .null) (bool : ∀ b, motive (.bool b))
    (number : ∀ n, motive (.number n)) (otherNumber : ∀ text, motive (.otherNumber text))
    (string : ∀ s, motive (.string s))
    (array : ∀ items, (∀ item ∈ items, motive item) → motive (.array items))
    (object : ∀ members, (∀ m ∈ members, motive m.2) → motive (.object members)) : ∀ v, motive v
  | .null => null
  | .bool b => bool b
  | .number n => number n
  | .otherNumber text => otherNumber text
  | .string s => string s
  | .array items =>
    array items fun item h =>
      have := List.sizeOf_lt_of_mem h
      induction null bool number otherNumber string array object item
  | .object members =>
    object members fun m h =>
      have := List.sizeOf_lt_of_mem h
      induction null bool number otherNumber string array object m.2
  termination_by v => sizeOf v
  decreasing_by
    · simp only [Json.array.sizeOf_spec]
      omega
    · obtain ⟨key, value⟩ := m
      simp only [Json.object.sizeOf_spec, Prod.mk.sizeOf_spec] at *
      omega

section Behind

variable {spacing : Spacing} {depth : Nat}

/-- What is added for an element, with a comma in front. -/
def further (spacing : Spacing) (depth : Nat) (element : String) : String :=
  "," ++ spacing.gap depth ++ element

/-- A member is written as its key and its value. -/
def member (spacing : Spacing) (depth : Nat) (m : String × Json) : String :=
  quoted m.1 ++ spacing.colon ++ write spacing depth "" m.2

theorem writeItems_eq {items : List Json}
    (h : ∀ item ∈ items, ∀ text, write spacing depth text item = text ++ write spacing depth "" item)
    (text : String) : writeItems spacing depth text items =
      text ++ String.join (items.map fun item => further spacing depth (write spacing depth "" item)) := by
  induction items generalizing text with
  | nil => simp [writeItems]
  | cons item items ih =>
    obtain ⟨hitem, hitems⟩ := List.forall_mem_cons.mp h
    rw [writeItems, hitem, ih hitems]
    simp [further, String.append_assoc]

theorem writeMembers_eq {members : List (String × Json)}
    (h : ∀ m ∈ members, ∀ text, write spacing depth text m.2 = text ++ write spacing depth "" m.2)
    (text : String) : writeMembers spacing depth text members =
      text ++ String.join (members.map fun m => further spacing depth (member spacing depth m)) := by
  induction members generalizing text with
  | nil => simp [writeMembers]
  | cons m members ih =>
    obtain ⟨hmember, hmembers⟩ := List.forall_mem_cons.mp h
    rw [writeMembers, hmember, ih hmembers]
    simp [further, member, String.append_assoc]

theorem write_eq (spacing : Spacing) (depth : Nat) (text : String) (v : Json) :
    write spacing depth text v = text ++ write spacing depth "" v := by
  induction v using induction generalizing depth text with
  | null | number | otherNumber | string => simp [write]
  | bool b => cases b <;> simp [write]
  | array items ih =>
    cases items with
    | nil => simp [write]
    | cons item items =>
      obtain ⟨hitem, hitems⟩ := List.forall_mem_cons.mp ih
      rw [write, write, hitem, hitem (depth + 1) ("" ++ _ ++ _), writeItems_eq fun _ h => hitems _ h _,
        writeItems_eq fun _ h => hitems _ h _]
      simp [String.append_assoc]
  | object members ih =>
    cases members with
    | nil => simp [write]
    | cons m members =>
      obtain ⟨hmember, hmembers⟩ := List.forall_mem_cons.mp ih
      rw [write, write, hmember, hmember (depth + 1) ("" ++ _ ++ _ ++ _ ++ _),
        writeMembers_eq fun _ h => hmembers _ h _, writeMembers_eq fun _ h => hmembers _ h _]
      simp [String.append_assoc]

end Behind

def chars (spacing : Spacing) (depth : Nat) (v : Json) : List Char :=
  (write spacing depth "" v).toList

def memberChars (spacing : Spacing) (depth : Nat) (m : String × Json) : List Char :=
  (quoted m.1).toList ++ (spacing.colon.toList ++ chars spacing depth m.2)

/-- Further elements, a comma in front of each. -/
def furtherChars (spacing : Spacing) (depth : Nat) (elements : List (List Char)) : List Char :=
  elements.flatMap fun element => ',' :: ((spacing.gap depth).toList ++ element)

/-- Elements between brackets, which stand at `depth`. -/
def bracketed (spacing : Spacing) (depth : Nat) (opening closing : Char) : List (List Char) → List Char
  | [] => [opening, closing]
  | element :: elements =>
    opening :: ((spacing.gap (depth + 1)).toList ++ (element ++
      (furtherChars spacing (depth + 1) elements ++ ((spacing.gap depth).toList ++ [closing]))))

section Chars

variable (spacing : Spacing) (depth : Nat)

theorem toList_render (v : Json) : (v.render spacing).toList = chars spacing 0 v := rfl

theorem chars_number (n : Nat) : chars spacing depth (.number n) = (toString n).toList := by
  simp [chars, write]

theorem chars_string (s : String) : chars spacing depth (.string s) = (quoted s).toList := by
  simp [chars, write]

theorem chars_array (items : List Json) : chars spacing depth (.array items) =
    bracketed spacing depth '[' ']' (items.map (chars spacing (depth + 1))) := by
  cases items with
  | nil => simp [chars, write, bracketed]
  | cons item items =>
    rw [chars, write, write_eq, writeItems_eq fun _ _ text => write_eq _ _ text _]
    simp [bracketed, furtherChars, further, List.flatMap_map, chars]

theorem chars_object (members : List (String × Json)) : chars spacing depth (.object members) =
    bracketed spacing depth '\x7b' '\x7d' (members.map (memberChars spacing (depth + 1))) := by
  cases members with
  | nil => simp [chars, write, bracketed]
  | cons m members =>
    rw [chars, write, write_eq, writeMembers_eq fun _ _ text => write_eq _ _ text _]
    simp [bracketed, furtherChars, further, List.flatMap_map, member, memberChars, chars]

end Chars

theorem furtherChars_cons (spacing : Spacing) (depth : Nat) (element : List Char) (elements : List (List Char)) :
    furtherChars spacing depth (element :: elements) =
      ',' :: ((spacing.gap depth).toList ++ (element ++ furtherChars spacing depth elements)) := by
  simp [furtherChars]

theorem toList_quoted (s : String) :
    (quoted s).toList = '"' :: ((s.toList.flatMap fun c => (escape c).toList) ++ ['"']) := by
  simp [quoted, List.flatMap_map]

/-- The characters with an escape of one letter, and their letters. -/
def letters : List (Char × Char) :=
  [('"', '"'), ('\\', '\\'), ('\x08', 'b'), ('\t', 't'), ('\n', 'n'), ('\x0c', 'f'), ('\r', 'r')]

/-- A character is escaped by a letter, by its code, or not at all. -/
theorem escape_cases (c : Char) : (∃ letter, (c, letter) ∈ letters ∧ (escape c).toList = ['\\', letter]) ∨
    (c < ' ' ∧ (escape c).toList = '\\' :: 'u' :: (Hex.lower 4 c.toNat).toList) ∨
    (c ≠ '"' ∧ c ≠ '\\' ∧ ¬c < ' ' ∧ (escape c).toList = [c]) := by
  unfold escape
  iterate 7
    split
    · rename_i hc
      obtain rfl := eq_of_beq hc
      exact .inl (by simp [letters])
  rename_i hquote hslash _ _ _ _ _
  split
  · rename_i hcontrol
    exact .inr (.inl ⟨hcontrol, by simp⟩)
  · rename_i hcontrol
    exact .inr (.inr ⟨by simpa using hquote, by simpa using hslash, hcontrol, by simp⟩)

/-- Every number in the value is a natural number. -/
inductive Natural : Json → Prop where
  | null : Natural .null
  | bool (b : Bool) : Natural (.bool b)
  | number (n : Nat) : Natural (.number n)
  | string (s : String) : Natural (.string s)
  | array (items : List Json) (h : ∀ item ∈ items, Natural item) : Natural (.array items)
  | object (members : List (String × Json)) (h : ∀ m ∈ members, Natural m.2) : Natural (.object members)

/-- All characters are visible ones or blanks. -/
def Printed (text : List Char) : Prop :=
  ∀ c ∈ text, ' ' ≤ c

section Printed

variable {first second : List Char} {c : Char} {rest : List Char}

theorem printed_append : Printed (first ++ second) ↔ Printed first ∧ Printed second :=
  List.forall_mem_append

theorem printed_cons : Printed (c :: rest) ↔ ' ' ≤ c ∧ Printed rest :=
  List.forall_mem_cons

theorem printed_nil : Printed [] := nofun

theorem le_of_value? (h : (Hex.value? c).isSome) : ' ' ≤ c := by
  have hblank : ' ' ≤ '0' ∧ ' ' ≤ 'A' ∧ ' ' ≤ 'a' := by decide
  unfold Hex.value? at h
  split at h
  · rename_i hc
    exact Char.le_trans hblank.1 hc.1
  split at h
  · rename_i hc
    exact Char.le_trans hblank.2.1 hc.1
  split at h
  · rename_i hc
    exact Char.le_trans hblank.2.2 hc.1
  · cases h

theorem le_of_isDigit (h : c.isDigit) : ' ' ≤ c := by
  have hzero : '0' ≤ c := by
    simp only [Char.isDigit, Bool.and_eq_true, decide_eq_true_eq] at h
    exact h.1
  exact Char.le_trans (by decide) hzero

theorem printed_escape (c : Char) : Printed (escape c).toList := by
  have hslash : ' ' ≤ '\\' := by decide
  rcases escape_cases c with ⟨letter, hletter, htext⟩ | ⟨-, htext⟩ | ⟨-, -, hcontrol, htext⟩
  · have hprinted : ∀ p ∈ letters, ' ' ≤ p.2 := by
      simp only [letters, List.forall_mem_cons]
      decide
    rw [htext]
    exact printed_cons.mpr ⟨hslash, printed_cons.mpr ⟨hprinted _ hletter, printed_nil⟩⟩
  · rw [htext, printed_cons, printed_cons]
    exact ⟨hslash, by decide, fun d hd => le_of_value? (Hex.isSome_value?_of_mem_lower hd)⟩
  · rw [htext]
    exact printed_cons.mpr ⟨Char.not_lt.mp hcontrol, printed_nil⟩

theorem printed_quoted (s : String) : Printed (quoted s).toList := by
  have hquote : ' ' ≤ '"' := by decide
  rw [toList_quoted, printed_cons, printed_append, printed_cons]
  refine ⟨hquote, fun d hd => ?_, hquote, printed_nil⟩
  obtain ⟨c, -, hd⟩ := List.mem_flatMap.mp hd
  exact printed_escape c d hd

theorem printed_bracketed {depth : Nat} {opening closing : Char} {elements : List (List Char)}
    (hopening : ' ' ≤ opening) (hclosing : ' ' ≤ closing) (h : ∀ element ∈ elements, Printed element) :
    Printed (bracketed .compact depth opening closing elements) := by
  cases elements with
  | nil => exact printed_cons.mpr ⟨hopening, printed_cons.mpr ⟨hclosing, printed_nil⟩⟩
  | cons element elements =>
    obtain ⟨helement, helements⟩ := List.forall_mem_cons.mp h
    have hfurther : Printed (furtherChars .compact (depth + 1) elements) := by
      intro c hc
      obtain ⟨other, hother, hc⟩ := List.mem_flatMap.mp hc
      exact (printed_cons.mpr ⟨by decide, helements other hother⟩) c hc
    simp only [bracketed, Spacing.compact, String.toList_empty, List.nil_append, printed_cons, printed_append]
    exact ⟨hopening, helement, hfurther, hclosing, printed_nil⟩

end Printed

/-- Without blank space, a value is written without control characters, whatever its strings hold. -/
theorem printed_chars_compact {v : Json} (h : v.Natural) (depth : Nat) : Printed (chars .compact depth v) := by
  induction h generalizing depth with
  | null => simp [chars, write, Printed]
  | bool b => cases b <;> simp [chars, write, Printed]
  | number n =>
    rw [chars_number]
    exact fun c hc => le_of_isDigit (isDigit_of_mem_toString hc)
  | string s =>
    rw [chars_string]
    exact printed_quoted s
  | array items _ ih =>
    rw [chars_array]
    refine printed_bracketed (by decide) (by decide) fun element helement => ?_
    obtain ⟨item, hitem, rfl⟩ := List.mem_map.mp helement
    exact ih item hitem _
  | object members _ ih =>
    rw [chars_object]
    refine printed_bracketed (by decide) (by decide) fun element helement => ?_
    obtain ⟨m, hm, rfl⟩ := List.mem_map.mp helement
    rw [memberChars, printed_append, printed_append]
    exact ⟨printed_quoted m.1, by simp [Spacing.compact, Printed], ih m hm _⟩

end Disasm6502.Json
