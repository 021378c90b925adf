import Disasm6502.Json.Reader
import Disasm6502.Proofs.Json.Written

/-!
# Written values read back

A reader takes from the front of a text the value that was written there, as long as no number is continued
behind it, and leaves what follows. Blank space between the parts makes no difference.
-/
namespace Disasm6502.Json

theorem codeUnit?_lower {n : Nat} (h : n < 65536) :
    ∃ a b c d, (Hex.lower 4 n).toList = [a, b, c, d] ∧ codeUnit? a b c d = some n := by
  have hwidth : max 4 (Hex.digitCount n) = 4 := Nat.max_eq_left (Hex.digitCount_le_iff.mpr h)
  have hvalue : ∀ m, Hex.value? (Hex.digit 'a' (m % 16)) = some (m % 16) :=
    fun m => Hex.value?_digit 'a' (by decide) _ (Nat.mod_lt m (by decide))
  refine ⟨_, _, _, _, by rw [Hex.lower, String.toList_ofList, hwidth]; rfl, ?_⟩
  simp only [codeUnit?, hvalue]
  congr 1
  omega

theorem readString?_plain {c : Char} (hquote : c ≠ '"') (hslash : c ≠ '\\') (hprinted : ¬c < ' ')
    (done rest : List Char) : readString? done (c :: rest) = readString? (c :: done) rest := by
  simp [readString?, hslash, hprinted]

theorem readString?_letter {c letter : Char} (h : (c, letter) ∈ letters) (done rest : List Char) :
    readString? done ('\\' :: letter :: rest) = readString? (c :: done) rest := by
  simp only [letters, List.mem_cons, Prod.mk.injEq, List.not_mem_nil, or_false] at h
  rcases h with ⟨rfl, rfl⟩ | ⟨rfl, rfl⟩ | ⟨rfl, rfl⟩ | ⟨rfl, rfl⟩ | ⟨rfl, rfl⟩ | ⟨rfl, rfl⟩ | ⟨rfl, rfl⟩
  all_goals simp [readString?, unescape?]

theorem readString?_code {c : Char} (hcontrol : c < ' ') (done rest : List Char) :
    readString? done ('\\' :: 'u' :: ((Hex.lower 4 c.toNat).toList ++ rest)) = readString? (c :: done) rest := by
  have hsmall : c.toNat < 32 := hcontrol
  obtain ⟨x, y, z, w, hdigits, hunit⟩ := codeUnit?_lower (n := c.toNat) (by omega)
  rw [hdigits]
  simp only [List.cons_append, List.nil_append, readString?, hunit]
  rw [if_pos (by omega), Char.ofNat_toNat]

/-- A character reads back from its escape, and a character that is not escaped from itself. -/
theorem readString?_escape (done : List Char) (c : Char) (rest : List Char) :
    readString? done ((escape c).toList ++ rest) = readString? (c :: done) rest := by
  rcases escape_cases c with ⟨letter, hletter, htext⟩ | ⟨hcontrol, htext⟩ | ⟨hquote, hslash, hprinted, htext⟩
  · rw [htext]
    exact readString?_letter hletter done rest
  · rw [htext]
    exact readString?_code hcontrol done rest
  · rw [htext]
    exact readString?_plain hquote hslash hprinted done rest

theorem readString?_escapes (done text rest : List Char) :
    readString? done ((text.flatMap fun c => (escape c).toList) ++ '"' :: rest) =
      some (String.ofList (done.reverse ++ text), rest) := by
  induction text generalizing done with
  | nil => simp [readString?]
  | cons c text ih =>
    rw [List.flatMap_cons, List.append_assoc, readString?_escape, ih]
    simp

/-- A quoted text reads back behind its opening quote. -/
theorem readString?_quoted (s : String) (rest : List Char) :
    ∃ text, (quoted s).toList ++ rest = '"' :: text ∧ readString? [] text = some (s, rest) := by
  refine ⟨(s.toList.flatMap fun c => (escape c).toList) ++ '"' :: rest, by simp [toList_quoted], ?_⟩
  simp [readString?_escapes]

theorem isNumberChar_of_isDigit {c : Char} (h : c.isDigit) : isNumberChar c := by
  simp [isNumberChar, h]

theorem isNumberChar_of_mem_toString {n : Nat} {c : Char} (h : c ∈ (toString n).toList) : isNumberChar c :=
  isNumberChar_of_isDigit (isDigit_of_mem_toString h)

/-- No number but zero starts with a zero. -/
theorem head?_toDigits {n : Nat} (h : 0 < n) : (Nat.toDigits 10 n).head? ≠ some '0' := by
  induction n using Nat.strongRecOn with
  | ind n ih =>
    rw [Nat.toDigits_eq_if (by decide)]
    split
    · simp only [List.head?_cons, ne_eq, Option.some.injEq, Nat.digitChar_eq_zero]
      omega
    · have hfront := ih (n / 10) (by omega) (by omega)
      obtain ⟨c, digits, hdigits⟩ := List.exists_cons_of_ne_nil (Nat.toDigits_ne_nil (n := n / 10) (b := 10))
      rw [hdigits] at hfront ⊢
      exact hfront

theorem isWhole_toDigits (n : Nat) : isWhole (Nat.toDigits 10 n) := by
  by_cases hn : n = 0
  · rw [hn, Nat.toDigits_zero]
    rfl
  · have hhead := head?_toDigits (Nat.pos_of_ne_zero hn)
    unfold isWhole
    split
    · rfl
    · rename_i htext
      rw [htext] at hhead
      exact absurd rfl hhead
    · have hdigits : (Nat.toDigits 10 n).all Char.isDigit :=
        List.all_eq_true.mpr fun c => Nat.isDigit_of_mem_toDigits (by decide) (by decide)
      simp [isDigits, hdigits]

theorem number?_toString (n : Nat) : number? (toString n).toList = some (.number n) := by
  have hdigits : ∀ c ∈ Nat.toDigits 10 n, c.isDigit :=
    fun _ => Nat.isDigit_of_mem_toDigits (by decide) (by decide)
  have hwhole : (Nat.toDigits 10 n).takeWhile Char.isDigit = Nat.toDigits 10 n := by
    simpa using takeWhile_word hdigits (stopsAt_nil : StopsAt Char.isDigit [])
  have hrest : (Nat.toDigits 10 n).dropWhile Char.isDigit = [] := by
    simpa using dropWhile_word hdigits (stopsAt_nil : StopsAt Char.isDigit [])
  rw [Nat.toString_eq_repr, Nat.toList_repr]
  unfold number?
  split
  · rename_i rest htext
    have hminus := hdigits '-' (by rw [htext]; exact List.mem_cons_self)
    exact absurd hminus (by decide)
  · simp [hwhole, hrest, isWhole_toDigits, isFraction, isExponent]

/-- Only blank space stands between the parts of a value. -/
structure Spacing.Blank (spacing : Spacing) : Prop where
  gap : ∀ depth, ∀ c ∈ (spacing.gap depth).toList, isBlank c
  colon : ∃ blanks, spacing.colon.toList = ':' :: blanks ∧ ∀ c ∈ blanks, isBlank c

theorem blank_compact : Spacing.compact.Blank where
  gap _ := by simp [Spacing.compact]
  colon := ⟨[], by simp [Spacing.compact], nofun⟩

theorem blank_indented : Spacing.indented.Blank where
  gap depth := by simp [Spacing.indented, blanks, isBlank]
  colon := ⟨[' '], by simp [Spacing.indented], by simp [isBlank]⟩

theorem isNumberChar_of_isBlank {c : Char} (h : isBlank c) : isNumberChar c = false := by
  simp only [isBlank, Bool.or_eq_true, beq_iff_eq] at h
  obtain ((rfl | rfl) | rfl) | rfl := h
  all_goals decide

theorem skipBlank_of_not {c : Char} (h : isBlank c = false) (rest : List Char) :
    skipBlank (c :: rest) = c :: rest :=
  List.dropWhile_cons_of_neg (by simp [h])

section Blank

variable {spacing : Spacing} (hspacing : spacing.Blank) (depth : Nat) {c : Char} {rest : List Char}

include hspacing

theorem skipBlank_gap (hc : isBlank c = false) :
    skipBlank ((spacing.gap depth).toList ++ c :: rest) = c :: rest :=
  dropWhile_word (hspacing.gap depth) (stopsAt_cons hc)

theorem stopsAt_gap (hc : isNumberChar c = false) :
    StopsAt isNumberChar ((spacing.gap depth).toList ++ c :: rest) := by
  have hblank := hspacing.gap depth
  cases hgap : (spacing.gap depth).toList with
  | nil => exact stopsAt_cons hc
  | cons b blanks =>
    rw [hgap] at hblank
    exact stopsAt_cons (isNumberChar_of_isBlank (hblank b List.mem_cons_self))

/-- No number is continued behind an element. -/
theorem stopsAt_further (elements : List (List Char)) (rest : List Char) (hc : isNumberChar c = false) :
    StopsAt isNumberChar
      (furtherChars spacing (depth + 1) elements ++ ((spacing.gap depth).toList ++ c :: rest)) := by
  cases elements with
  | nil => exact stopsAt_gap hspacing depth hc
  | cons element elements => exact stopsAt_cons rfl

end Blank

/-- A value is read off the front of a text. -/
def Reads (spacing : Spacing) (depth : Nat) (v : Json) : Prop :=
  ∀ fuel rest, (chars spacing depth v).length ≤ fuel → StopsAt isNumberChar rest →
    readValue? fuel (chars spacing depth v ++ rest) = some (v, rest)

/-- The first character of a value is neither blank nor the bracket that closes an array. -/
theorem exists_chars_cons {v : Json} (h : v.Natural) (spacing : Spacing) (depth : Nat) :
    ∃ c more, chars spacing depth v = c :: more ∧ isBlank c = false ∧ c ≠ ']' := by
  cases h with
  | null => exact ⟨'n', ['u', 'l', 'l'], by simp [chars, write], rfl, by decide⟩
  | bool b =>
    cases b with
    | true => exact ⟨'t', ['r', 'u', 'e'], by simp [chars, write], rfl, by decide⟩
    | false => exact ⟨'f', ['a', 'l', 's', 'e'], by simp [chars, write], rfl, by decide⟩
  | number n =>
    obtain ⟨c, digits, hdigits, hc⟩ := exists_toString_cons n
    refine ⟨c, digits, by rw [chars_number, hdigits], ?_, ?_⟩
    · cases hblank : isBlank c with
      | false => rfl
      | true =>
        have hno := isNumberChar_of_isBlank hblank
        rw [isNumberChar_of_isDigit hc] at hno
        cases hno
    · rintro rfl
      exact absurd hc (by decide)
  | string s => exact ⟨_, _, (chars_string spacing depth s).trans (toList_quoted s), rfl, by decide⟩
  | array items =>
    rw [chars_array]
    cases items.map (chars spacing (depth + 1)) with
    | nil => exact ⟨_, _, rfl, rfl, by decide⟩
    | cons element elements => exact ⟨_, _, rfl, rfl, by decide⟩
  | object members =>
    rw [chars_object]
    cases members.map (memberChars spacing (depth + 1)) with
    | nil => exact ⟨_, _, rfl, rfl, by decide⟩
    | cons element elements => exact ⟨_, _, rfl, rfl, by decide⟩

/-- A value has at least one character, so there is fuel for a step. -/
theorem exists_fuel {v : Json} (h : v.Natural) {spacing : Spacing} {depth fuel : Nat}
    (hfuel : (chars spacing depth v).length ≤ fuel) : ∃ n, fuel = n + 1 := by
  obtain ⟨c, more, hchars, -, -⟩ := exists_chars_cons h spacing depth
  rw [hchars, List.length_cons] at hfuel
  exact ⟨fuel - 1, by omega⟩

theorem skipBlank_chars {v : Json} (h : v.Natural) {spacing : Spacing} {depth : Nat} {blanks : List Char}
    (hblanks : ∀ c ∈ blanks, isBlank c) (rest : List Char) :
    skipBlank (blanks ++ (chars spacing depth v ++ rest)) = chars spacing depth v ++ rest := by
  obtain ⟨c, more, hchars, hc, -⟩ := exists_chars_cons h spacing depth
  rw [hchars]
  exact dropWhile_word hblanks (stopsAt_cons hc)

theorem exists_memberChars_cons (spacing : Spacing) (depth : Nat) (m : String × Json) :
    ∃ more, memberChars spacing depth m = '"' :: more := by
  obtain ⟨text, htext, -⟩ := readString?_quoted m.1 (spacing.colon.toList ++ chars spacing depth m.2)
  exact ⟨text, htext⟩

section Values

variable {spacing : Spacing} (hspacing : spacing.Blank) {depth : Nat}

include hspacing

theorem readItems?_chars {item : Json} {items : List Json} (done : List Json) (fuel : Nat) (rest : List Char)
    (hnatural : ∀ i ∈ item :: items, i.Natural) (hreads : ∀ i ∈ item :: items, Reads spacing (depth + 1) i)
    (hfuel : (chars spacing (depth + 1) item).length +
      (furtherChars spacing (depth + 1) (items.map (chars spacing (depth + 1)))).length < fuel) :
    readItems? fuel done (chars spacing (depth + 1) item ++
        (furtherChars spacing (depth + 1) (items.map (chars spacing (depth + 1))) ++
          ((spacing.gap depth).toList ++ ']' :: rest))) =
      some (.array (done.reverse ++ item :: items), rest) := by
  induction items generalizing item done fuel with
  | nil =>
    obtain ⟨fuel, rfl⟩ : ∃ n, fuel = n + 1 := ⟨fuel - 1, by omega⟩
    have hitem := hreads item List.mem_cons_self fuel _ (by omega)
      (stopsAt_further hspacing depth (c := ']') [] rest rfl)
    rw [List.map_nil, readItems?, hitem]
    simp only [furtherChars, List.flatMap_nil, List.nil_append, skipBlank_gap hspacing depth (c := ']') rfl]
    simp
  | cons next items ih =>
    obtain ⟨fuel, rfl⟩ : ∃ n, fuel = n + 1 := ⟨fuel - 1, by omega⟩
    obtain ⟨-, hnatural'⟩ := List.forall_mem_cons.mp hnatural
    obtain ⟨hitem, hreads'⟩ := List.forall_mem_cons.mp hreads
    have hread := hitem fuel _ (by omega) (stopsAt_further hspacing depth (c := ']')
      ((next :: items).map (chars spacing (depth + 1))) rest rfl)
    rw [readItems?, hread]
    rw [List.map_cons, furtherChars_cons] at hfuel ⊢
    simp only [List.length_cons, List.length_append] at hfuel
    simp only [List.cons_append, List.append_assoc, skipBlank_of_not (c := ',') rfl,
      skipBlank_chars (hnatural' next List.mem_cons_self) (hspacing.gap (depth + 1))]
    rw [ih (item :: done) fuel hnatural' hreads' (by omega)]
    simp

/-- One member is its key, its colon and its value; behind it stands a comma or the closing bracket. -/
theorem readMembers?_step {m : String × Json} (hnatural : m.2.Natural) (hreads : Reads spacing depth m.2)
    (done : List (String × Json)) (fuel : Nat) {behind : List Char}
    (hfuel : (memberChars spacing depth m).length ≤ fuel) (hbehind : StopsAt isNumberChar behind) :
    (∀ rest, skipBlank behind = ',' :: rest →
      readMembers? (fuel + 1) done (memberChars spacing depth m ++ behind) =
        readMembers? fuel (m :: done) (skipBlank rest)) ∧
    (∀ rest, skipBlank behind = '\x7d' :: rest →
      readMembers? (fuel + 1) done (memberChars spacing depth m ++ behind) =
        some (.object (m :: done).reverse, rest)) := by
  obtain ⟨key, value⟩ := m
  obtain ⟨blanks, hcolon, hblanks⟩ := hspacing.colon
  obtain ⟨text, htext, hkey⟩ :=
    readString?_quoted key (':' :: (blanks ++ (chars spacing depth value ++ behind)))
  have hmember : memberChars spacing depth (key, value) ++ behind = '"' :: text := by
    rw [← htext, memberChars, hcolon]
    simp
  have hlen : (chars spacing depth value).length ≤ fuel := by
    simp only [memberChars, List.length_append] at hfuel
    omega
  have hvalue : skipBlank (':' :: (blanks ++ (chars spacing depth value ++ behind))) =
      ':' :: (blanks ++ (chars spacing depth value ++ behind)) := skipBlank_of_not rfl _
  have hread := hreads fuel behind hlen hbehind
  constructor
  · intro rest hcomma
    rw [hmember, readMembers?, hkey]
    simp only [hvalue, skipBlank_chars hnatural hblanks, hread, hcomma]
  · intro rest hclosing
    rw [hmember, readMembers?, hkey]
    simp only [hvalue, skipBlank_chars hnatural hblanks, hread, hclosing]

theorem skipBlank_memberChars (m : String × Json) (rest : List Char) :
    skipBlank ((spacing.gap depth).toList ++ (memberChars spacing depth m ++ rest)) =
      memberChars spacing depth m ++ rest := by
  obtain ⟨more, hmore⟩ := exists_memberChars_cons spacing depth m
  rw [hmore]
  exact skipBlank_gap hspacing depth rfl

theorem readMembers?_chars {m : String × Json} {members : List (String × Json)} (done : List (String × Json))
    (fuel : Nat) (rest : List Char) (hnatural : ∀ n ∈ m :: members, n.2.Natural)
    (hreads : ∀ n ∈ m :: members, Reads spacing (depth + 1) n.2)
    (hfuel : (memberChars spacing (depth + 1) m).length +
      (furtherChars spacing (depth + 1) (members.map (memberChars spacing (depth + 1)))).length < fuel) :
    readMembers? fuel done (memberChars spacing (depth + 1) m ++
        (furtherChars spacing (depth + 1) (members.map (memberChars spacing (depth + 1))) ++
          ((spacing.gap depth).toList ++ '\x7d' :: rest))) =
      some (.object (done.reverse ++ m :: members), rest) := by
  induction members generalizing m done fuel with
  | nil =>
    obtain ⟨fuel, rfl⟩ : ∃ n, fuel = n + 1 := ⟨fuel - 1, by omega⟩
    have hclosing : skipBlank (furtherChars spacing (depth + 1) [] ++
        ((spacing.gap depth).toList ++ '\x7d' :: rest)) = '\x7d' :: rest :=
      skipBlank_gap hspacing depth rfl
    obtain ⟨-, hlast⟩ := readMembers?_step hspacing (hnatural m List.mem_cons_self)
      (hreads m List.mem_cons_self) done fuel (by omega) (stopsAt_further hspacing depth (c := '\x7d') [] rest rfl)
    rw [List.map_nil, hlast rest hclosing]
    simp
  | cons next members ih =>
    obtain ⟨fuel, rfl⟩ : ∃ n, fuel = n + 1 := ⟨fuel - 1, by omega⟩
    obtain ⟨-, hnatural'⟩ := List.forall_mem_cons.mp hnatural
    obtain ⟨-, hreads'⟩ := List.forall_mem_cons.mp hreads
    obtain ⟨hmore, -⟩ := readMembers?_step hspacing (hnatural m List.mem_cons_self)
      (hreads m List.mem_cons_self) done fuel (by omega) (stopsAt_further hspacing depth (c := '\x7d')
        ((next :: members).map (memberChars spacing (depth + 1))) rest rfl)
    rw [List.map_cons, furtherChars_cons] at hfuel hmore ⊢
    simp only [List.length_cons, List.length_append] at hfuel
    simp only [List.cons_append, List.append_assoc] at hmore ⊢
    rw [hmore _ (skipBlank_of_not rfl _), skipBlank_memberChars hspacing,
      ih (m :: done) fuel hnatural' hreads' (by omega)]
    simp

theorem reads_array {items : List Json} (hnatural : ∀ item ∈ items, item.Natural)
    (hreads : ∀ item ∈ items, Reads spacing (depth + 1) item) : Reads spacing depth (.array items) := by
  intro fuel rest hfuel _
  obtain ⟨fuel, rfl⟩ := exists_fuel (.array items hnatural) hfuel
  rw [chars_array] at hfuel ⊢
  cases items with
  | nil => rfl
  | cons item items =>
    rw [List.map_cons, bracketed] at hfuel ⊢
    simp only [List.length_cons, List.length_append] at hfuel
    simp only [List.cons_append, List.append_assoc, List.nil_append, readValue?,
      skipBlank_chars (hnatural item List.mem_cons_self) (hspacing.gap (depth + 1))]
    obtain ⟨c, more, hchars, -, hc⟩ := exists_chars_cons (hnatural item List.mem_cons_self) spacing (depth + 1)
    split
    · rename_i hclosed
      rw [hchars] at hclosed
      exact absurd (List.cons.inj hclosed).1 hc
    · exact readItems?_chars hspacing [] fuel rest hnatural hreads (by omega)

theorem reads_object {members : List (String × Json)} (hnatural : ∀ m ∈ members, m.2.Natural)
    (hreads : ∀ m ∈ members, Reads spacing (depth + 1) m.2) : Reads spacing depth (.object members) := by
  intro fuel rest hfuel _
  obtain ⟨fuel, rfl⟩ := exists_fuel (.object members hnatural) hfuel
  rw [chars_object] at hfuel ⊢
  cases members with
  | nil => rfl
  | cons m members =>
    rw [List.map_cons, bracketed] at hfuel ⊢
    simp only [List.length_cons, List.length_append] at hfuel
    simp only [List.cons_append, List.append_assoc, List.nil_append, readValue?,
      skipBlank_memberChars hspacing]
    split
    · rename_i hclosed
      obtain ⟨more, hmore⟩ := exists_memberChars_cons spacing (depth + 1) m
      rw [hmore] at hclosed
      exact absurd (List.cons.inj hclosed).1 (by decide)
    · exact readMembers?_chars hspacing [] fuel rest hnatural hreads (by omega)

omit hspacing in
/-- No other value starts with a digit. -/
theorem readValue?_number {c : Char} (hc : c.isDigit) (fuel : Nat) {rest : List Char} {v : Json}
    (h : number? ((c :: rest).takeWhile isNumberChar) = some v) :
    readValue? (fuel + 1) (c :: rest) = some (v, (c :: rest).dropWhile isNumberChar) := by
  have hne : ∀ {d : Char}, d.isDigit = false → c ≠ d := by
    rintro d hd rfl
    exact Bool.false_ne_true (hd.symm.trans hc)
  rw [readValue?, h]
  all_goals
    intro other heq
    exact hne rfl (List.cons.inj heq).1

omit hspacing in
theorem reads_number (n : Nat) : Reads spacing depth (.number n) := by
  intro fuel rest hfuel hrest
  obtain ⟨fuel, rfl⟩ := exists_fuel (.number n) hfuel
  have hword : ∀ c ∈ (toString n).toList, isNumberChar c := fun _ => isNumberChar_of_mem_toString
  have hnumber : number? (((toString n).toList ++ rest).takeWhile isNumberChar) = some (.number n) := by
    rw [takeWhile_word hword hrest, number?_toString]
  have hbehind : ((toString n).toList ++ rest).dropWhile isNumberChar = rest := dropWhile_word hword hrest
  obtain ⟨c, digits, hdigits, hc⟩ := exists_toString_cons n
  rw [hdigits, List.cons_append] at hnumber hbehind
  rw [chars_number, hdigits, List.cons_append, readValue?_number hc fuel hnumber, hbehind]

omit hspacing in
theorem reads_string (s : String) : Reads spacing depth (.string s) := by
  intro fuel rest hfuel _
  obtain ⟨fuel, rfl⟩ := exists_fuel (.string s) hfuel
  obtain ⟨text, htext, hread⟩ := readString?_quoted s rest
  rw [chars_string, htext, readValue?, hread]

/-- Every value of natural numbers reads back. -/
theorem reads_of_natural {v : Json} (h : v.Natural) (depth : Nat) : Reads spacing depth v := by
  induction h generalizing depth with
  | null =>
    intro fuel rest hfuel _
    obtain ⟨fuel, rfl⟩ := exists_fuel .null hfuel
    simp [chars, write, readValue?]
  | bool b =>
    intro fuel rest hfuel _
    obtain ⟨fuel, rfl⟩ := exists_fuel (.bool b) hfuel
    cases b <;> simp [chars, write, readValue?]
  | number n => exact reads_number n
  | string s => exact reads_string s
  | array items hnatural ih => exact reads_array hspacing hnatural fun item hitem => ih item hitem (depth + 1)
  | object members hnatural ih => exact reads_object hspacing hnatural fun m hm => ih m hm (depth + 1)

/-- A written value reads back, with blank space behind it. -/
theorem read?_render {v : Json} (h : v.Natural) {after : String} (hafter : ∀ c ∈ after.toList, isBlank c) :
    read? (v.render spacing ++ after) = some v := by
  have hfront : skipBlank (chars spacing 0 v ++ after.toList) = chars spacing 0 v ++ after.toList :=
    skipBlank_chars h (List.forall_mem_nil _) after.toList
  have hstop : StopsAt isNumberChar after.toList :=
    fun c hc => isNumberChar_of_isBlank (hafter c (List.mem_of_mem_head? hc))
  have hread := reads_of_natural hspacing h 0 ((chars spacing 0 v ++ after.toList).length + 1) after.toList
    (by simp only [List.length_append]; omega) hstop
  have hbehind : skipBlank after.toList = [] := by
    have hskip : skipBlank (after.toList ++ []) = [] := dropWhile_word hafter stopsAt_nil
    rwa [List.append_nil] at hskip
  unfold read?
  simp only [String.toList_append, toList_render, hfront, hread, hbehind, List.isEmpty_nil, if_true]

end Values

end Disasm6502.Json
