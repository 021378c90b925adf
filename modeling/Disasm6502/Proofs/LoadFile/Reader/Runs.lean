import Disasm6502.Proofs.LoadFile.Reader.InPlace

/-!
# Any number of calls

A reader may be called as often as one likes. It stays in its buffer and goes forward in it, each segment takes
five bytes at least, and the first call that hands out none is the last one that changes anything.
-/
namespace Disasm6502.Reader

/-- The reader behind `count` calls. -/
def after (r : Reader) : Nat → Reader
  | 0 => r
  | count + 1 => (r.after count).next.2

/-- What the call answers that `count` others precede. -/
def answer (r : Reader) (count : Nat) : Option (Except Malformed Segment) :=
  (r.after count).next.1

/-- The segments that the first `count` calls hand out. -/
def handedOut (r : Reader) (count : Nat) : List Segment :=
  (List.range count).filterMap fun i => (r.answer i).bind Except.toOption

/-- What holds of a reader of `bytes` that has handed out so many segments. -/
structure Consistent (bytes : List UInt8) (segments : Nat) (r : Reader) : Prop where
  within : r.Within bytes
  taken_le : 5 * segments ≤ r.offset
  markers_le : r.markers ≤ segments + openingMarkers
  unfinished : r.finished = false → r.trailing = none ∧ r.markers + r.allowed ≤ segments + openingMarkers
  trailing : ∀ t ∈ r.trailing, r.offset = bytes.length ∧ t.offset + t.bytes.length = bytes.length ∧
    t.bytes = bytes.drop t.offset ∧ 1 ≤ t.bytes.length ∧ t.bytes.length ≤ 3

/-- What a call changes, by its answer. -/
structure Advances (r : Reader) (item : Option (Except Malformed Segment)) (r' : Reader) : Prop where
  offset_le : r.offset ≤ r'.offset
  markers_le : r.markers ≤ r'.markers
  segment : ∀ s, item = some (.ok s) → r.offset + 5 ≤ r'.offset
  fault : ∀ m, item = some (.error m) → r'.offset = m.offset + Header.size ∧ r'.trailing = none
  trailing : r'.trailing ≠ r.trailing → item = none

variable {r r' : Reader} {item : Option (Except Malformed Segment)} {bytes : List UInt8} {segments : Nat}

theorem consistent_ofBytes (bytes : List UInt8) : (ofBytes bytes).Consistent bytes 0 where
  within := within_ofBytes bytes
  taken_le := Nat.le_refl 0
  markers_le := Nat.zero_le _
  unfinished _ := ⟨rfl, Nat.le_refl _⟩
  trailing := nofun

theorem five_le_len {e : Entry} {allowed : Nat} (h : e.Lawful allowed) : 5 ≤ e.len := by
  have hlen := h.complete.len_eq
  simp only [Entry.len, Header.size]
  omega

/-- How many segments an answer is. -/
def segmentCount (item : Option (Except Malformed Segment)) : Nat :=
  (item.bind Except.toOption).toList.length

theorem segmentCount_ok (s : Segment) : segmentCount (some (.ok s)) = 1 := rfl

theorem segmentCount_fault (offset : Nat) (ending : Ending) :
    segmentCount ((ending.fault? offset).map Except.error) = 0 := by
  cases ending <;> rfl

/-- A residue that is kept ends the buffer. -/
theorem EndsIn.trailing {count : Nat} {ending : Ending} (h : r.EndsIn count ending) (hr : r.Within bytes)
    (htrailing : r.trailing = none) :
    ∀ t ∈ (r.stopAt count ending).trailing, (r.stopAt count ending).offset = bytes.length ∧
      t.offset + t.bytes.length = bytes.length ∧ t.bytes = bytes.drop t.offset ∧
      1 ≤ t.bytes.length ∧ t.bytes.length ≤ 3 := by
  intro t ht
  rcases ending with residue | ⟨header, rest⟩
  · by_cases hempty : residue = []
    · rw [stopAt, if_pos hempty, htrailing] at ht
      cases ht
    · rw [stopAt, if_neg hempty] at ht
      cases ht
      have hwithin : (r.stopAt count (.residue residue)).Within bytes := (Called.ending h).within hr
      have hend : ([] : List UInt8) = bytes.drop (r.offset + markerSize * count + residue.length) :=
        hwithin.rest_eq
      have hall : r.offset + markerSize * count + residue.length = bytes.length :=
        Nat.le_antisymm hwithin.offset_le (List.drop_eq_nil_iff.mp hend.symm)
      obtain ⟨-, hresidue⟩ := hr.pass h.rest_eq
      rw [length_encodeMarkers] at hresidue
      have hpos : residue.length ≠ 0 := fun h => hempty (List.length_eq_zero_iff.mp h)
      have hshort : residue.length < Header.size := h.final
      exact ⟨hall, hall, hresidue, Nat.pos_of_ne_zero hpos, Nat.le_of_lt_succ hshort⟩
  · rw [stopAt, htrailing] at ht
    cases ht

theorem Called.consistent (h : r.Called item r') (hr : r.Consistent bytes segments) :
    r'.Consistent bytes (segments + segmentCount item) := by
  have hwithin := h.within hr.within
  have htaken := hr.taken_le
  cases h with
  | stopped finished => exact hr
  | @entry e rest unfinished lawful rest_eq =>
    obtain ⟨htrailing, hmarkers⟩ := hr.unfinished unfinished
    have hlen := five_le_len lawful
    have hle := lawful.le
    rw [segmentCount_ok]
    refine ⟨hwithin, ?_, ?_, fun _ => ⟨htrailing, ?_⟩, ?_⟩
    · simp only [behindEntry]
      omega
    · simp only [behindEntry]
      omega
    · simp only [behindEntry, innerMarkers]
      omega
    · intro t ht
      rw [behindEntry, htrailing] at ht
      cases ht
  | @ending count ending endsIn =>
    obtain ⟨htrailing, hmarkers⟩ := hr.unfinished endsIn.unfinished
    have hle := endsIn.le
    have hoffset := r.le_offset_stopAt count ending
    rw [segmentCount_fault]
    refine ⟨hwithin, ?_, ?_, ?_, endsIn.trailing hr.within htrailing⟩
    · omega
    · rw [stopAt_markers]
      omega
    · intro hopen
      rw [stopAt_finished] at hopen
      cases hopen

theorem Called.advances (h : r.Called item r') (hr : r.Consistent bytes segments) : r.Advances item r' := by
  cases h with
  | stopped finished =>
    refine ⟨Nat.le_refl _, Nat.le_refl _, ?_, ?_, fun _ => rfl⟩
    · intro s hs
      cases hs
    · intro m hm
      cases hm
  | @entry e rest unfinished lawful rest_eq =>
    refine ⟨Nat.le_add_right _ _, Nat.le_add_right _ _, ?_, ?_, fun hne => absurd rfl hne⟩
    · intro s hs
      exact Nat.add_le_add_left (five_le_len lawful) r.offset
    · intro m hm
      cases hm
  | @ending count ending endsIn =>
    have hmarkers := r.stopAt_markers count ending
    refine ⟨r.le_offset_stopAt count ending, by omega, ?_, ?_, ?_⟩
    · intro s hs
      cases ending <;> cases hs
    · intro m hm
      cases ending with
      | residue residue => cases hm
      | malformed header rest =>
        cases hm
        exact ⟨rfl, (hr.unfinished endsIn.unfinished).1⟩
    · intro hne
      cases ending with
      | residue residue => rfl
      | malformed header rest => exact absurd rfl hne

theorem Called.finished (h : r.Called item r') (hstop : ∀ s, item ≠ some (.ok s)) : r'.finished = true := by
  cases h with
  | stopped finished => exact finished
  | entry => exact absurd rfl (hstop _)
  | @ending count ending endsIn => exact r.stopAt_finished count ending

theorem called_after (r : Reader) (count : Nat) :
    (r.after count).Called (r.answer count) (r.after (count + 1)) :=
  called_next _

theorem after_succ (r : Reader) (count : Nat) : r.after (count + 1) = r.next.2.after count := by
  induction count with
  | zero => rfl
  | succ count ih => exact congrArg (fun r => r.next.2) ih

theorem after_add (r : Reader) (count more : Nat) : r.after (count + more) = (r.after count).after more := by
  induction more with
  | zero => rfl
  | succ more ih => exact congrArg (fun r => r.next.2) ih

/-- A reader that has stopped stays as it is and answers nothing. -/
theorem after_of_finished (h : r.finished = true) (count : Nat) :
    r.after count = r ∧ r.answer count = none := by
  induction count with
  | zero => exact ⟨rfl, congrArg Prod.fst (next_of_finished h)⟩
  | succ count ih =>
    have hsame : r.after (count + 1) = r := by
      rw [after, ih.1, next_of_finished h]
    rw [answer, hsame, next_of_finished h]
    exact ⟨rfl, rfl⟩

theorem length_handedOut_succ (r : Reader) (count : Nat) :
    (r.handedOut (count + 1)).length = (r.handedOut count).length + segmentCount (r.answer count) := by
  rw [handedOut, List.range_succ, List.filterMap_append, List.length_append]
  cases h : (r.answer count).bind Except.toOption <;> simp [handedOut, segmentCount, h]

theorem consistent_after (bytes : List UInt8) (count : Nat) :
    ((ofBytes bytes).after count).Consistent bytes ((ofBytes bytes).handedOut count).length := by
  induction count with
  | zero => exact consistent_ofBytes bytes
  | succ count ih =>
    rw [length_handedOut_succ]
    exact (called_after _ count).consistent ih

theorem answer_succ (r : Reader) (count : Nat) : r.answer (count + 1) = r.next.2.answer count :=
  congrArg (fun r => r.next.1) (after_succ r count)

/-- Behind a call that hands out no segment nothing changes any more. -/
theorem after_of_stop {count : Nat} (hstop : ∀ s, r.answer count ≠ some (.ok s)) (more : Nat) :
    r.after (count + 1 + more) = r.after (count + 1) ∧ r.answer (count + 1 + more) = none := by
  have hfinished : (r.after (count + 1)).finished = true := (called_after r count).finished hstop
  obtain ⟨hafter, hanswer⟩ := after_of_finished hfinished more
  rw [answer, after_add]
  exact ⟨hafter, hanswer⟩

theorem length_handedOut_of_ok {count : Nat} (h : ∀ i < count, ∃ s, r.answer i = some (.ok s)) :
    (r.handedOut count).length = count := by
  induction count with
  | zero => rfl
  | succ count ih =>
    obtain ⟨s, hs⟩ := h count (Nat.lt_succ_self count)
    rw [length_handedOut_succ, ih fun i hi => h i (Nat.lt_succ_of_lt hi), hs, segmentCount_ok]

theorem five_mul_length_handedOut_le (bytes : List UInt8) (count : Nat) :
    5 * ((ofBytes bytes).handedOut count).length ≤ bytes.length :=
  Nat.le_trans (consistent_after bytes count).taken_le (consistent_after bytes count).within.offset_le

theorem exists_stop (bytes : List UInt8) :
    ∃ count ≤ bytes.length / 5, ∀ s, (ofBytes bytes).answer count ≠ some (.ok s) := by
  apply Classical.byContradiction
  intro hno
  have hall : ∀ i < bytes.length / 5 + 1, ∃ s, (ofBytes bytes).answer i = some (.ok s) := by
    intro i hi
    by_cases hsome : ∃ s, (ofBytes bytes).answer i = some (.ok s)
    · exact hsome
    · exact absurd ⟨i, Nat.le_of_lt_succ hi, fun s hs => hsome ⟨s, hs⟩⟩ hno
  -- One segment more than a fifth of the bytes would take more than all bytes.
  have hlen := length_handedOut_of_ok hall
  have hle := five_mul_length_handedOut_le bytes (bytes.length / 5 + 1)
  omega

theorem drainOnto_eq (done : List (Except Malformed Segment)) (fuel : Nat) (r : Reader) :
    drainOnto done fuel r = (((List.range fuel).filterMap r.answer).reverse ++ done, r.after fuel) := by
  induction fuel generalizing done r with
  | zero => rfl
  | succ fuel ih =>
    have hsplit : (List.range (fuel + 1)).filterMap r.answer =
        r.next.1.toList ++ (List.range fuel).filterMap r.next.2.answer := by
      have hlater : r.answer ∘ Nat.succ = r.next.2.answer := funext (answer_succ r)
      rw [List.range_succ_eq_map, List.filterMap_cons, List.filterMap_map, hlater]
      cases h : r.next.1 <;> simp [answer, after, h]
    rw [hsplit, after_succ]
    cases h : r.next with
    | mk item r' =>
      cases item with
      | none =>
        have hcall := called_next r
        rw [h] at hcall
        have hrest := after_of_finished (hcall.finished nofun)
        have hnone : (List.range fuel).filterMap r'.answer = [] :=
          List.filterMap_eq_nil_iff.mpr fun i _ => (hrest i).2
        simp [drainOnto, h, hnone, (hrest fuel).1]
      | some item => simp [drainOnto, h, ih]

/-- Draining comes to the last call: what it returns is what the calls answer, and no later one answers. -/
theorem drain_ofBytes (bytes : List UInt8) :
    (ofBytes bytes).drain = ((List.range (bytes.length + 1)).filterMap (ofBytes bytes).answer,
      (ofBytes bytes).after (bytes.length + 1)) ∧
    ((ofBytes bytes).after (bytes.length + 1)).finished = true := by
  have hrest : (ofBytes bytes).rest.length = bytes.length := rfl
  refine ⟨by simp [drain, drainOnto_eq, hrest], ?_⟩
  obtain ⟨count, hcount, hstop⟩ := exists_stop bytes
  have hlen : count + 1 + (bytes.length - count) = bytes.length + 1 := by omega
  rw [← hlen, (after_of_stop hstop _).1]
  exact (called_after _ count).finished hstop

theorem mirrors_after (hbound : bytes.length < Word.offsetBound) (count : Nat) :
    ∃ p, Place.after bytes count .front = some p ∧ p.Mirrors ((ofBytes bytes).after count) := by
  induction count with
  | zero => exact ⟨.front, rfl, rfl, rfl, rfl, rfl, fun _ => rfl⟩
  | succ count ih =>
    obtain ⟨p, hp, hmirrors⟩ := ih
    obtain ⟨p', hnext, hmirrors'⟩ :=
      hmirrors.next hbound (consistent_after bytes count).within (called_after _ count)
    exact ⟨p', by simp [Place.after, hp, hnext], hmirrors'⟩

/-- Every call keeps the reader of a buffer consistent with it and moves it forward; the first call without a
segment, which comes within a fifth of the bytes, is the last that changes anything, so draining comes to an
end. In place, where the buffer has 64-bit offsets, every call has an outcome, and it is the same. -/
theorem calls_consistent_and_fused (bytes : List UInt8) :
    (∀ count, ((ofBytes bytes).after count).Consistent bytes ((ofBytes bytes).handedOut count).length ∧
        ((ofBytes bytes).after count).Advances ((ofBytes bytes).answer count)
          ((ofBytes bytes).after (count + 1))) ∧
      (∀ count, (∀ s, (ofBytes bytes).answer count ≠ some (.ok s)) → ∀ more,
        (ofBytes bytes).after (count + 1 + more) = (ofBytes bytes).after (count + 1) ∧
          (ofBytes bytes).answer (count + 1 + more) = none) ∧
      (∃ count ≤ bytes.length / 5, ∀ s, (ofBytes bytes).answer count ≠ some (.ok s)) ∧
      ((ofBytes bytes).drain.2.finished = true ∧
        ((ofBytes bytes).drain.1.filterMap Except.toOption).length ≤ bytes.length / 5) ∧
      (bytes.length < Word.offsetBound → ∀ count, ∃ p p', Place.after bytes count .front = some p ∧
        p.Mirrors ((ofBytes bytes).after count) ∧
        p.next bytes = some ((ofBytes bytes).answer count, p') ∧
        p'.Mirrors ((ofBytes bytes).after (count + 1))) := by
  refine ⟨fun count => ?_, fun count hstop more => after_of_stop hstop more, exists_stop bytes, ?_, ?_⟩
  · have hconsistent := consistent_after bytes count
    exact ⟨hconsistent, (called_after _ count).advances hconsistent⟩
  · obtain ⟨hdrain, hfinished⟩ := drain_ofBytes bytes
    rw [hdrain]
    refine ⟨hfinished, ?_⟩
    rw [List.filterMap_filterMap]
    have hle := five_mul_length_handedOut_le bytes (bytes.length + 1)
    rw [handedOut] at hle
    omega
  · intro hbound count
    obtain ⟨p, hp, hmirrors⟩ := mirrors_after hbound count
    obtain ⟨p', hnext, hmirrors'⟩ :=
      hmirrors.next hbound (consistent_after bytes count).within (called_after _ count)
    exact ⟨p, p', hp, hmirrors, hnext, hmirrors'⟩

/-- The second call meets a malformed header. -/
theorem calls_behind_malformed :
    (∀ more, (ofBytes [0xFF, 0xFF, 0x00, 0x20, 0x01, 0x20, 0xA9, 0x05, 0xFF, 0xFF, 0x00, 0x30, 0xFF, 0x2F,
        0x01, 0x02]).answer (1 + 1 + more) = none) ∧
      ∃ p p', Place.after [0xFF, 0xFF, 0x00, 0x20, 0x01, 0x20, 0xA9, 0x05, 0xFF, 0xFF, 0x00, 0x30, 0xFF, 0x2F,
          0x01, 0x02] 1 .front = some p ∧
        p.next [0xFF, 0xFF, 0x00, 0x20, 0x01, 0x20, 0xA9, 0x05, 0xFF, 0xFF, 0x00, 0x30, 0xFF, 0x2F, 0x01,
          0x02] = some (some (.error ⟨10, 0x3000, 0x2FFF, 0, 2⟩), p') ∧ p'.position = 14 := by
  have hanswer : (ofBytes [0xFF, 0xFF, 0x00, 0x20, 0x01, 0x20, 0xA9, 0x05, 0xFF, 0xFF, 0x00, 0x30, 0xFF,
      0x2F, 0x01, 0x02]).answer 1 = some (.error ⟨10, 0x3000, 0x2FFF, 0, 2⟩) := rfl
  obtain ⟨-, hfused, -, -, hplace⟩ := calls_consistent_and_fused
    [0xFF, 0xFF, 0x00, 0x20, 0x01, 0x20, 0xA9, 0x05, 0xFF, 0xFF, 0x00, 0x30, 0xFF, 0x2F, 0x01, 0x02]
  have hstop := hfused 1 fun s h => by cases hanswer.symm.trans h
  obtain ⟨p, p', hp, -, hnext, hmirrors⟩ := hplace (by decide) 1
  rw [hanswer] at hnext
  exact ⟨fun more => (hstop more).2, p, p', hp, hnext, hmirrors.position_eq.trans (by decide)⟩

end Disasm6502.Reader
