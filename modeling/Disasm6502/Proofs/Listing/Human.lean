import Disasm6502.Listing
import Disasm6502.Proofs.Disassembly.Decoding
import Disasm6502.Proofs.Fault

/-!
# Assembler listings are unambiguous

A listing is cut in one way into its segments, a segment into its lines and a line into its parts: each starts
in a way in which what may stand in its place does not. The line of an item shows its address and its bytes,
and these settle the item.
-/
namespace Disasm6502

theorem endsRow_padding (count : Nat) (rest : List Char) :
    Hex.EndsRow (List.replicate count ' ' ++ ' ' :: ' ' :: rest) := by
  rcases count with _ | _ | count
  all_goals exact Hex.endsRow_cons fun _ => rfl

/-- All lines show address and bytes at the same place, and what follows is no further byte. -/
theorem Item.toList_line (item : Item) : ∃ gap tail : List Char, gap.length = 2 ∧
    (∀ rest, Hex.EndsRow (tail ++ rest)) ∧
      item.line.toList =
        (Hex.upper 4 item.address.toNat).toList ++ (gap ++ ((Hex.spaced item.bytes).toList ++ tail)) := by
  cases item with
  | instruction i =>
    refine ⟨[' ', ' '], List.replicate (bytesColumn - (Hex.spaced i.bytes).length) ' ' ++ ' ' :: ' ' ::
      i.text.toList, rfl, fun rest => ?_, ?_⟩
    · rw [List.append_assoc]
      exact endsRow_padding _ _
    · simp [line, padRight, blanks, address, bytes]
  | unknown address opcode =>
    refine ⟨[':', ' '], [' ', '?', '?', '?'], rfl, fun rest => Hex.endsRow_cons fun _ => rfl, ?_⟩
    simp [line, Item.address, bytes, Hex.toList_spaced_singleton]
  | truncated address opcode bytes expectedLen =>
    refine ⟨[':', ' '], " (Partial)".toList, rfl, fun rest => Hex.endsRow_cons fun _ => rfl, ?_⟩
    simp [line, Item.address, Item.bytes]

/-- A line of a sweep is the line of one item, and of no item and some text behind it. -/
theorem line_append_inj {base base' : UInt16} {bytes bytes' : List UInt8} {item item' : Item}
    {rest rest' : List Char} (hitem : item ∈ sweep base bytes) (hitem' : item' ∈ sweep base' bytes')
    (h : item.line.toList ++ rest = item'.line.toList ++ rest') : item = item' ∧ rest = rest' := by
  obtain ⟨gap, tail, hgap, hends, hline⟩ := item.toList_line
  obtain ⟨gap', tail', hgap', hends', hline'⟩ := item'.toList_line
  have hsplit := h
  rw [hline, hline'] at hsplit
  simp only [List.append_assoc] at hsplit
  obtain ⟨haddress, hsplit⟩ := Hex.upper_word_append_inj hsplit
  obtain ⟨-, hsplit⟩ := List.append_inj hsplit (hgap.trans hgap'.symm)
  obtain ⟨hbytes, -⟩ := Hex.spaced_append_inj (List.ne_nil_of_length_pos (Item.len_pos_of_mem_sweep hitem))
    (List.ne_nil_of_length_pos (Item.len_pos_of_mem_sweep hitem')) (hends rest) (hends' rest') hsplit
  obtain rfl := Item.eq_of_mem_sweep hitem hitem' haddress hbytes
  exact ⟨rfl, List.append_cancel_left h⟩

theorem Item.line_ne_closing (item : Item) (rest rest' : List Char) :
    item.line.toList ++ rest ≠ ';' :: rest' := by
  obtain ⟨gap, tail, -, -, hline⟩ := item.toList_line
  obtain ⟨c, digits, hdigits, hc⟩ := Hex.exists_upper_word item.address
  intro h
  rw [hline, hdigits] at h
  obtain rfl : c = ';' := (List.cons.inj h).1
  exact absurd hc (by decide)

/-- The lines of a segment end with the one that closes it, which starts like no address. -/
theorem lines_append_inj {base base' : UInt16} {bytes bytes' : List UInt8} {items items' : List Item}
    {rest rest' : List Char} (hitems : ∀ item ∈ items, item ∈ sweep base bytes)
    (hitems' : ∀ item ∈ items', item ∈ sweep base' bytes')
    (h : (items.flatMap fun item => item.line.toList ++ ['\n']) ++ ';' :: rest =
      (items'.flatMap fun item => item.line.toList ++ ['\n']) ++ ';' :: rest') :
    items = items' ∧ rest = rest' := by
  induction items generalizing items' with
  | nil =>
    cases items' with
    | nil => exact ⟨rfl, (List.cons.inj h).2⟩
    | cons item' items' =>
      rw [List.flatMap_cons, List.append_assoc, List.append_assoc] at h
      exact absurd h.symm (item'.line_ne_closing _ _)
  | cons item items ih =>
    cases items' with
    | nil =>
      rw [List.flatMap_cons, List.append_assoc, List.append_assoc] at h
      exact absurd h (item.line_ne_closing _ _)
    | cons item' items' =>
      obtain ⟨hfirst, hmore⟩ := List.forall_mem_cons.mp hitems
      obtain ⟨hfirst', hmore'⟩ := List.forall_mem_cons.mp hitems'
      rw [List.flatMap_cons, List.flatMap_cons] at h
      simp only [List.append_assoc] at h
      obtain ⟨rfl, hbehind⟩ := line_append_inj hfirst hfirst' h
      obtain ⟨rfl, hrest⟩ := ih hmore hmore' (List.cons.inj hbehind).2
      exact ⟨rfl, hrest⟩

namespace Human

theorem toList_segment (s : DecodedSegment) (rest : List Char) : (segment s).toList ++ rest =
    "; Segment ".toList ++ ((Hex.upper 4 s.segment.start.toNat).toList ++ '-' ::
      ((Hex.upper 4 s.segment.last.toNat).toList ++ '\n' ::
        ((s.items.flatMap fun item => item.line.toList ++ ['\n']) ++ ';' :: '\n' :: rest))) := by
  simp [segment, Segment.range, List.flatMap_map]

theorem segment_append_inj {s t : DecodedSegment} {rest rest' : List Char} (hs : s.Swept) (ht : t.Swept)
    (h : (segment s).toList ++ rest = (segment t).toList ++ rest') : s = t ∧ rest = rest' := by
  rw [toList_segment, toList_segment] at h
  obtain ⟨hstart, h⟩ := Hex.upper_word_append_inj (List.append_cancel_left h)
  obtain ⟨hlast, h⟩ := Hex.upper_word_append_inj (List.cons.inj h).2
  obtain ⟨hitems, h⟩ := lines_append_inj (fun _ => hs.mem_sweep) (fun _ => ht.mem_sweep) (List.cons.inj h).2
  exact ⟨hs.ext ht hstart hlast hitems, (List.cons.inj h).2⟩

theorem toList_trailing (t : Trailing) (rest : List Char) : (trailing t).toList ++ rest =
    "; Trailing data at offset ".toList ++ ((toString t.offset).toList ++ ':' :: ' ' ::
      ((Hex.packed t.bytes).toList ++ '\n' :: rest)) := by
  unfold trailing
  simp

theorem trailing_append_inj {t t' : Trailing} {rest rest' : List Char}
    (h : (trailing t).toList ++ rest = (trailing t').toList ++ rest') : t = t' ∧ rest = rest' := by
  rw [toList_trailing, toList_trailing] at h
  obtain ⟨hoffset, h⟩ := toString_append_inj (stopsAt_cons rfl) (stopsAt_cons rfl) (List.append_cancel_left h)
  obtain ⟨hbytes, hbehind⟩ := Hex.packed_append_inj (stopsAt_cons rfl) (stopsAt_cons rfl)
    (List.cons.inj (List.cons.inj h).2).2
  cases t
  cases t'
  cases hoffset
  cases hbytes
  exact ⟨rfl, (List.cons.inj hbehind).2⟩

theorem error_inj {m m' : Malformed} (h : error (.malformed m) = error (.malformed m')) : m = m' := by
  unfold error at h
  rw [String.append_left_inj, String.append_right_inj] at h
  exact Malformed.message_inj.mp h

/-- The text behind the segments. -/
def ending (t : Option Trailing) (m : Option Malformed) : List Char :=
  ((t.map trailing).getD "").toList ++ ((m.map fun m => error (.malformed m)).getD "").toList

theorem ending_none_none : ending none none = [] := by
  simp [ending]

theorem ending_none_some (m : Malformed) : ending none (some m) = (error (.malformed m)).toList := by
  simp [ending]

theorem ending_some (t : Trailing) (m : Option Malformed) :
    ending (some t) m = (trailing t).toList ++ ending none m := by
  simp [ending]

/-- The third character tells what a line of a header or of an ending is about. -/
theorem third_segment (s : DecodedSegment) (rest : List Char) :
    ((segment s).toList ++ rest)[2]? = some 'S' := by
  rw [toList_segment]
  rfl

theorem third_trailing (t : Trailing) (rest : List Char) : ((trailing t).toList ++ rest)[2]? = some 'T' := by
  rw [toList_trailing]
  rfl

theorem third_error (e : Fault) : (error e).toList[2]? = some 'E' := by
  unfold error
  simp

theorem third_ending_none_ne (m : Option Malformed) : (ending none m)[2]? ≠ some 'T' := by
  cases m with
  | none => rw [ending_none_none]; decide
  | some m => rw [ending_none_some, third_error]; decide

theorem third_ending_ne (t : Option Trailing) (m : Option Malformed) : (ending t m)[2]? ≠ some 'S' := by
  cases t with
  | some t => rw [ending_some, third_trailing]; decide
  | none =>
    cases m with
    | none => rw [ending_none_none]; decide
    | some m => rw [ending_none_some, third_error]; decide

theorem ending_none_inj {m m' : Option Malformed} (h : ending none m = ending none m') : m = m' := by
  have hthird : ∀ m : Malformed, ending none none ≠ ending none (some m) := by
    intro m heq
    have hchar := third_error (.malformed m)
    rw [← ending_none_some, ← heq, ending_none_none] at hchar
    cases hchar
  cases m with
  | none =>
    cases m' with
    | none => rfl
    | some m' => exact absurd h (hthird m')
  | some m =>
    cases m' with
    | none => exact absurd h.symm (hthird m)
    | some m' =>
      rw [ending_none_some, ending_none_some] at h
      exact congrArg some (error_inj (String.toList_inj.mp h))

theorem ending_inj {t t' : Option Trailing} {m m' : Option Malformed} (h : ending t m = ending t' m') :
    t = t' ∧ m = m' := by
  cases t with
  | none =>
    cases t' with
    | none => exact ⟨rfl, ending_none_inj h⟩
    | some t' =>
      rw [ending_some] at h
      exact absurd ((congrArg (·[2]?) h).trans (third_trailing t' _)) (third_ending_none_ne m)
  | some t =>
    cases t' with
    | none =>
      rw [ending_some] at h
      exact absurd ((congrArg (·[2]?) h.symm).trans (third_trailing t _)) (third_ending_none_ne m')
    | some t' =>
      rw [ending_some, ending_some] at h
      obtain ⟨rfl, hbehind⟩ := trailing_append_inj h
      exact ⟨rfl, ending_none_inj hbehind⟩

end Human

theorem segments_append_inj {segments segments' : List DecodedSegment} {t t' : Option Trailing}
    {m m' : Option Malformed} (hswept : ∀ s ∈ segments, s.Swept) (hswept' : ∀ s ∈ segments', s.Swept)
    (h : (segments.flatMap fun s => (Human.segment s).toList) ++ Human.ending t m =
      (segments'.flatMap fun s => (Human.segment s).toList) ++ Human.ending t' m') :
    segments = segments' ∧ t = t' ∧ m = m' := by
  induction segments generalizing segments' with
  | nil =>
    cases segments' with
    | nil => exact ⟨rfl, Human.ending_inj h⟩
    | cons s' segments' =>
      rw [List.flatMap_cons, List.append_assoc] at h
      exact absurd ((congrArg (·[2]?) h).trans (Human.third_segment s' _)) (Human.third_ending_ne t m)
  | cons s segments ih =>
    cases segments' with
    | nil =>
      rw [List.flatMap_cons, List.append_assoc] at h
      exact absurd ((congrArg (·[2]?) h.symm).trans (Human.third_segment s _)) (Human.third_ending_ne t' m')
    | cons s' segments' =>
      obtain ⟨hs, hmore⟩ := List.forall_mem_cons.mp hswept
      obtain ⟨hs', hmore'⟩ := List.forall_mem_cons.mp hswept'
      rw [List.flatMap_cons, List.flatMap_cons, List.append_assoc, List.append_assoc] at h
      obtain ⟨rfl, hbehind⟩ := Human.segment_append_inj hs hs' h
      obtain ⟨rfl, hends⟩ := ih hmore hmore' hbehind
      exact ⟨rfl, hends⟩

theorem toList_listing_human (path : String) (options : Options) (bytes : List UInt8) :
    ((Style.human false).listing path (Disassembly.ofBytes options bytes)).toList =
      ((Disassembly.ofBytes options bytes).segments.flatMap fun s => (Human.segment s).toList) ++
        Human.ending (Report.load options.format options.limit bytes).trailing
          (Report.load options.format options.limit bytes).error := by
  simp [Style.listing, Style.parts, Parts.text, Disassembly.ofBytes, Human.ending, List.flatMap_map,
    Function.comp_def]

/-- A listing without a header gives the segments with their items, the trailing bytes and the fault back,
however the input was taken. -/
theorem human_listing_inj {format format' : Format} {limit limit' : Option Nat} {bytes bytes' : List UInt8}
    {path path' : String}
    (h : (Style.human false).listing path (Disassembly.ofBytes { format, limit, decode := true } bytes) =
      (Style.human false).listing path' (Disassembly.ofBytes ⟨format', limit', true⟩ bytes')) :
    let d := Disassembly.ofBytes { format, limit, decode := true } bytes
    let d' := Disassembly.ofBytes ⟨format', limit', true⟩ bytes'
    d.segments = d'.segments ∧ d.trailing = d'.trailing ∧ d.error = d'.error := by
  intro d d'
  have hlist := congrArg String.toList h
  rw [toList_listing_human, toList_listing_human] at hlist
  obtain ⟨hsegments, htrailing, herror⟩ :=
    segments_append_inj (fun _ => swept_of_mem_ofBytes) (fun _ => swept_of_mem_ofBytes) hlist
  exact ⟨hsegments, htrailing, congrArg (Option.map Fault.malformed) herror⟩

/-- A marker may stand in front of a segment or behind it: the listing shows neither. -/
theorem human_listing_inj_marker :
    let front := [0xFF, 0xFF, 0x00, 0x10, 0x02, 0x10, 0xA9, 0x05, 0x4C, 0x01]
    let behind := [0x00, 0x10, 0x02, 0x10, 0xA9, 0x05, 0x4C, 0xFF, 0xFF, 0x01]
    (Style.human false).listing "a" (Disassembly.ofBytes .standard front) =
        (Style.human false).listing "b" (Disassembly.ofBytes .standard behind) ∧
      (Disassembly.ofBytes .standard front).segments = (Disassembly.ofBytes .standard behind).segments ∧
      (Disassembly.ofBytes .standard front).trailing = some ⟨9, [0x01]⟩ := by
  intro front behind
  have hlisting : (Style.human false).listing "a" (Disassembly.ofBytes .standard front) =
      (Style.human false).listing "b" (Disassembly.ofBytes .standard behind) := by
    decide +kernel
  obtain ⟨hsegments, htrailing, -⟩ := human_listing_inj hlisting
  have hbehind : (Disassembly.ofBytes .standard behind).trailing = some ⟨9, [0x01]⟩ := by decide +kernel
  exact ⟨hlisting, hsegments, htrailing.trans hbehind⟩

end Disasm6502
