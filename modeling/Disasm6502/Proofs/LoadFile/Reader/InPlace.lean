import Disasm6502.LoadFile.Reader.InPlace
import Disasm6502.Proofs.LoadFile.Reader

/-!
# A reader and a place

No step of reading at positions of a buffer misses the buffer: from the front on, such a reader goes along with the
one that walks the bytes.
-/
namespace Disasm6502

namespace Place

/-- The place is where the reader stands. -/
structure Mirrors (p : Place) (r : Reader) : Prop where
  position_eq : p.position = r.offset
  markers_eq : p.markers = r.markers
  finished_eq : p.finished = r.finished
  trailing_eq : p.trailing = r.trailing
  allowed_eq : r.finished = false → r.allowed = if p.started then innerMarkers else openingMarkers

end Place

variable {bytes : List UInt8}

theorem remaining?_of_drop {rest : List UInt8} {position : Nat} (hle : position ≤ bytes.length)
    (hdrop : bytes.drop position = rest) : remaining? bytes position = some rest.length := by
  rw [remaining?, if_pos hle, ← hdrop, List.length_drop]

theorem slice?_of_drop {part rest : List UInt8} {first : Nat} (hle : first ≤ bytes.length)
    (hdrop : bytes.drop first = part ++ rest) : slice? bytes first (first + part.length) = some part := by
  have hlen := congrArg List.length hdrop
  rw [List.length_drop, List.length_append] at hlen
  rw [slice?, if_pos (by omega), hdrop, Nat.add_sub_cancel_left, List.take_left]

/-- The two words of a header are read one behind the other where its bytes stand. -/
theorem Header.words_read_iff (hbound : bytes.length < Word.offsetBound) {offset : Nat} {h : Header} :
    Word.read? bytes offset = some h.start ∧ Word.read? bytes (offset + 2) = some h.last ↔
      h.toBytes <+: bytes.drop offset := by
  rw [Word.read?_eq_some_iff hbound, Word.read?_eq_some_iff hbound, ← List.drop_drop, Header.toBytes]
  -- What is left behind the first word is what the second one has to lead.
  constructor
  · rintro ⟨⟨rest, hstart⟩, hlast⟩
    rw [← hstart, List.drop_left' (Word.length_toBytes h.start)] at hlast
    rw [← hstart]
    exact (List.prefix_append_right_inj _).mpr hlast
  · rintro ⟨rest, hheader⟩
    rw [← hheader, List.append_assoc, List.drop_left' (Word.length_toBytes h.start)]
    exact ⟨List.prefix_append _ _, List.prefix_append _ _⟩

namespace Place

theorem passMarkers_eq (hbound : bytes.length < Word.offsetBound) {allowed count : Nat}
    {behind : List UInt8} {p : Place} (hdrop : bytes.drop p.position = encodeMarkers count ++ behind)
    (hle : count ≤ allowed) (hgreedy : Marked behind → count = allowed) :
    p.passMarkers bytes allowed =
      { p with position := p.position + markerSize * count, markers := p.markers + count } := by
  induction allowed generalizing count p with
  | zero =>
    obtain rfl : count = 0 := Nat.le_zero.mp hle
    rfl
  | succ allowed ih =>
    have hmarker : Word.read? bytes p.position = some markerWord ↔ Marked (encodeMarkers count ++ behind) := by
      rw [← hdrop]
      exact Word.read?_eq_some_iff hbound
    rw [passMarkers, passMarker]
    cases count with
    | zero =>
      -- No marker stands here, and none will be found here later on.
      have hno : ¬ Marked behind := fun hm => absurd (hgreedy hm) (Nat.succ_ne_zero allowed).symm
      rw [if_neg (mt hmarker.mp hno)]
      exact ih hdrop (Nat.zero_le allowed) fun hm => absurd hm hno
    | succ count =>
      rw [if_pos (hmarker.mpr (marked_cons_cons _))]
      have hrest : bytes.drop (p.position + markerSize) = encodeMarkers count ++ behind := by
        rw [← List.drop_drop, hdrop]
        rfl
      rw [ih hrest (Nat.le_of_succ_le_succ hle) fun hm => Nat.succ.inj (hgreedy hm)]
      simp only [Place.mk.injEq, and_self, and_true]
      constructor
      · rw [markerSize]
        omega
      · omega

variable {p : Place}

theorem readSegment_residue {residue : List UInt8} (hle : p.position ≤ bytes.length)
    (hdrop : bytes.drop p.position = residue) (hshort : residue.length < Header.size) :
    p.readSegment bytes =
      some (none, { p with
        position := p.position + residue.length
        trailing := if residue = [] then p.trailing else some { offset := p.position, bytes := residue } }) := by
  have hremaining := remaining?_of_drop hle hdrop
  have hend : p.position + residue.length = bytes.length := by
    rw [← hdrop, List.length_drop]
    omega
  have hslice : slice? bytes p.position bytes.length = some residue := by
    rw [← hend]
    exact slice?_of_drop hle (hdrop.trans (List.append_nil residue).symm)
  by_cases hempty : residue = []
  · subst hempty
    simp [readSegment, hremaining]
  · have hpos : residue.length ≠ 0 := fun h => hempty (List.length_eq_zero_iff.mp h)
    simp [readSegment, hremaining, hslice, hend, hempty, hshort]

/-- Where a header stands, its two words and the bytes behind it are found. -/
theorem readSegment_header (hbound : bytes.length < Word.offsetBound) {header : Header} {rest : List UInt8}
    (hle : p.position ≤ bytes.length) (hdrop : bytes.drop p.position = header.toBytes ++ rest) :
    p.readSegment bytes =
      if header.bodyLen = 0 ∨ rest.length < header.bodyLen then
        some ((Ending.fault? p.position (.malformed header rest)).map Except.error,
          { p with position := p.position + Header.size })
      else
        (slice? bytes (p.position + Header.size) (p.position + Header.size + header.bodyLen)).bind fun block =>
          some (some (.ok ⟨header.start, header.last, block⟩),
            { p with position := p.position + Header.size + header.bodyLen }) := by
  have hlen := congrArg List.length hdrop
  have hsize : (header.toBytes ++ rest).length = Header.size + rest.length := by
    rw [List.length_append]
    rfl
  rw [List.length_drop, hsize] at hlen
  have hremaining := remaining?_of_drop hle hdrop
  rw [hsize] at hremaining
  obtain ⟨hstart, hlast⟩ := (Header.words_read_iff hbound).mpr ⟨rest, hdrop.symm⟩
  have havailable : remaining? bytes (p.position + Header.size) = some rest.length := by
    apply remaining?_of_drop (by omega)
    rw [← List.drop_drop, hdrop]
    rfl
  have hroom : ¬ Header.size + rest.length = 0 ∧ ¬ Header.size + rest.length < Header.size := by
    rw [Header.size]
    omega
  simp only [readSegment, hremaining, hstart, hlast, havailable, Option.bind_eq_bind, Option.bind_some,
    if_neg hroom.1, if_neg hroom.2]
  rfl

theorem readSegment_malformed (hbound : bytes.length < Word.offsetBound) {header : Header}
    {rest : List UInt8} (hle : p.position ≤ bytes.length)
    (hdrop : bytes.drop p.position = header.toBytes ++ rest)
    (hfinal : (Ending.malformed header rest).Final) :
    p.readSegment bytes =
      some ((Ending.fault? p.position (.malformed header rest)).map Except.error,
        { p with position := p.position + Header.size }) :=
  (readSegment_header hbound hle hdrop).trans (if_pos hfinal)

theorem readSegment_complete (hbound : bytes.length < Word.offsetBound) {s : Segment} {rest : List UInt8}
    (hle : p.position ≤ bytes.length) (hs : s.Complete)
    (hdrop : bytes.drop p.position = s.header.toBytes ++ (s.bytes ++ rest)) :
    p.readSegment bytes =
      some (some (.ok s), { p with position := p.position + Header.size + s.len }) := by
  obtain ⟨hpos, hlen⟩ := s.complete_iff.mp hs
  have hfull : ¬ (s.header.bodyLen = 0 ∨ (s.bytes ++ rest).length < s.header.bodyLen) := by
    rw [List.length_append, ← hlen, Segment.len]
    rw [← hlen, Segment.len] at hpos
    omega
  have hbody : bytes.drop (p.position + Header.size) = s.bytes ++ rest := by
    rw [← List.drop_drop, hdrop]
    rfl
  have hsize := congrArg List.length hdrop
  rw [List.length_drop, List.length_append] at hsize
  have hheader : s.header.toBytes.length = Header.size := rfl
  have hblock : s.bytes.length = s.header.bodyLen := hlen
  have hslice : slice? bytes (p.position + Header.size) (p.position + Header.size + s.header.bodyLen) =
      some s.bytes := by
    rw [← hblock]
    exact slice?_of_drop (by omega) hbody
  rw [readSegment_header hbound hle hdrop, if_neg hfull, hslice, hlen]
  rfl

variable {r r' : Reader} {answer : Option (Except Malformed Segment)}

/-- The place behind the markers that stand in front of a reader. -/
theorem Mirrors.passMarkers (hbound : bytes.length < Word.offsetBound) (h : p.Mirrors r)
    (hr : r.Within bytes) (hopen : r.finished = false) {count : Nat} {behind : List UInt8}
    (hrest : r.rest = encodeMarkers count ++ behind) (hle : count ≤ r.allowed)
    (hgreedy : Marked behind → count = r.allowed) :
    ∃ q : Place, { p with started := true }.passMarkers bytes
        (if p.started then innerMarkers else openingMarkers) = q ∧
      q.position = r.offset + markerSize * count ∧ q.markers = r.markers + count ∧ q.started = true ∧
      q.trailing = r.trailing ∧ q.finished = false ∧ q.position ≤ bytes.length ∧
      bytes.drop q.position = behind := by
  obtain ⟨hposition, hmarkers, hfinished, htrailing, hallowed⟩ := h
  obtain ⟨hinside, hbehind⟩ := hr.pass hrest
  rw [length_encodeMarkers] at hinside hbehind
  have hdrop : bytes.drop p.position = encodeMarkers count ++ behind := by
    rw [hposition, ← hr.rest_eq, hrest]
  rw [hallowed hopen] at hle hgreedy
  refine ⟨_, passMarkers_eq (p := { p with started := true }) hbound hdrop hle hgreedy, ?_⟩
  simp only [hposition, hmarkers, htrailing, hfinished, hopen, hinside, hbehind, and_self]

/-- One call on both sides: in place there is an outcome, with the same answer. -/
theorem Mirrors.next (hbound : bytes.length < Word.offsetBound) (h : p.Mirrors r) (hr : r.Within bytes)
    (hcall : r.Called answer r') : ∃ p', p.next bytes = some (answer, p') ∧ p'.Mirrors r' := by
  have hfinished := h.finished_eq
  cases hcall with
  | stopped finished => exact ⟨p, if_pos (hfinished.trans finished), h⟩
  | @entry e rest unfinished lawful rest_eq =>
    rw [Entry.encode, List.append_assoc, List.append_assoc] at rest_eq
    obtain ⟨q, hpass, hposition, hmarkers, hstarted, htrailing, hopen, hinside, hdrop⟩ :=
      h.passMarkers hbound hr unfinished rest_eq lawful.le
        fun hm => lawful.greedy ((marked_header e.segment.header _).mp hm)
    have hread := readSegment_complete hbound hinside lawful.complete hdrop
    have hnext : ¬ p.finished = true := by simp [hfinished, unfinished]
    refine ⟨{ q with position := q.position + Header.size + e.segment.len }, ?_, ?_⟩
    · rw [Place.next, if_neg hnext]
      simp only [hpass, hread]
      rfl
    · refine ⟨?_, hmarkers, hopen.trans unfinished.symm, htrailing, fun _ => ?_⟩
      · simp [hposition, Reader.behindEntry, Entry.len, Nat.add_assoc]
      · simp [hstarted, Reader.behindEntry]
  | @ending count ending endsIn =>
    obtain ⟨unfinished, hle, hgreedy, hfinal, rest_eq⟩ := endsIn
    obtain ⟨q, hpass, hposition, hmarkers, hstarted, htrailing, hopen, hinside, hdrop⟩ :=
      h.passMarkers hbound hr unfinished rest_eq hle hgreedy
    have hnext : ¬ p.finished = true := by simp [hfinished, unfinished]
    have hstopped (allowed : Nat) : (r.stopAt count ending).finished = false →
        (r.stopAt count ending).allowed = allowed := by
      rw [Reader.stopAt_finished]
      intro h
      cases h
    rw [Place.next, if_neg hnext]
    rcases ending with residue | ⟨header, rest⟩
    · have hread := readSegment_residue hinside hdrop hfinal
      simp only [hpass, hread]
      refine ⟨_, rfl, ?_, hmarkers, rfl, ?_, hstopped _⟩
      · simp [hposition, Reader.stopAt, Ending.encode]
      · simp [hposition, htrailing, Reader.stopAt, Ending.encode]
    · have hread := readSegment_malformed hbound hinside hdrop hfinal
      rw [hposition] at hread
      simp only [hpass, hread]
      exact ⟨_, rfl, rfl, hmarkers, rfl, htrailing, hstopped _⟩

end Place
end Disasm6502
