import Disasm6502.LoadFile.Parse
import Disasm6502.Proofs.Word

/-!
# Lawful load files

The load files that parsing can yield: markers within what their places allow, blocks as long as their
headers say, and an ending that holds no further segment. Parsing and writing out are inverse between byte
sequences and lawful files, so whatever holds of a parse is a statement about lawful files.
-/
namespace Disasm6502

def Marked (bytes : List UInt8) : Prop := Word.toBytes markerWord <+: bytes

instance (bytes : List UInt8) : Decidable (Marked bytes) := inferInstanceAs (Decidable (_ <+: _))

/-- The block is there to its last byte, and it is not empty. -/
structure Segment.Complete (s : Segment) : Prop where
  start_le : s.start ≤ s.last
  len_eq : s.len = s.last.toNat - s.start.toNat + 1

instance (s : Segment) : Decidable s.Complete :=
  decidable_of_iff (s.start ≤ s.last ∧ s.len = s.last.toNat - s.start.toNat + 1)
    ⟨fun h => ⟨h.1, h.2⟩, fun h => ⟨h.1, h.2⟩⟩

/-- The entry as it stands where `allowed` markers may: a segment that starts with the marker's own bytes
has all of them in front. -/
structure Entry.Lawful (allowed : Nat) (e : Entry) : Prop where
  le : e.markers ≤ allowed
  greedy : e.segment.start = markerWord → e.markers = allowed
  complete : e.segment.Complete

instance (allowed : Nat) (e : Entry) : Decidable (e.Lawful allowed) :=
  decidable_of_iff (e.markers ≤ allowed ∧ (e.segment.start = markerWord → e.markers = allowed) ∧
    e.segment.Complete) ⟨fun h => ⟨h.1, h.2.1, h.2.2⟩, fun h => ⟨h.1, h.2, h.3⟩⟩

/-- No segment can be read from the ending. -/
def Ending.Final : Ending → Prop
  | residue bytes => bytes.length < Header.size
  | malformed header rest => header.bodyLen = 0 ∨ rest.length < header.bodyLen

/-- The file as it stands where `allowed` markers may lead. -/
inductive LoadFile.Lawful : Nat → LoadFile → Prop
  | ending {allowed markers : Nat} {ending : Ending} (le : markers ≤ allowed)
      (greedy : Marked ending.encode → markers = allowed) (final : ending.Final) :
      Lawful allowed ⟨[], markers, ending⟩
  | entry {allowed markers : Nat} {e : Entry} {entries : List Entry} {ending : Ending}
      (lawful : e.Lawful allowed) (rest : Lawful innerMarkers ⟨entries, markers, ending⟩) :
      Lawful allowed ⟨e :: entries, markers, ending⟩

@[simp] theorem encodeMarkers_zero : encodeMarkers 0 = [] := rfl

@[simp] theorem encodeMarkers_succ (count : Nat) :
    encodeMarkers (count + 1) = 0xFF :: 0xFF :: encodeMarkers count := rfl

@[simp] theorem length_encodeMarkers (count : Nat) : (encodeMarkers count).length = markerSize * count := by
  induction count with
  | zero => rfl
  | succ count ih => simp [ih, markerSize, Nat.mul_add]

theorem marked_cons_cons (rest : List UInt8) : Marked (0xFF :: 0xFF :: rest) := ⟨rest, rfl⟩

/-- A header is taken for a marker exactly when it starts with the marker's word. -/
theorem marked_header (h : Header) (rest : List UInt8) :
    Marked (h.toBytes ++ rest) ↔ h.start = markerWord := by
  have htake : (h.toBytes ++ rest).take (Word.toBytes markerWord).length = Word.toBytes h.start := by
    rw [Header.toBytes, List.append_assoc, Word.length_toBytes]
    exact List.take_left' (Word.length_toBytes h.start)
  rw [Marked, List.prefix_iff_eq_take, htake, Word.toBytes_inj]
  exact eq_comm

/-- A marker leads where markers are taken, since greediness leaves none behind. -/
theorem marked_encodeMarkers_append {count allowed : Nat} {rest : List UInt8} (hallowed : 0 < allowed)
    (hgreedy : Marked rest → count = allowed) : Marked (encodeMarkers count ++ rest) ↔ 0 < count := by
  cases count with
  | zero =>
    have hunmarked : ¬ Marked rest := fun hm => Nat.ne_of_lt hallowed (hgreedy hm)
    exact iff_of_false hunmarked (Nat.lt_irrefl 0)
  | succ count => exact iff_of_true (marked_cons_cons _) (Nat.succ_pos count)

theorem takeMarkers_of_not_marked (allowed : Nat) {bytes : List UInt8} (h : ¬ Marked bytes) :
    takeMarkers allowed bytes = (0, bytes) := by
  unfold takeMarkers
  split
  · exact absurd (marked_cons_cons _) h
  · rfl

theorem takeMarkers_spec (allowed : Nat) (bytes : List UInt8) :
    bytes = encodeMarkers (takeMarkers allowed bytes).1 ++ (takeMarkers allowed bytes).2 ∧
      (takeMarkers allowed bytes).1 ≤ allowed ∧
      (Marked (takeMarkers allowed bytes).2 → (takeMarkers allowed bytes).1 = allowed) := by
  fun_induction takeMarkers allowed bytes with
  | case1 allowed rest count behind h ih =>
    rw [h] at ih
    obtain ⟨hbytes, hle, hgreedy⟩ := ih
    refine ⟨?_, Nat.succ_le_succ hle, fun hm => congrArg (· + 1) (hgreedy hm)⟩
    rw [encodeMarkers_succ, List.cons_append, List.cons_append, ← hbytes]
  | case2 allowed bytes h =>
    refine ⟨rfl, Nat.zero_le _, fun hm => ?_⟩
    obtain ⟨rest, hr⟩ := hm
    cases allowed with
    | zero => rfl
    | succ allowed => exact absurd hr.symm (h allowed rest rfl)

/-- A run of markers is taken back whole when no further one may be taken with it. -/
theorem takeMarkers_encodeMarkers {allowed count : Nat} {rest : List UInt8} (hle : count ≤ allowed)
    (hgreedy : Marked rest → count = allowed) :
    takeMarkers allowed (encodeMarkers count ++ rest) = (count, rest) := by
  induction count generalizing allowed with
  | zero =>
    cases allowed with
    | zero => rfl
    | succ allowed => exact takeMarkers_of_not_marked _ fun hm => by simpa using hgreedy hm
  | succ count ih =>
    -- Greediness passes to the inner run, where one marker less is allowed.
    obtain ⟨allowed, rfl⟩ : ∃ n, allowed = n + 1 := ⟨allowed - 1, by omega⟩
    have hrest : takeMarkers allowed (encodeMarkers count ++ rest) = (count, rest) :=
      ih (Nat.le_of_succ_le_succ hle) fun hm => Nat.succ.inj (hgreedy hm)
    rw [encodeMarkers_succ, List.cons_append, List.cons_append, takeMarkers, hrest]

theorem Segment.complete_iff (s : Segment) :
    s.Complete ↔ s.header.bodyLen ≠ 0 ∧ s.len = s.header.bodyLen := by
  have hle : s.start ≤ s.last ↔ s.start.toNat ≤ s.last.toNat := UInt16.le_iff_toNat_le
  constructor
  · intro h
    have hs := hle.mp h.start_le
    have hl := h.len_eq
    simp only [Header.bodyLen, Segment.header]
    omega
  · intro h
    obtain ⟨hs, hl⟩ := h
    simp only [Header.bodyLen, Segment.header] at hs hl
    exact ⟨hle.mpr (by omega), by omega⟩

theorem Ending.orSegment_header (h : Header) (rest : List UInt8) :
    Ending.orSegment (h.toBytes ++ rest) =
      if h.bodyLen = 0 ∨ rest.length < h.bodyLen then .error (.malformed h rest)
      else .ok (⟨h.start, h.last, rest.take h.bodyLen⟩, rest.drop h.bodyLen) := by
  have hshort : (rest.take h.bodyLen).length < h.bodyLen ↔ rest.length < h.bodyLen := by
    rw [List.length_take]
    omega
  simp only [Header.toBytes, Word.toBytes, List.cons_append, List.nil_append, Ending.orSegment,
    Word.ofBytes_halves, hshort]

theorem Ending.orSegment_final {ending : Ending} (h : ending.Final) :
    Ending.orSegment ending.encode = .error ending := by
  cases ending with
  | residue bytes =>
    match bytes, h with
    | [], _ | [_], _ | [_, _], _ | [_, _, _], _ => rfl
    | _ :: _ :: _ :: _ :: rest, h =>
      simp only [Ending.Final, Header.size, List.length_cons] at h
      omega
  | malformed header rest =>
    rw [Ending.encode, Ending.orSegment_header]
    exact if_pos h

theorem Ending.orSegment_complete {s : Segment} (h : s.Complete) (rest : List UInt8) :
    Ending.orSegment (s.header.toBytes ++ (s.bytes ++ rest)) = .ok (s, rest) := by
  obtain ⟨hpos, hlen⟩ := s.complete_iff.mp h
  have hlen' : s.bytes.length = s.header.bodyLen := hlen
  rw [Ending.orSegment_header, if_neg (by rw [List.length_append]; omega),
    List.take_left' hlen', List.drop_left' hlen']
  rfl

/-- Bytes are an ending, or a segment and bytes behind it. -/
theorem Ending.final_or_complete (bytes : List UInt8) :
    (∃ ending : Ending, ending.Final ∧ bytes = ending.encode) ∨
      ∃ (s : Segment) (rest : List UInt8), s.Complete ∧ bytes = s.header.toBytes ++ (s.bytes ++ rest) := by
  match bytes with
  | [] | [_] | [_, _] | [_, _, _] => exact .inl ⟨.residue _, by simp [Ending.Final, Header.size], rfl⟩
  | a :: b :: c :: d :: rest =>
    let header : Header := ⟨Word.ofBytes a b, Word.ofBytes c d⟩
    have hbytes : a :: b :: c :: d :: rest = header.toBytes ++ rest := by
      simp [Header.toBytes, header]
    by_cases hfinal : header.bodyLen = 0 ∨ rest.length < header.bodyLen
    · exact .inl ⟨.malformed header rest, hfinal, hbytes⟩
    · let s : Segment := ⟨header.start, header.last, rest.take header.bodyLen⟩
      refine .inr ⟨s, rest.drop header.bodyLen, s.complete_iff.mpr ?_, ?_⟩
      · have hlen : s.len = min header.bodyLen rest.length := List.length_take
        have hheader : s.header = header := rfl
        rw [hheader, hlen]
        omega
      · rw [hbytes, List.take_append_drop]
        rfl

namespace LoadFile

@[simp] theorem encode_cons (e : Entry) (entries : List Entry) (markers : Nat) (ending : Ending) :
    encode ⟨e :: entries, markers, ending⟩ = e.encode ++ encode ⟨entries, markers, ending⟩ := by
  simp [encode, List.append_assoc]

theorem parseFrom_ending {allowed markers : Nat} {ending : Ending} (hle : markers ≤ allowed)
    (hgreedy : Marked ending.encode → markers = allowed) (hfinal : ending.Final) :
    parseFrom allowed (encodeMarkers markers ++ ending.encode) = ⟨[], markers, ending⟩ := by
  rw [parseFrom_eq, takeMarkers_encodeMarkers hle hgreedy]
  simp only [Ending.orSegment_final hfinal]

theorem parseFrom_entry {allowed : Nat} {e : Entry} (h : e.Lawful allowed) (rest : List UInt8) :
    parseFrom allowed (e.encode ++ rest) = (parseFrom innerMarkers rest).prepend [e] := by
  have hgreedy : Marked (e.segment.header.toBytes ++ (e.segment.bytes ++ rest)) → e.markers = allowed :=
    fun hm => h.greedy ((marked_header e.segment.header _).mp hm)
  rw [Entry.encode, List.append_assoc, List.append_assoc, parseFrom_eq,
    takeMarkers_encodeMarkers h.le hgreedy]
  simp only [Ending.orSegment_complete h.complete]

theorem parseFrom_encode {allowed : Nat} {f : LoadFile} (h : f.Lawful allowed) :
    parseFrom allowed f.encode = f := by
  induction h with
  | ending le greedy final => exact parseFrom_ending le greedy final
  | entry lawful rest ih =>
    rw [encode_cons, parseFrom_entry lawful, ih]
    rfl

/-- Every byte sequence is a lawful file written out. -/
theorem exists_lawful (allowed : Nat) (bytes : List UInt8) :
    ∃ f : LoadFile, f.Lawful allowed ∧ f.encode = bytes := by
  induction hn : bytes.length using Nat.strongRecOn generalizing allowed bytes with
  | ind n ih =>
    -- A header is four bytes, so what stands behind a block is shorter than what it was read from.
    obtain ⟨hbytes, hle, hgreedy⟩ := takeMarkers_spec allowed bytes
    generalize (takeMarkers allowed bytes).1 = count at hbytes hle hgreedy
    generalize (takeMarkers allowed bytes).2 = behind at hbytes hgreedy
    obtain ⟨ending, hfinal, rfl⟩ | ⟨s, rest, hs, rfl⟩ := Ending.final_or_complete behind
    · exact ⟨⟨[], count, ending⟩, .ending hle hgreedy hfinal, hbytes.symm⟩
    · have hshort : rest.length < n := by
        rw [← hn, hbytes]
        simp [Header.toBytes]
        omega
      obtain ⟨f, hf, hrest⟩ := ih _ hshort innerMarkers rest rfl
      have he : Entry.Lawful allowed ⟨count, s⟩ :=
        ⟨hle, fun hstart => hgreedy ((marked_header s.header _).mpr hstart), hs⟩
      refine ⟨⟨⟨count, s⟩ :: f.entries, f.markers, f.ending⟩, .entry he hf, ?_⟩
      rw [encode_cons, hrest, hbytes]
      simp [Entry.encode, List.append_assoc]

theorem parseFrom_eq_iff {allowed : Nat} {bytes : List UInt8} {f : LoadFile} :
    parseFrom allowed bytes = f ↔ f.Lawful allowed ∧ f.encode = bytes := by
  constructor
  · intro h
    obtain ⟨g, hg, rfl⟩ := exists_lawful allowed bytes
    obtain rfl : g = f := (parseFrom_encode hg).symm.trans h
    exact ⟨hg, rfl⟩
  · intro h
    rw [← h.2]
    exact parseFrom_encode h.1

end LoadFile
end Disasm6502
