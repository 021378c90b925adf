import Disasm6502.Proofs.LoadFile.Limit

/-!
# What blocks hold does not matter

Where the blocks of a file stand, how long they are and what stands around them is settled without a look into
them. A file is blanked by filling its blocks with zeros; two buffers that differ inside blocks alone are
files that blank to one.
-/
namespace Disasm6502

/-- The segment with nothing but zeros. -/
def Segment.blank (s : Segment) : Segment :=
  { s with bytes := List.replicate s.len 0 }

def Entry.blank (e : Entry) : Entry :=
  { e with segment := e.segment.blank }

/-- Markers and header: what stands in front of the block. -/
def Entry.leadLen (e : Entry) : Nat :=
  markerSize * e.markers + Header.size

namespace LoadFile

def blank (f : LoadFile) : LoadFile :=
  { f with entries := f.entries.map Entry.blank }

/-- Where block number `place` starts, the first being number 0. -/
def blockStart (place : Nat) (f : LoadFile) : Nat :=
  f.blockEnd place + (f.entries[place]?).elim 0 Entry.leadLen

/-- The offset lies in block number `place`. -/
def InBlock (f : LoadFile) (place offset : Nat) : Prop :=
  f.blockStart place ≤ offset ∧ offset < f.blockEnd (place + 1)

instance (f : LoadFile) (place offset : Nat) : Decidable (f.InBlock place offset) :=
  inferInstanceAs (Decidable (_ ∧ _))

end LoadFile

/-- Buffers that agree from `first` to `stop` have one part there. -/
theorem extract_congr {bytes other : List UInt8} {first stop : Nat}
    (h : ∀ k, first ≤ k → k < stop → other[k]? = bytes[k]?) :
    other.extract first stop = bytes.extract first stop := by
  rw [List.extract_eq_take_drop, List.extract_eq_take_drop]
  apply List.ext_getElem?
  intro k
  rw [List.getElem?_take, List.getElem?_take, List.getElem?_drop, List.getElem?_drop]
  split
  · exact h (first + k) (Nat.le_add_right first k) (by omega)
  · rfl

@[simp] theorem Segment.len_blank (s : Segment) : s.blank.len = s.len := List.length_replicate

@[simp] theorem Entry.len_blank (e : Entry) : e.blank.len = e.len := by
  simp [Entry.len, Entry.blank]

theorem Entry.length_lead (e : Entry) :
    (encodeMarkers e.markers ++ e.segment.header.toBytes).length = e.leadLen := by
  rw [List.length_append, length_encodeMarkers]
  rfl

/-- Entries blank to one when all but the bytes of their blocks is alike. -/
theorem Entry.blank_congr {e e' : Entry} (hmarkers : e.markers = e'.markers)
    (hheader : e.segment.header = e'.segment.header) (hlen : e.segment.len = e'.segment.len) :
    e.blank = e'.blank := by
  obtain ⟨markers, start, last, bytes⟩ := e
  obtain ⟨markers', start', last', bytes'⟩ := e'
  cases hmarkers
  cases hheader
  simp only [blank, Segment.blank, hlen]

theorem Entry.lawful_blank {allowed : Nat} {e : Entry} : e.blank.Lawful allowed ↔ e.Lawful allowed := by
  have hlen : e.blank.segment.len = e.segment.len := e.segment.len_blank
  constructor
  · intro h
    exact ⟨h.le, h.greedy, h.complete.start_le, hlen.symm.trans h.complete.len_eq⟩
  · intro h
    exact ⟨h.le, h.greedy, h.complete.start_le, hlen.trans h.complete.len_eq⟩

namespace LoadFile

theorem lawful_blank {allowed : Nat} {f : LoadFile} : f.blank.Lawful allowed ↔ f.Lawful allowed := by
  obtain ⟨entries, final, ending⟩ := f
  induction entries generalizing allowed with
  | nil => rfl
  | cons e entries ih =>
    constructor
    · intro h
      cases h with
      | entry he hrest => exact .entry (Entry.lawful_blank.mp he) (ih.mp hrest)
    · intro h
      cases h with
      | entry he hrest => exact .entry (Entry.lawful_blank.mpr he) (ih.mpr hrest)

theorem blockEnd_blank (count : Nat) (f : LoadFile) : f.blank.blockEnd count = f.blockEnd count := by
  have hlen : Entry.len ∘ Entry.blank = Entry.len := funext Entry.len_blank
  rw [blockEnd, blockEnd, blank, ← List.map_take, List.map_map, hlen]

theorem blockStart_blank (place : Nat) (f : LoadFile) : f.blank.blockStart place = f.blockStart place := by
  rw [blockStart, blockStart, blockEnd_blank, blank, List.getElem?_map]
  cases f.entries[place]? <;> rfl

theorem upTo_blank (limit : Option Nat) (f : LoadFile) : (f.upTo limit).blank = f.blank.upTo limit := by
  cases limit with
  | none => rfl
  | some count =>
    by_cases h : count ≤ f.entries.length
    · simp [upTo, cut, blank, h]
    · simp [upTo, cut, blank, h]

/-- The report of a file tells nothing from its blocks but the bytes of segments. -/
theorem report_blank (f : LoadFile) :
    f.blank.report = { f.report with segments := f.report.segments.map Segment.blank } := by
  have hlen : Entry.len ∘ Entry.blank = Entry.len := funext Entry.len_blank
  have hmarkers : Entry.markers ∘ Entry.blank = Entry.markers := rfl
  have hsegment : Entry.segment ∘ Entry.blank = Segment.blank ∘ Entry.segment := rfl
  obtain ⟨entries, final, ending⟩ := f
  simp only [report, trailing?, malformed?, endingOffset, blank, List.map_map, hlen, hmarkers, hsegment]

theorem blockEnd_succ {f : LoadFile} {place : Nat} {e : Entry} (h : f.entries[place]? = some e) :
    f.blockEnd (place + 1) = f.blockStart place + e.segment.len := by
  rw [blockStart, h, blockEnd, blockEnd, List.take_add_one, h, List.map_append, total_append, Nat.add_assoc]
  rfl

/-- A place behind the last segment has no block. -/
theorem InBlock.lt_length {f : LoadFile} {place offset : Nat} (h : f.InBlock place offset) :
    place < f.entries.length := by
  obtain ⟨hstart, hend⟩ := h
  by_cases hplace : place < f.entries.length
  · exact hplace
  · have hle : f.entries.length ≤ place := Nat.le_of_not_lt hplace
    rw [blockStart, List.getElem?_eq_none hle, blockEnd, List.take_of_length_le hle] at hstart
    rw [blockEnd, List.take_of_length_le (Nat.le_succ_of_le hle)] at hend
    exact absurd (Nat.lt_of_le_of_lt hstart hend) (Nat.lt_irrefl _)

/-- Further entries move no block of those in front. -/
theorem blockEnd_congr {f g : LoadFile} (h : f.entries <+: g.entries) {count : Nat}
    (hcount : count ≤ f.entries.length) : f.blockEnd count = g.blockEnd count := by
  obtain ⟨more, hmore⟩ := h
  rw [blockEnd, blockEnd, ← hmore, List.take_append_of_le_length hcount]

theorem blockStart_congr {f g : LoadFile} (h : f.entries <+: g.entries) {place : Nat}
    (hplace : place < f.entries.length) : f.blockStart place = g.blockStart place := by
  rw [blockStart, blockStart, blockEnd_congr h (Nat.le_of_lt hplace), List.prefix_iff_getElem?.mp h place hplace,
    List.getElem?_eq_getElem hplace]

theorem InBlock.mono {f g : LoadFile} (h : f.entries <+: g.entries) {place offset : Nat}
    (hblock : f.InBlock place offset) : g.InBlock place offset := by
  have hplace := hblock.lt_length
  rwa [InBlock, blockStart_congr h hplace, blockEnd_congr h hplace] at hblock

/-- A limit leaves the first entries as they are. -/
theorem entries_upTo (limit : Option Nat) (f : LoadFile) : (f.upTo limit).entries <+: f.entries := by
  cases limit with
  | none => exact List.prefix_refl _
  | some count =>
    by_cases h : count ≤ f.entries.length
    · simp [upTo, cut, h, List.take_prefix]
    · simp [upTo, cut, h]

/-- The bytes of a segment stand where its block does. -/
theorem extract_encode {f : LoadFile} {place : Nat} {e : Entry} (h : f.entries[place]? = some e) :
    f.encode.extract (f.blockStart place) (f.blockEnd (place + 1)) = e.segment.bytes := by
  obtain ⟨hplace, he⟩ := List.getElem?_eq_some_iff.mp h
  have hstart : f.blockStart place = f.blockEnd place + e.leadLen := by
    rw [blockStart, h]
    rfl
  have hdrop : f.encode.drop (f.blockStart place) =
      e.segment.bytes ++ encode ⟨f.entries.drop (place + 1), f.markers, f.ending⟩ := by
    rw [hstart, ← List.drop_drop, encode_split place, blockEnd, List.drop_left' (length_flatMap_encode _),
      List.drop_eq_getElem_cons hplace, he, encode_cons, Entry.encode, List.append_assoc]
    exact List.drop_left' e.length_lead
  rw [List.extract_eq_take_drop, blockEnd_succ h, Nat.add_sub_cancel_left, hdrop]
  exact List.take_left

theorem extract_read {limit : Option Nat} {bytes : List UInt8} {place : Nat} {e : Entry}
    (h : (read limit bytes).entries[place]? = some e) :
    bytes.extract ((read limit bytes).blockStart place) ((read limit bytes).blockEnd (place + 1)) =
      e.segment.bytes := by
  obtain ⟨hplace, -⟩ := List.getElem?_eq_some_iff.mp h
  have hentries : (read limit bytes).entries <+: (parse bytes).entries := by
    rw [read_eq_upTo]
    exact entries_upTo limit _
  have hparse : (parse bytes).entries[place]? = some e := by
    rw [← h, List.prefix_iff_getElem?.mp hentries place hplace, List.getElem?_eq_getElem hplace]
  rw [blockStart_congr hentries hplace, blockEnd_congr hentries hplace]
  have hbytes := extract_encode hparse
  rwa [encode_parse] at hbytes

theorem blockEnd_cons (count : Nat) (e : Entry) (entries : List Entry) (final : Nat) (ending : Ending) :
    blockEnd (count + 1) ⟨e :: entries, final, ending⟩ = e.len + blockEnd count ⟨entries, final, ending⟩ := rfl

theorem inBlock_cons_zero {e : Entry} {entries : List Entry} {final : Nat} {ending : Ending} {offset : Nat} :
    InBlock ⟨e :: entries, final, ending⟩ 0 offset ↔ e.leadLen ≤ offset ∧ offset < e.len := by
  have hstart : blockStart 0 ⟨e :: entries, final, ending⟩ = e.leadLen := Nat.zero_add _
  rw [InBlock, hstart]
  rfl

/-- Behind an entry the blocks of the other entries stand as they stand without it. -/
theorem inBlock_cons_succ {e : Entry} {entries : List Entry} {final : Nat} {ending : Ending}
    {place offset : Nat} :
    InBlock ⟨e :: entries, final, ending⟩ (place + 1) (e.len + offset) ↔
      InBlock ⟨entries, final, ending⟩ place offset := by
  have hstart : blockStart (place + 1) ⟨e :: entries, final, ending⟩ =
      e.len + blockStart place ⟨entries, final, ending⟩ := by
    rw [blockStart, blockStart, blockEnd_cons, List.getElem?_cons_succ, Nat.add_assoc]
  rw [InBlock, InBlock, hstart, blockEnd_cons, Nat.add_le_add_iff_left, Nat.add_lt_add_iff_left]

theorem InBlock.leadLen_le {e : Entry} {entries : List Entry} {final : Nat} {ending : Ending}
    {place offset : Nat} (h : InBlock ⟨e :: entries, final, ending⟩ place offset) : e.leadLen ≤ offset := by
  cases place with
  | zero => exact (inBlock_cons_zero.mp h).1
  | succ place =>
    have hend : e.len ≤ blockStart (place + 1) ⟨e :: entries, final, ending⟩ := by
      rw [blockStart, blockEnd_cons, Nat.add_assoc]
      exact Nat.le_add_right _ _
    exact Nat.le_trans (Nat.le_add_right _ _) (Nat.le_trans hend h.1)

section Patched

variable {e : Entry} {entries : List Entry} {final : Nat} {ending : Ending} {other : List UInt8}

/-- A patch leaves the markers and the header in front of the first block. -/
theorem take_leadLen_of_patch
    (hpatch : ∀ k, other[k]? ≠ (encode ⟨e :: entries, final, ending⟩)[k]? →
      ∃ place, InBlock ⟨e :: entries, final, ending⟩ place k) :
    other.take e.leadLen = encodeMarkers e.markers ++ e.segment.header.toBytes := by
  have hsame : other.extract 0 e.leadLen = (encode ⟨e :: entries, final, ending⟩).extract 0 e.leadLen := by
    apply extract_congr
    intro k _ hk
    by_cases heq : other[k]? = (encode ⟨e :: entries, final, ending⟩)[k]?
    · exact heq
    · obtain ⟨place, hblock⟩ := hpatch k heq
      exact absurd hblock.leadLen_le (Nat.not_le_of_lt hk)
  calc other.take e.leadLen
      _ = (encode ⟨e :: entries, final, ending⟩).take e.leadLen := hsame
      _ = encodeMarkers e.markers ++ e.segment.header.toBytes := by
        rw [encode_cons, Entry.encode, List.append_assoc]
        exact List.take_left' e.length_lead

/-- Behind the first entry a patch of the file is a patch of the rest of it. -/
theorem inBlock_of_drop_ne
    (hpatch : ∀ k, other[k]? ≠ (encode ⟨e :: entries, final, ending⟩)[k]? →
      ∃ place, InBlock ⟨e :: entries, final, ending⟩ place k)
    {k : Nat} (hk : (other.drop e.len)[k]? ≠ (encode ⟨entries, final, ending⟩)[k]?) :
    ∃ place, InBlock ⟨entries, final, ending⟩ place k := by
  have hbehind : (encode ⟨e :: entries, final, ending⟩)[e.len + k]? = (encode ⟨entries, final, ending⟩)[k]? := by
    rw [encode_cons, ← List.getElem?_drop, List.drop_left' e.length_encode]
  rw [List.getElem?_drop, ← hbehind] at hk
  obtain ⟨place, hblock⟩ := hpatch (e.len + k) hk
  cases place with
  | zero => exact absurd (inBlock_cons_zero.mp hblock).2 (Nat.not_lt_of_le (Nat.le_add_right e.len k))
  | succ place => exact ⟨place, inBlock_cons_succ.mp hblock⟩

end Patched

/-- A buffer that differs from a file inside blocks alone is a file with the same but for the blocks. -/
theorem exists_blank_eq {f : LoadFile} {other : List UInt8} (hlen : other.length = f.encode.length)
    (hpatch : ∀ k, other[k]? ≠ f.encode[k]? → ∃ place, f.InBlock place k) :
    ∃ g : LoadFile, g.blank = f.blank ∧ g.encode = other := by
  obtain ⟨entries, final, ending⟩ := f
  induction entries generalizing other with
  | nil =>
    -- Without entries there is no block to write into.
    have hsame : other = encode ⟨[], final, ending⟩ := by
      apply List.ext_getElem?
      intro k
      by_cases hk : other[k]? = (encode ⟨[], final, ending⟩)[k]?
      · exact hk
      · obtain ⟨place, hblock⟩ := hpatch k hk
        exact absurd hblock.lt_length (Nat.not_lt_zero place)
    exact ⟨_, rfl, hsame.symm⟩
  | cons e entries ih =>
    have htotal : other.length = e.len + (encode ⟨entries, final, ending⟩).length := by
      rw [hlen, encode_cons, List.length_append, e.length_encode]
    have hfull : e.len = e.leadLen + e.segment.len := rfl
    have hrest : (other.drop e.len).length = (encode ⟨entries, final, ending⟩).length := by
      rw [List.length_drop, htotal, Nat.add_sub_cancel_left]
    obtain ⟨⟨entries', final', ending'⟩, hblank, hencode⟩ := ih hrest fun k => inBlock_of_drop_ne hpatch
    let e' : Entry := { e with segment := { e.segment with bytes := (other.drop e.leadLen).take e.segment.len } }
    have hblock : e'.segment.len = e.segment.len := by
      show ((other.drop e.leadLen).take e.segment.len).length = e.segment.len
      rw [List.length_take, List.length_drop]
      omega
    refine ⟨⟨e' :: entries', final', ending'⟩, ?_, ?_⟩
    · have he : e'.blank = e.blank := Entry.blank_congr rfl rfl hblock
      simp only [blank, List.map_cons, he, mk.injEq, List.cons.injEq, true_and] at hblank ⊢
      exact hblank
    · have hother : (other.drop e.leadLen).drop e.segment.len = other.drop e.len := by
        rw [List.drop_drop, hfull]
      rw [encode_cons, hencode, ← hother]
      show encodeMarkers e.markers ++ e.segment.header.toBytes ++
        (other.drop e.leadLen).take e.segment.len ++ _ = other
      rw [← take_leadLen_of_patch hpatch, List.append_assoc, List.take_append_drop, List.take_append_drop]

/-- As far as a file is read, it blanks to the same when blocks that are read are patched. -/
theorem blank_read_of_patch {limit : Option Nat} {bytes other : List UInt8} (hlen : other.length = bytes.length)
    (hpatch : ∀ k, other[k]? ≠ bytes[k]? → ∃ place, (read limit bytes).InBlock place k) :
    (read limit other).blank = (read limit bytes).blank := by
  have hencode := encode_parse bytes
  have hblocks : ∀ k, other[k]? ≠ (parse bytes).encode[k]? → ∃ place, (parse bytes).InBlock place k := by
    intro k hk
    rw [hencode] at hk
    obtain ⟨place, hblock⟩ := hpatch k hk
    rw [read_eq_upTo] at hblock
    exact ⟨place, hblock.mono (entries_upTo limit _)⟩
  obtain ⟨g, hblank, hg⟩ := exists_blank_eq (hlen.trans (congrArg List.length hencode).symm) hblocks
  have hlawful : g.Lawful openingMarkers := by
    rw [← lawful_blank, hblank, lawful_blank]
    exact lawful_parse bytes
  have hparse : parse other = g := by
    rw [← hg]
    exact parseFrom_encode hlawful
  rw [read_eq_upTo, read_eq_upTo, upTo_blank, upTo_blank, hparse, hblank]

end LoadFile
end Disasm6502
