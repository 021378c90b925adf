import Disasm6502.Proofs.LoadFile.Reader
import Disasm6502.Proofs.LoadFile.Truncation

/-!
# Loading up to a limit

A limited report is gathered segment by segment, and no reader is asked for a segment beyond the limit. What
comes out is the report of the file cut off behind its last segment within the limit, so nothing that stands
behind this segment is reported.
-/
namespace Disasm6502

/-- The report `p` as it reads behind `offset` bytes that hold the segments `done` and `markers` markers. -/
def Report.behind (done : List Segment) (offset markers : Nat) (p : Report) : Report :=
  { segments := done ++ p.segments
    trailing := p.trailing.map fun t => { t with offset := offset + t.offset }
    error := p.error.map fun m => { m with offset := offset + m.offset }
    markers := markers + p.markers }

/-- The limit allows a segment behind `count` others. -/
def HasRoom (limit : Option Nat) (count : Nat) : Prop := ∀ max ∈ limit, count < max

/-- From `r` on a report is gathered that starts with the segments `done`. The reader is asked for a segment
only while there is room for it. -/
inductive Reader.Gathers (limit : Option Nat) : List Segment → Reader → Report → Prop
  | full {done : List Segment} {r : Reader} (noRoom : ¬ HasRoom limit done.length) :
      Gathers limit done r ⟨done, r.trailing, none, r.markers⟩
  | stop {done : List Segment} {r r' : Reader} (room : HasRoom limit done.length) (step : r.next = (none, r')) :
      Gathers limit done r ⟨done, r'.trailing, none, r'.markers⟩
  | fault {done : List Segment} {r r' : Reader} {m : Malformed} (room : HasRoom limit done.length)
      (step : r.next = (some (.error m), r')) : Gathers limit done r ⟨done, r'.trailing, some m, r'.markers⟩
  | segment {done : List Segment} {r r' : Reader} {s : Segment} {report : Report}
      (room : HasRoom limit done.length) (step : r.next = (some (.ok s), r'))
      (rest : Gathers limit (done ++ [s]) r' report) : Gathers limit done r report

/-- The file `f` is what the reader has still to read. -/
structure Reader.StandsAt (r : Reader) (f : LoadFile) : Prop where
  unfinished : r.finished = false
  trailing : r.trailing = none
  lawful : f.Lawful r.allowed
  rest_eq : r.rest = f.encode

theorem HasRoom.sub {limit : Option Nat} {count : Nat} (h : HasRoom limit count) :
    HasRoom (limit.map (· - count)) 0 := by
  intro max hmax
  obtain ⟨outer, houter, rfl⟩ := Option.map_eq_some_iff.mp hmax
  exact Nat.sub_pos_of_lt (h outer houter)

theorem Report.behind_behind (done inner : List Segment) (offset innerOffset markers innerCount : Nat)
    (p : Report) : (p.behind inner innerOffset innerCount).behind done offset markers =
      p.behind (done ++ inner) (offset + innerOffset) (markers + innerCount) := by
  obtain ⟨segments, trailing, error, count⟩ := p
  cases trailing <;> cases error <;> simp [behind, Nat.add_assoc]

theorem Report.behind_nil (p : Report) : p.behind [] 0 0 = p := by
  obtain ⟨segments, trailing, error, count⟩ := p
  cases trailing <;> cases error <;> simp [behind]

namespace LoadFile

/-- The file up to its segment number `limit`, where there is a limit. -/
def upTo (limit : Option Nat) (f : LoadFile) : LoadFile :=
  limit.elim f (cut · f)

theorem read_eq_upTo (limit : Option Nat) (bytes : List UInt8) : read limit bytes = (parse bytes).upTo limit := by
  cases limit <;> rfl

theorem endingOffset_prepend (entries : List Entry) (f : LoadFile) :
    (f.prepend entries).endingOffset = total (entries.map Entry.len) + f.endingOffset := by
  simp only [endingOffset, prepend, List.map_append, total_append, Nat.add_assoc]

theorem report_prepend (entries : List Entry) (f : LoadFile) :
    (f.prepend entries).report =
      f.report.behind (entries.map Entry.segment) (total (entries.map Entry.len))
        (total (entries.map Entry.markers)) := by
  have hending : (f.prepend entries).ending = f.ending := rfl
  have hentries : (f.prepend entries).entries = entries ++ f.entries := rfl
  have hmarkers : (f.prepend entries).markers = f.markers := rfl
  simp only [report, trailing?, malformed?, Report.behind, endingOffset_prepend, hending, hentries, hmarkers,
    List.map_append, total_append, Nat.add_assoc]
  rcases f.ending with (_ | ⟨b, rest⟩) | ⟨header, rest⟩ <;> rfl

theorem upTo_ending {limit : Option Nat} (h : HasRoom limit 0) (final : Nat) (ending : Ending) :
    upTo limit ⟨[], final, ending⟩ = ⟨[], final, ending⟩ := by
  cases limit with
  | none => rfl
  | some max => exact if_neg (Nat.not_le_of_lt (h max rfl))

theorem upTo_prepend {limit : Option Nat} (h : HasRoom limit 0) (e : Entry) (f : LoadFile) :
    upTo limit (f.prepend [e]) = (f.upTo (limit.map (· - 1))).prepend [e] := by
  cases limit with
  | none => rfl
  | some max =>
    obtain ⟨max, rfl⟩ := Nat.exists_eq_succ_of_ne_zero (Nat.ne_of_gt (h max rfl))
    by_cases hmax : max ≤ f.entries.length
    · simp [upTo, cut, prepend, hmax]
    · simp [upTo, cut, prepend, hmax]

/-- One segment more is there, and one fewer is still wanted. -/
theorem upTo_prepend_of_room {limit : Option Nat} {count : Nat} (room : HasRoom limit count) (e : Entry)
    (f : LoadFile) : upTo (limit.map (· - count)) (f.prepend [e]) =
      (f.upTo (limit.map (· - (count + 1)))).prepend [e] := by
  have hless : (limit.map (· - count)).map (· - 1) = limit.map (· - (count + 1)) := by
    rw [Option.map_map]
    rfl
  rw [upTo_prepend room.sub, hless]

theorem upTo_of_full {limit : Option Nat} {count : Nat} (hfull : ¬ HasRoom limit count) (f : LoadFile) :
    f.upTo (limit.map (· - count)) = ⟨[], 0, .residue []⟩ := by
  cases limit with
  | none => exact absurd nofun hfull
  | some max =>
    have hmax : max - count = 0 := by
      simp only [HasRoom, Option.mem_some, forall_eq'] at hfull
      omega
    simp [upTo, cut, hmax]

theorem report_upTo_prepend {limit : Option Nat} {count : Nat} (room : HasRoom limit count) (e : Entry)
    (f : LoadFile) : (upTo (limit.map (· - count)) (f.prepend [e])).report =
      (f.upTo (limit.map (· - (count + 1)))).report.behind [e.segment] e.len e.markers := by
  rw [upTo_prepend_of_room room, report_prepend]
  rfl

/-- The limit stops a load that has as many segments, and no other. -/
theorem read_limited {limit : Option Nat} {bytes : List UInt8} (h : limit = some (read limit bytes).entries.length) :
    read limit bytes = ⟨(read limit bytes).entries, 0, .residue []⟩ := by
  cases limit with
  | none => cases h
  | some count =>
    have hcount : count = ((parse bytes).cut count).entries.length := Option.some.inj h
    show (parse bytes).cut count = ⟨((parse bytes).cut count).entries, 0, .residue []⟩
    by_cases hle : count ≤ (parse bytes).entries.length
    · rw [cut, if_pos hle]
    · rw [cut, if_neg hle] at hcount
      exact absurd (Nat.le_of_eq hcount) hle

theorem read_unlimited {limit : Option Nat} {bytes : List UInt8} (h : limit ≠ some (read limit bytes).entries.length) :
    read limit bytes = parse bytes := by
  cases limit with
  | none => rfl
  | some count =>
    have hcount : count ≠ ((parse bytes).cut count).entries.length := fun he => h (congrArg some he)
    show (parse bytes).cut count = parse bytes
    refine if_neg fun hle => hcount ?_
    rw [cut, if_pos hle, List.length_take_of_le hle]

end LoadFile

namespace Reader

variable {r : Reader}

/-- The first entry is handed out, and the reader stands behind it. -/
theorem StandsAt.next_entry {e : Entry} {entries : List Entry} {final : Nat} {ending : Ending}
    (h : r.StandsAt ⟨e :: entries, final, ending⟩) :
    ∃ r', r.next = (some (.ok e.segment), r') ∧ r'.StandsAt ⟨entries, final, ending⟩ ∧
      r'.offset = r.offset + e.len ∧ r'.markers = r.markers + e.markers := by
  obtain ⟨hopen, htrailing, hlawful, hrest⟩ := h
  cases hlawful with
  | entry he hlater =>
    rw [LoadFile.encode_cons] at hrest
    exact ⟨_, next_of_entry hopen he hrest, ⟨hopen, htrailing, hlater, rfl⟩, rfl, rfl⟩

/-- At the ending there is a fault at most, and then the reader holds what the report of the ending says. -/
theorem StandsAt.next_ending {final : Nat} {ending : Ending} (h : r.StandsAt ⟨[], final, ending⟩)
    (done : List Segment) :
    ∃ fault r', r.next = (fault.map Except.error, r') ∧
      (LoadFile.report ⟨[], final, ending⟩).behind done r.offset r.markers =
        ⟨done, r'.trailing, fault, r'.markers⟩ := by
  obtain ⟨hopen, htrailing, hlawful, hrest⟩ := h
  cases hlawful with
  | ending hle hgreedy hfinal =>
    have hends : r.EndsIn final ending := ⟨hopen, hle, hgreedy, hfinal, hrest⟩
    refine ⟨_, _, hends.next_eq, ?_⟩
    rcases ending with (_ | ⟨b, bytes⟩) | ⟨header, bytes⟩ <;>
      simp [LoadFile.report, LoadFile.trailing?, LoadFile.malformed?, LoadFile.endingOffset, Report.behind,
        stopAt, Ending.fault?, htrailing]

theorem gathers_full {limit : Option Nat} {done : List Segment} (hfull : ¬ HasRoom limit done.length)
    (htrailing : r.trailing = none) (f : LoadFile) :
    Gathers limit done r
      ((f.upTo (limit.map (· - done.length))).report.behind done r.offset r.markers) := by
  have hreport : (f.upTo (limit.map (· - done.length))).report.behind done r.offset r.markers =
      ⟨done, r.trailing, none, r.markers⟩ := by
    rw [LoadFile.upTo_of_full hfull]
    simp [LoadFile.report, LoadFile.trailing?, LoadFile.malformed?, Report.behind, htrailing]
  rw [hreport]
  exact .full hfull

/-- What is gathered from a place in a file on is the report of the file from there, as far as the limit
lets it go. -/
theorem StandsAt.gathers {f : LoadFile} (h : r.StandsAt f) (limit : Option Nat) (done : List Segment) :
    Gathers limit done r
      ((f.upTo (limit.map (· - done.length))).report.behind done r.offset r.markers) := by
  obtain ⟨entries, final, ending⟩ := f
  induction entries generalizing done r with
  | nil =>
    by_cases room : HasRoom limit done.length
    · obtain ⟨fault, r', hstep, hreport⟩ := h.next_ending done
      rw [LoadFile.upTo_ending room.sub, hreport]
      cases fault with
      | none => exact .stop room hstep
      | some m => exact .fault room hstep
    · exact gathers_full room h.trailing _
  | cons e entries ih =>
    by_cases room : HasRoom limit done.length
    · obtain ⟨r', hstep, hnext, hoffset, hmarkers⟩ := h.next_entry
      -- The segment moves from the file to the segments that are there; the report stays the same.
      have hreport : (LoadFile.upTo (limit.map (· - done.length)) ⟨e :: entries, final, ending⟩).report.behind
          done r.offset r.markers =
          (LoadFile.upTo (limit.map (· - (done ++ [e.segment]).length)) ⟨entries, final, ending⟩).report.behind
            (done ++ [e.segment]) r'.offset r'.markers := by
        rw [hoffset, hmarkers, ← Report.behind_behind, List.length_append, List.length_singleton,
          ← LoadFile.report_upTo_prepend room]
        rfl
      rw [hreport]
      exact .segment room hstep (ih (done ++ [e.segment]) hnext)
    · exact gathers_full room h.trailing _

theorem standsAt_ofBytes (bytes : List UInt8) : (ofBytes bytes).StandsAt (LoadFile.parse bytes) :=
  ⟨rfl, rfl, LoadFile.lawful_parse bytes, (LoadFile.encode_parse bytes).symm⟩

theorem Gathers.unique {limit : Option Nat} {done : List Segment} {p q : Report} (hp : Gathers limit done r p)
    (hq : Gathers limit done r q) : p = q := by
  induction hp with
  | full hfull =>
    cases hq with
    | full => rfl
    | stop room | fault room | segment room => exact absurd room hfull
  | stop room step =>
    cases hq with
    | full hfull => exact absurd room hfull
    | stop _ step' =>
      cases step.symm.trans step'
      rfl
    | fault _ step' | segment _ step' => cases step.symm.trans step'
  | fault room step =>
    cases hq with
    | full hfull => exact absurd room hfull
    | fault _ step' =>
      cases step.symm.trans step'
      rfl
    | stop _ step' | segment _ step' => cases step.symm.trans step'
  | segment room step _ ih =>
    cases hq with
    | full hfull => exact absurd room hfull
    | segment _ step' rest' =>
      cases step.symm.trans step'
      exact ih rest'
    | stop _ step' | fault _ step' => cases step.symm.trans step'

/-- Segment by segment, a reader of the whole file gathers the report of the file, and no other. -/
theorem gathers_ofBytes_iff (limit : Option Nat) (bytes : List UInt8) (report : Report) :
    Gathers limit [] (ofBytes bytes) report ↔ report = Report.ofLoadFile limit bytes := by
  have hgathers : Gathers limit [] (ofBytes bytes) (Report.ofLoadFile limit bytes) := by
    have h : Gathers limit [] (ofBytes bytes)
        (((LoadFile.parse bytes).upTo (limit.map (· - 0))).report.behind [] 0 0) :=
      (standsAt_ofBytes bytes).gathers limit []
    have hlimit : limit.map (· - 0) = limit := Option.map_id'
    rwa [Report.behind_nil, hlimit, ← LoadFile.read_eq_upTo] at h
  constructor
  · intro h
    exact h.unique hgathers
  · intro h
    rw [h]
    exact hgathers

end Reader

/-- A limited load is gathered segment by segment up to the limit. It is the whole load while the limit is
above the number of segments; from there on it is the load of the file cut off where the block of segment
number `count` ends, and reports nothing that stands behind. -/
theorem ofLoadFile_limit (count : Nat) (bytes : List UInt8) :
    (∀ report, Reader.Gathers (some count) [] (Reader.ofBytes bytes) report ↔
        report = Report.ofLoadFile (some count) bytes) ∧
      ((Report.ofLoadFile none bytes).segments.length < count →
        Report.ofLoadFile (some count) bytes = Report.ofLoadFile none bytes) ∧
      (count ≤ (Report.ofLoadFile none bytes).segments.length →
        Report.ofLoadFile (some count) bytes =
            Report.ofLoadFile none (bytes.take ((LoadFile.parse bytes).blockEnd count)) ∧
          Report.ofLoadFile (some count) bytes =
            { segments := (Report.ofLoadFile none bytes).segments.take count
              trailing := none
              error := none
              markers := total (((LoadFile.parse bytes).entries.take count).map Entry.markers) }) := by
  have hlen : (Report.ofLoadFile none bytes).segments.length = (LoadFile.parse bytes).entries.length :=
    List.length_map ..
  rw [hlen]
  refine ⟨Reader.gathers_ofBytes_iff (some count) bytes, fun hless => ?_, fun hle => ⟨?_, ?_⟩⟩
  · exact congrArg LoadFile.report (if_neg (Nat.not_le_of_lt hless))
  · exact congrArg LoadFile.report (LoadFile.parse_take_blockEnd hle).symm
  · have hcut : (LoadFile.parse bytes).cut count =
        ⟨(LoadFile.parse bytes).entries.take count, 0, .residue []⟩ := if_pos hle
    have hreport : Report.ofLoadFile (some count) bytes = ((LoadFile.parse bytes).cut count).report := rfl
    rw [hreport, hcut]
    simp [LoadFile.report, LoadFile.trailing?, LoadFile.malformed?, Report.ofLoadFile, LoadFile.read]

/-- A marker and a malformed header stand behind the only segment. -/
theorem ofLoadFile_limit_malformed :
    Report.ofLoadFile (some 1)
        [0xFF, 0xFF, 0x00, 0x20, 0x01, 0x20, 0xA9, 0x05, 0xFF, 0xFF, 0x00, 0x30, 0xFF, 0x2F, 0x01, 0x02] =
        ⟨[⟨0x2000, 0x2001, [0xA9, 0x05]⟩], none, none, 1⟩ ∧
      Report.ofLoadFile (some 2)
          [0xFF, 0xFF, 0x00, 0x20, 0x01, 0x20, 0xA9, 0x05, 0xFF, 0xFF, 0x00, 0x30, 0xFF, 0x2F, 0x01, 0x02] =
        ⟨[⟨0x2000, 0x2001, [0xA9, 0x05]⟩], none, some ⟨10, 0x3000, 0x2FFF, 0, 2⟩, 2⟩ := by
  refine ⟨((ofLoadFile_limit 1 _).2.2 ?_).2, (ofLoadFile_limit 2 _).2.1 ?_⟩
  · decide
  · decide

end Disasm6502
