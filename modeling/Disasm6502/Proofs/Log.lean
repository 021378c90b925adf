import Disasm6502.Proofs.Log.Filter
import Disasm6502.Proofs.Log.Loader
import Disasm6502.Proofs.Sweep.Tiling

/-!
# The log is an account of the load

What the loader logs takes the bytes of a file in turn, and it says of the file what the report says of it: its
markers, its segments and what is wrong at its end. Behind that stand a summary and the instructions that are cut
off, at most one a segment.
-/
namespace Disasm6502

/-- The events of loading `bytes`, which stand at `offset`. An event is about the bytes that follow those of the
event before it; behind a warning there is nothing. -/
inductive Loads : Nat → List Event → List UInt8 → Prop
  | nothing {offset : Nat} : Loads offset [] []
  | marker {offset : Nat} {events : List Event} {rest : List UInt8}
      (later : Loads (offset + markerSize) events rest) :
      Loads offset (.marker offset :: events) (Word.toBytes markerWord ++ rest)
  | segment {offset : Nat} {s : Segment} {events : List Event} {rest : List UInt8}
      (later : Loads (offset + Header.size + s.len) events rest) :
      Loads offset (.segment offset s :: events) (s.header.toBytes ++ s.bytes ++ rest)
  | trailing {offset : Nat} {bytes : List UInt8} : Loads offset [.trailing { offset, bytes }] bytes
  | malformed {offset : Nat} {header : Header} {rest : List UInt8} :
      Loads offset
        [.malformed { offset, start := header.start, last := header.last, needed := header.bodyLen,
                      available := rest.length }]
        (header.toBytes ++ rest)

namespace Event

def isMarker : Event → Bool
  | marker _ => true
  | _ => false

def segment? : Event → Option Segment
  | segment _ s => some s
  | _ => none

def trailing? : Event → Option Trailing
  | trailing t => some t
  | _ => none

def malformed? : Event → Option Malformed
  | malformed m => some m
  | _ => none

end Event

/-- `events` are all that is logged while `bytes` are loaded up to the limit, and they account for the first `stop`
bytes as `d` does. -/
structure LoadLog (limit : Option Nat) (bytes : List UInt8) (d : Disassembly) (events : List Event) (stop : Nat) :
    Prop where
  logged : ∀ other, (Reader.ofBytes bytes).Logs limit 0 other ↔ other = events
  stop_le : stop ≤ bytes.length
  loads : Loads 0 events (bytes.take stop)
  whole : limit ≠ some d.segments.length → stop = bytes.length
  -- A load that the limit stops ends with its last segment.
  limited : limit = some d.segments.length → events = [] ∧ stop = 0 ∨
    ∃ before offset s, events = before ++ [.segment offset s] ∧ stop = offset + Header.size + s.len
  markers : events.countP Event.isMarker = d.markers
  segments : events.filterMap Event.segment? = d.segments.map DecodedSegment.segment
  trailing : events.filterMap Event.trailing? = d.trailing.toList
  error : (events.filterMap Event.malformed?).map Fault.malformed = d.error.toList

section

variable {offset count : Nat} {events : List Event} {rest : List UInt8}

theorem Loads.markers (h : Loads (offset + markerSize * count) events rest) :
    Loads offset (markerEvents offset count ++ events) (encodeMarkers count ++ rest) := by
  induction count generalizing offset with
  | zero => exact h
  | succ count ih =>
    rw [Nat.mul_succ, Nat.add_comm (markerSize * count), ← Nat.add_assoc] at h
    rw [markerEvents_succ]
    exact .marker (ih h)

theorem Loads.entries {entries : List Entry} (h : Loads (offset + total (entries.map Entry.len)) events rest) :
    Loads offset (entryEvents offset entries ++ events) (entries.flatMap Entry.encode ++ rest) := by
  induction entries generalizing offset with
  | nil => exact h
  | cons e entries ih =>
    rw [List.map_cons, total_cons, ← Nat.add_assoc] at h
    have hsegment : Loads (offset + markerSize * e.markers)
        (.segment (offset + markerSize * e.markers) e.segment :: (entryEvents (offset + e.len) entries ++ events))
        (e.segment.header.toBytes ++ e.segment.bytes ++ (entries.flatMap Entry.encode ++ rest)) := by
      refine .segment ?_
      have hlen : offset + markerSize * e.markers + Header.size + e.segment.len = offset + e.len := by
        rw [Entry.len, Nat.add_assoc, Nat.add_assoc, Nat.add_assoc]
      rw [hlen]
      exact ih h
    have hall := hsegment.markers
    simp only [entryEvents, List.flatMap_cons, Entry.encode, List.append_assoc, List.cons_append] at hall ⊢
    exact hall

theorem loads_ending (offset : Nat) (ending : Ending) : Loads offset (ending.events offset) ending.encode := by
  rcases ending with (_ | ⟨b, bytes⟩) | ⟨header, rest⟩
  · exact .nothing
  · exact .trailing
  · exact .malformed

theorem loads_eventsFrom (offset : Nat) (f : LoadFile) : Loads offset (f.eventsFrom offset) f.encode := by
  rw [LoadFile.encode, List.append_assoc]
  refine .entries (.markers ?_)
  rw [Nat.add_assoc]
  exact loads_ending _ _

end

theorem exists_of_mem_markerEvents {offset count : Nat} {e : Event} (h : e ∈ markerEvents offset count) :
    ∃ place, e = .marker place := by
  obtain ⟨i, -, rfl⟩ := List.mem_map.mp h
  exact ⟨_, rfl⟩

section

variable {α : Type} {f : Event → Option α}

theorem filterMap_markerEvents (hmarker : ∀ offset, f (.marker offset) = none) (offset count : Nat) :
    (markerEvents offset count).filterMap f = [] := by
  rw [List.filterMap_eq_nil_iff]
  intro e he
  obtain ⟨place, rfl⟩ := exists_of_mem_markerEvents he
  exact hmarker place

/-- What is read off the events of a file, when nothing is read off a marker and the same off a segment wherever it
stands. -/
theorem filterMap_eventsFrom {g : Segment → Option α} (hmarker : ∀ offset, f (.marker offset) = none)
    (hsegment : ∀ offset s, f (.segment offset s) = g s) (offset : Nat) (file : LoadFile) :
    (file.eventsFrom offset).filterMap f =
      (file.entries.map Entry.segment).filterMap g ++
        (file.ending.events (offset + file.endingOffset)).filterMap f := by
  have hentries (offset : Nat) (entries : List Entry) :
      (entryEvents offset entries).filterMap f = (entries.map Entry.segment).filterMap g := by
    induction entries generalizing offset with
    | nil => rfl
    | cons e entries ih =>
      rw [entryEvents, List.filterMap_append, filterMap_markerEvents hmarker, List.nil_append, List.filterMap_cons,
        hsegment, ih, List.map_cons, List.filterMap_cons]
  rw [LoadFile.eventsFrom, List.filterMap_append, List.filterMap_append, hentries, filterMap_markerEvents hmarker,
    List.nil_append]

end

theorem countP_markerEvents (offset count : Nat) : (markerEvents offset count).countP Event.isMarker = count := by
  have hall : ∀ e ∈ markerEvents offset count, e.isMarker := by
    intro e he
    obtain ⟨place, rfl⟩ := exists_of_mem_markerEvents he
    rfl
  rw [List.countP_eq_length.mpr hall, markerEvents, List.length_map, List.length_range]

theorem countP_entryEvents (offset : Nat) (entries : List Entry) :
    (entryEvents offset entries).countP Event.isMarker = total (entries.map Entry.markers) := by
  induction entries generalizing offset with
  | nil => rfl
  | cons e entries ih =>
    rw [entryEvents, List.countP_append, countP_markerEvents, List.countP_cons_of_neg Bool.false_ne_true, ih]
    rfl

theorem countP_eventsFrom (offset : Nat) (file : LoadFile) :
    (file.eventsFrom offset).countP Event.isMarker = file.report.markers := by
  have hending : (file.ending.events (offset + file.endingOffset)).countP Event.isMarker = 0 := by
    rcases file.ending with (_ | ⟨b, bytes⟩) | ⟨header, rest⟩ <;> rfl
  rw [LoadFile.eventsFrom, List.countP_append, List.countP_append, countP_entryEvents, countP_markerEvents, hending]
  rfl

theorem segments_eventsFrom (offset : Nat) (file : LoadFile) :
    (file.eventsFrom offset).filterMap Event.segment? = file.report.segments := by
  have hending : (file.ending.events (offset + file.endingOffset)).filterMap Event.segment? = [] := by
    rcases file.ending with (_ | ⟨b, bytes⟩) | ⟨header, rest⟩ <;> rfl
  rw [filterMap_eventsFrom (g := some) (fun _ => rfl) fun _ _ => rfl, hending, List.filterMap_some, List.append_nil]
  rfl

theorem trailing_eventsFrom (file : LoadFile) :
    (file.eventsFrom 0).filterMap Event.trailing? = file.report.trailing.toList := by
  rw [filterMap_eventsFrom (g := fun _ => none) (fun _ => rfl) fun _ _ => rfl, List.filterMap_none, List.nil_append]
  obtain ⟨entries, markers, ending⟩ := file
  rcases ending with (_ | ⟨b, bytes⟩) | ⟨header, rest⟩ <;>
    simp [Ending.events, Event.trailing?, LoadFile.report, LoadFile.trailing?]

theorem error_eventsFrom (file : LoadFile) :
    (file.eventsFrom 0).filterMap Event.malformed? = file.report.error.toList := by
  rw [filterMap_eventsFrom (g := fun _ => none) (fun _ => rfl) fun _ _ => rfl, List.filterMap_none, List.nil_append]
  obtain ⟨entries, markers, ending⟩ := file
  rcases ending with (_ | ⟨b, bytes⟩) | ⟨header, rest⟩ <;>
    simp [Ending.events, Event.malformed?, LoadFile.report, LoadFile.malformed?]

theorem entryEvents_concat (offset : Nat) (entries : List Entry) (e : Entry) :
    ∃ before, entryEvents offset (entries ++ [e]) =
      before ++ [.segment (offset + total (entries.map Entry.len) + markerSize * e.markers) e.segment] := by
  induction entries generalizing offset with
  | nil => exact ⟨markerEvents offset e.markers, rfl⟩
  | cons first entries ih =>
    obtain ⟨before, hbefore⟩ := ih (offset + first.len)
    refine ⟨markerEvents offset first.markers ++
      .segment (offset + markerSize * first.markers) first.segment :: before, ?_⟩
    rw [List.cons_append, entryEvents, hbefore, List.map_cons, total_cons, ← Nat.add_assoc offset first.len]
    simp

/-- A file that has nothing behind its last segment is logged up to there. -/
theorem eventsFrom_up_to_last (entries : List Entry) :
    let file : LoadFile := ⟨entries, 0, .residue []⟩
    file.eventsFrom 0 = [] ∧ file.encode.length = 0 ∨
      ∃ before offset s, file.eventsFrom 0 = before ++ [.segment offset s] ∧
        file.encode.length = offset + Header.size + s.len := by
  intro file
  have hevents : file.eventsFrom 0 = entryEvents 0 entries := by
    simp [file, LoadFile.eventsFrom, markerEvents, Ending.events]
  have hlen : file.encode.length = total (entries.map Entry.len) := by
    rw [LoadFile.encode_eq, List.length_append, length_front]
    rfl
  rw [hevents, hlen]
  rcases List.eq_nil_or_concat entries with rfl | ⟨before, last, hentries⟩
  · exact .inl ⟨rfl, rfl⟩
  · rw [hentries, List.concat_eq_append]
    obtain ⟨front, hfront⟩ := entryEvents_concat 0 before last
    refine .inr ⟨front, _, _, hfront, ?_⟩
    rw [List.map_append, total_append, List.map_singleton, total_cons, total_nil, Entry.len]
    omega

/-- Only the last item of a segment can have an event. -/
theorem filterMap_event?_sweep (base : UInt16) (bytes : List UInt8) :
    (sweep base bytes).filterMap Item.event? = ((sweep base bytes).getLast?.bind Item.event?).toList := by
  have htiling := tiling_sweep base bytes
  rcases List.eq_nil_or_concat (sweep base bytes) with hnil | ⟨front, last, hsweep⟩
  · rw [hnil]
    rfl
  · rw [List.concat_eq_append] at hsweep
    have hfront : front.filterMap Item.event? = [] := by
      rw [List.filterMap_eq_nil_iff]
      intro item hitem
      obtain ⟨before, after, rfl⟩ := List.append_of_mem hitem
      rw [List.append_assoc, List.cons_append] at hsweep
      cases item with
      | truncated => simpa using htiling.truncated_last _ _ _ hsweep rfl
      | instruction | unknown => rfl
    rw [hsweep, List.filterMap_append, hfront, List.nil_append, List.getLast?_concat]
    cases hlast : last.event? <;> simp [hlast]

theorem map_segment_ofBytes (options : Options) (bytes : List UInt8) :
    (Disassembly.ofBytes options bytes).segments.map DecodedSegment.segment =
      (Report.load options.format options.limit bytes).segments := by
  simp only [Disassembly.ofBytes, List.map_map, Function.comp_def, List.map_id']

/-- The loader accounts for what was loaded, whatever limit there is. -/
theorem exists_loadLog (limit : Option Nat) (decode : Bool) (bytes : List UInt8) :
    ∃ stop, LoadLog limit bytes (Disassembly.ofBytes { format := .xex, limit, decode } bytes)
      (loadEvents .xex limit bytes) stop := by
  let file := LoadFile.read limit bytes
  have hevents : loadEvents .xex limit bytes = file.eventsFrom 0 := file.events_eq_eventsFrom
  have hfront : bytes.take file.encode.length = file.encode :=
    (List.prefix_iff_eq_take.mp (LoadFile.encode_read_prefix limit bytes)).symm
  have hsegments := map_segment_ofBytes { format := .xex, limit, decode } bytes
  have hcount : (Disassembly.ofBytes { format := .xex, limit, decode } bytes).segments.length =
      file.entries.length := by
    have hlen := congrArg List.length hsegments
    rwa [List.length_map, Report.load, Report.ofLoadFile, LoadFile.report, List.length_map] at hlen
  refine ⟨file.encode.length, ?_⟩
  rw [hevents]
  constructor
  case logged =>
    intro other
    rw [Reader.logs_ofBytes_iff, hevents]
  case stop_le => exact (LoadFile.encode_read_prefix limit bytes).length_le
  case loads =>
    rw [hfront]
    exact loads_eventsFrom 0 file
  case whole =>
    intro h
    rw [hcount] at h
    have hparse : file = LoadFile.parse bytes := LoadFile.read_unlimited h
    rw [hparse, LoadFile.encode_parse]
  case limited =>
    intro h
    rw [hcount] at h
    have hfile : file = ⟨file.entries, 0, .residue []⟩ := LoadFile.read_limited h
    rw [hfile]
    exact eventsFrom_up_to_last file.entries
  case markers => exact countP_eventsFrom 0 file
  case segments =>
    rw [hsegments]
    exact segments_eventsFrom 0 file
  case trailing => exact trailing_eventsFrom file
  case error =>
    rw [error_eventsFrom, ← Option.toList_map]
    rfl

/-- What is cut off in the segments of a load, in their order. -/
theorem truncations_eq (options : Options) (bytes : List UInt8) :
    (Disassembly.ofBytes options bytes).segments.flatMap (fun s => s.items.filterMap Item.event?) =
      if options.decode then
        (Disassembly.ofBytes options bytes).segments.filterMap fun s => s.items.getLast?.bind Item.event?
      else [] := by
  obtain ⟨format, limit, decode⟩ := options
  cases decode with
  | false =>
    simp [Disassembly.ofBytes, List.flatMap_map]
  | true =>
    rw [if_pos rfl, List.filterMap_eq_flatMap_toList]
    refine List.flatMap_congr fun s hs => ?_
    obtain ⟨segment, -, rfl⟩ := List.mem_map.mp hs
    exact filterMap_event?_sweep segment.start segment.bytes

/-- At the lowest level the log of a load file is the account of its loading, the summary, and one event for each
segment that ends within an instruction. -/
theorem events_account (limit : Option Nat) (decode : Bool) (bytes : List UInt8) :
    let options : Options := { format := .xex, limit, decode }
    let d := Disassembly.ofBytes options bytes
    ∃ loader stop, LoadLog limit bytes d loader stop ∧
      (Disassembly.events options bytes).filter (fun e => Threshold.passes (some .trace) e.level) =
        loader ++ [.loaded .xex (Layout.detect bytes) d.segments.length d.markers] ++
          if decode then d.segments.filterMap fun s => s.items.getLast?.bind Item.event? else [] := by
  intro options d
  obtain ⟨stop, hlog⟩ := exists_loadLog limit decode bytes
  refine ⟨loadEvents .xex limit bytes, stop, hlog, ?_⟩
  have hall : ∀ e ∈ Disassembly.events options bytes, Threshold.passes (some .trace) e.level :=
    fun e _ => Threshold.passes_trace e.level
  rw [List.filter_eq_self.mpr hall, Disassembly.events, truncations_eq]

/-- Two markers in front, a segment that ends within an instruction, and a header that its file does not bear out:
the log with and without a limit that stops in front of the header. -/
theorem events_account_malformed :
    let bytes : List UInt8 :=
      [0xFF, 0xFF, 0xFF, 0xFF, 0x00, 0x20, 0x01, 0x20, 0xEA, 0xAD, 0xFF, 0xFF, 0x00, 0x30, 0xFF, 0x2F, 0x01, 0x02]
    let segment : Segment := ⟨0x2000, 0x2001, [0xEA, 0xAD]⟩
    let loader : List Event := [.marker 0, .marker 2, .segment 4 segment]
    let fault : Event := .malformed ⟨12, 0x3000, 0x2FFF, 0, 2⟩
    LoadLog none bytes (Disassembly.ofBytes ⟨.xex, none, true⟩ bytes) (loader ++ [.marker 10, fault]) 18 ∧
      LoadLog (some 1) bytes (Disassembly.ofBytes ⟨.xex, some 1, true⟩ bytes) loader 10 ∧
      Disassembly.events ⟨.xex, some 1, true⟩ bytes =
        loader ++ [.loaded .xex .marked 1 2, .truncated 0x2001 0xAD 3 1] := by
  intro bytes segment loader fault
  obtain ⟨whole, stop, hwhole, hall⟩ := events_account none true bytes
  obtain ⟨front, stop', hfront, hcut⟩ := events_account (some 1) true bytes
  have hloader : whole = loader ++ [.marker 10, fault] :=
    List.append_cancel_right (List.append_cancel_right (hall.symm.trans (by decide +kernel)))
  have hloader' : front = loader :=
    List.append_cancel_right (List.append_cancel_right (hcut.symm.trans (by decide +kernel)))
  subst hloader hloader'
  have hstop : stop = 18 := hwhole.whole nofun
  have hstop' : stop' = 10 := by
    obtain ⟨hnil, -⟩ | ⟨before, offset, s, hlast, hend⟩ := hfront.limited (by decide +kernel)
    · exact absurd hnil (List.cons_ne_nil _ _)
    · have hsegment : loader.getLast? = some (.segment offset s) := by rw [hlast, List.getLast?_concat]
      cases hsegment
      exact hend
  subst hstop hstop'
  exact ⟨hwhole, hfront, by decide +kernel⟩

end Disasm6502
