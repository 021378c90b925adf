import Disasm6502.Log
import Disasm6502.Proofs.LoadFile.Limit

/-!
# What the loader logs

A call of a reader logs the markers that it passes and then what it finds behind them. One call after the other,
this comes to the events of the file up to the limit.
-/
namespace Disasm6502

/-- The event of an ending that stands at `offset`; an empty residue has none. -/
def Ending.events (offset : Nat) : Ending → List Event
  | residue [] => []
  | residue bytes => [.trailing { offset, bytes }]
  | malformed header rest =>
    [.malformed { offset, start := header.start, last := header.last, needed := header.bodyLen,
                  available := rest.length }]

/-- The events of a file that starts at `offset`. -/
def LoadFile.eventsFrom (offset : Nat) (f : LoadFile) : List Event :=
  entryEvents offset f.entries ++
    (markerEvents (offset + total (f.entries.map Entry.len)) f.markers ++
      f.ending.events (offset + f.endingOffset))

namespace Reader

/-- What a call of the reader logs. -/
def said (r : Reader) : List Event :=
  if r.finished then []
  else
    markerEvents r.offset (takeMarkers r.allowed r.rest).1 ++
      match Ending.orSegment r.passMarkers.rest with
      | .ok (segment, _) => [.segment r.passMarkers.offset segment]
      | .error ending => ending.events r.passMarkers.offset

/-- Behind `count` segments the calls from `r` on log `events`. The reader is called only while there is room for
a segment, and not again once it had none to hand out. -/
inductive Logs (limit : Option Nat) : Nat → Reader → List Event → Prop
  | full {count : Nat} {r : Reader} (noRoom : ¬ HasRoom limit count) : Logs limit count r []
  | last {count : Nat} {r : Reader} (room : HasRoom limit count) (step : ∀ s, r.next.1 ≠ some (.ok s)) :
      Logs limit count r r.said
  | segment {count : Nat} {r r' : Reader} {s : Segment} {events : List Event} (room : HasRoom limit count)
      (step : r.next = (some (.ok s), r')) (rest : Logs limit (count + 1) r' events) :
      Logs limit count r (r.said ++ events)

end Reader

theorem markerEvents_succ (offset count : Nat) :
    markerEvents offset (count + 1) = .marker offset :: markerEvents (offset + markerSize) count := by
  have hplace (i : Nat) : offset + markerSize * (i + 1) = offset + markerSize + markerSize * i := by
    rw [Nat.mul_succ, Nat.add_assoc, Nat.add_comm (markerSize * i)]
  simp [markerEvents, List.range_succ_eq_map, Function.comp_def, hplace]

namespace LoadFile

theorem events_eq_eventsFrom (f : LoadFile) : f.events = f.eventsFrom 0 := by
  obtain ⟨entries, markers, ending⟩ := f
  rcases ending with (_ | ⟨b, bytes⟩) | ⟨header, rest⟩ <;>
    simp [events, eventsFrom, trailing?, malformed?, Ending.events]

theorem eventsFrom_prepend (offset : Nat) (e : Entry) (f : LoadFile) :
    (f.prepend [e]).eventsFrom offset =
      markerEvents offset e.markers ++
        .segment (offset + markerSize * e.markers) e.segment :: f.eventsFrom (offset + e.len) := by
  rw [eventsFrom, endingOffset_prepend]
  simp [eventsFrom, prepend, entryEvents, Nat.add_assoc]

theorem eventsFrom_nil (offset markers : Nat) (ending : Ending) :
    eventsFrom offset ⟨[], markers, ending⟩ =
      markerEvents offset markers ++ ending.events (offset + markerSize * markers) := by
  simp [eventsFrom, entryEvents, endingOffset]

end LoadFile

namespace Reader

variable {r : Reader}

theorem StandsAt.said_entry {e : Entry} {entries : List Entry} {final : Nat} {ending : Ending}
    (h : r.StandsAt ⟨e :: entries, final, ending⟩) :
    r.said = markerEvents r.offset e.markers ++ [.segment (r.offset + markerSize * e.markers) e.segment] := by
  obtain ⟨hopen, -, hlawful, hrest⟩ := h
  cases hlawful with
  | entry he hlater =>
    have hgreedy (behind : List UInt8) (hm : Marked (e.segment.header.toBytes ++ behind)) : e.markers = r.allowed :=
      he.greedy ((marked_header e.segment.header _).mp hm)
    rw [LoadFile.encode_cons, Entry.encode, List.append_assoc, List.append_assoc] at hrest
    have hpass := passMarkers_eq hrest he.le (hgreedy _)
    rw [said, hpass, hrest, takeMarkers_encodeMarkers he.le (hgreedy _)]
    simp [hopen, Ending.orSegment_complete he.complete]

theorem StandsAt.said_ending {final : Nat} {ending : Ending} (h : r.StandsAt ⟨[], final, ending⟩) :
    r.said = markerEvents r.offset final ++ ending.events (r.offset + markerSize * final) := by
  obtain ⟨hopen, -, hlawful, hrest⟩ := h
  cases hlawful with
  | ending hle hgreedy hfinal =>
    have hbehind : r.rest = encodeMarkers final ++ ending.encode := hrest
    have hpass := passMarkers_eq hbehind hle hgreedy
    rw [said, hpass, hbehind, takeMarkers_encodeMarkers hle hgreedy]
    simp [hopen, Ending.orSegment_final hfinal]

/-- What is logged from a place in a file on are the events of the file from there, as far as the limit lets it
go. -/
theorem StandsAt.logs {f : LoadFile} (h : r.StandsAt f) (limit : Option Nat) (count : Nat) :
    Logs limit count r ((f.upTo (limit.map (· - count))).eventsFrom r.offset) := by
  obtain ⟨entries, final, ending⟩ := f
  induction entries generalizing count r with
  | nil =>
    by_cases room : HasRoom limit count
    · obtain ⟨fault, r', hstep, -⟩ := h.next_ending []
      rw [LoadFile.upTo_ending room.sub, LoadFile.eventsFrom_nil, ← h.said_ending]
      refine .last room fun s hs => ?_
      rw [hstep] at hs
      cases fault <;> cases hs
    · rw [LoadFile.upTo_of_full room]
      exact .full room
  | cons e entries ih =>
    by_cases room : HasRoom limit count
    · obtain ⟨r', hstep, hnext, hoffset, -⟩ := h.next_entry
      -- The call logs its entry, and the rest of the file follows behind it.
      have hevents : (LoadFile.upTo (limit.map (· - count)) ⟨e :: entries, final, ending⟩).eventsFrom r.offset =
          r.said ++ (LoadFile.upTo (limit.map (· - (count + 1))) ⟨entries, final, ending⟩).eventsFrom r'.offset := by
        rw [h.said_entry, hoffset, List.append_assoc, List.singleton_append, ← LoadFile.eventsFrom_prepend,
          ← LoadFile.upTo_prepend_of_room room]
        rfl
      rw [hevents]
      exact .segment room hstep (ih (count + 1) hnext)
    · rw [LoadFile.upTo_of_full room]
      exact .full room

theorem Logs.unique {limit : Option Nat} {count : Nat} {events events' : List Event}
    (h : Logs limit count r events) (h' : Logs limit count r events') : events = events' := by
  induction h generalizing events' with
  | full hfull =>
    cases h' with
    | full => rfl
    | last room | segment room => exact absurd room hfull
  | last room hlast =>
    cases h' with
    | full hfull => exact absurd room hfull
    | last => rfl
    | segment _ step => exact absurd (congrArg Prod.fst step) (hlast _)
  | segment room step _ ih =>
    cases h' with
    | full hfull => exact absurd room hfull
    | last _ hlast => exact absurd (congrArg Prod.fst step) (hlast _)
    | segment _ step' rest' =>
      cases step.symm.trans step'
      rw [ih rest']

/-- Call by call, a reader of the whole file logs the events of the file up to the limit, and nothing else. -/
theorem logs_ofBytes_iff (limit : Option Nat) (bytes : List UInt8) (events : List Event) :
    (ofBytes bytes).Logs limit 0 events ↔ events = loadEvents .xex limit bytes := by
  have hlogs : (ofBytes bytes).Logs limit 0 (loadEvents .xex limit bytes) := by
    have h : (ofBytes bytes).Logs limit 0 (((LoadFile.parse bytes).upTo (limit.map (· - 0))).eventsFrom 0) :=
      (standsAt_ofBytes bytes).logs limit 0
    have hlimit : limit.map (· - 0) = limit := Option.map_id'
    rwa [hlimit, ← LoadFile.read_eq_upTo, ← LoadFile.events_eq_eventsFrom] at h
  constructor
  · intro h
    exact h.unique hlogs
  · intro h
    rw [h]
    exact hlogs

end Reader
end Disasm6502
