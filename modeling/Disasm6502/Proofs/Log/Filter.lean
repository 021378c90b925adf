import Mathlib.Data.List.Induction
import Disasm6502.Log.Filter

/-!
# Which directive counts

Of the directives of a filter that apply to an event the last of the most specific ones counts. The filters that a
run sets by itself have one threshold for all events, and thresholds can let through any choice of events.
-/
namespace Disasm6502

open Std

namespace Directive

instance : TransCmp compareSpecificity :=
  inferInstanceAs (TransCmp (compareLex (compareOn fun d => d.target.utf8ByteSize) (compareOn Directive.field)))

/-- No directive is more specific than `d`, and those behind it are less specific. -/
def Counts (d : Directive) (directives : List Directive) : Prop :=
  ∃ front back, directives = front ++ d :: back ∧ (∀ other ∈ front, (compareSpecificity d other).isGE) ∧
    ∀ other ∈ back, compareSpecificity other d = .lt

variable {d d' : Directive} {directives : List Directive}

theorem Counts.mem (h : d.Counts directives) : d ∈ directives := by
  obtain ⟨front, back, rfl, -, -⟩ := h
  exact List.mem_append_right front List.mem_cons_self

theorem Counts.isGE (h : d.Counts directives) {other : Directive} (hother : other ∈ directives) :
    (compareSpecificity d other).isGE := by
  obtain ⟨front, back, rfl, hfront, hback⟩ := h
  rcases List.mem_append.mp hother with hother | hother
  · exact hfront other hother
  rcases List.mem_cons.mp hother with rfl | hother
  · have hself : compareSpecificity other other = .eq := ReflCmp.compare_self
    rw [hself]
    rfl
  · rw [OrientedCmp.gt_of_lt (hback other hother)]
    rfl

/-- What is no less specific than `d` stands nowhere behind it. -/
theorem eq_of_isGE {back between back' : List Directive} (hback : ∀ other ∈ back, compareSpecificity other d = .lt)
    (hsplit : d :: back = between ++ d' :: back') (hd' : (compareSpecificity d' d).isGE) : d = d' := by
  cases between with
  | nil => exact (List.cons.inj hsplit).1
  | cons _ between =>
    have hmem : d' ∈ back := by
      rw [(List.cons.inj hsplit).2]
      exact List.mem_append_right between List.mem_cons_self
    exact absurd (hback d' hmem) (Ordering.isGE_iff_ne_lt.mp hd')

theorem Counts.eq (h : d.Counts directives) (h' : d'.Counts directives) : d = d' := by
  have hge : (compareSpecificity d d').isGE := h.isGE h'.mem
  have hge' : (compareSpecificity d' d).isGE := h'.isGE h.mem
  obtain ⟨front, back, rfl, -, hback⟩ := h
  obtain ⟨front', back', hsplit, -, hback'⟩ := h'
  rcases List.append_eq_append_iff.mp hsplit with ⟨between, -, hlater⟩ | ⟨between, -, hlater⟩
  · exact eq_of_isGE hback hlater hge'
  · exact (eq_of_isGE hback' hlater hge).symm

/-- Another directive behind all others counts unless it is less specific than the one that counts so far. -/
theorem counts_prefer (h : d.Counts directives) (last : Directive) :
    ∃ best, prefer (some d) last = some best ∧ best.Counts (directives ++ [last]) := by
  by_cases hlast : compareSpecificity last d = .lt
  · refine ⟨d, if_pos hlast, ?_⟩
    obtain ⟨front, back, rfl, hfront, hback⟩ := h
    refine ⟨front, back ++ [last], by rw [List.append_assoc, List.cons_append], hfront, ?_⟩
    intro other hother
    rcases List.mem_append.mp hother with hother | hother
    · exact hback other hother
    · rwa [List.mem_singleton.mp hother]
  · refine ⟨last, if_neg hlast, directives, [], rfl, fun other hother => ?_, nofun⟩
    exact TransCmp.isGE_trans (Ordering.isGE_iff_ne_lt.mpr hlast) (h.isGE hother)

theorem foldl_prefer (directives : List Directive) :
    directives = [] ∨ ∃ d, directives.foldl prefer none = some d ∧ d.Counts directives := by
  induction directives using List.reverseRecOn with
  | nil => exact .inl rfl
  | append_singleton directives last ih =>
    right
    rw [List.foldl_append]
    rcases ih with rfl | ⟨d, hd, hcounts⟩
    · exact ⟨last, rfl, [], [], rfl, nofun, nofun⟩
    · rw [hd]
      exact counts_prefer hcounts last

theorem foldl_prefer_eq_some_iff : directives.foldl prefer none = some d ↔ d.Counts directives := by
  rcases foldl_prefer directives with rfl | ⟨d', hd', hcounts⟩
  · exact ⟨nofun, fun h => (List.not_mem_nil h.mem).elim⟩
  · rw [hd', Option.some.injEq]
    refine ⟨?_, fun h => hcounts.eq h⟩
    rintro rfl
    exact hcounts

end Directive

namespace Filter

variable {filter : List Directive} {e : Event}

theorem directive?_eq_some_iff {d : Directive} :
    directive? filter e = some d ↔ d.Counts (filter.filter fun d => d.appliesTo e) :=
  Directive.foldl_prefer_eq_some_iff

theorem passes_thresholds_iff : (thresholds filter e).passes e.level ↔
    ∃ d : Directive, d.Counts (filter.filter fun d => d.appliesTo e) ∧ d.threshold.passes e.level := by
  unfold thresholds
  simp only [← directive?_eq_some_iff]
  cases directive? filter e with
  | none => simp [Threshold.passes]
  | some d => simp

theorem thresholds_ofThreshold (threshold : Threshold) : thresholds (ofThreshold threshold) = fun _ => threshold := by
  funext e
  cases e <;> rfl

/-- The program speaks in all events. -/
theorem thresholds_ofProgram (threshold : Threshold) : thresholds (ofProgram threshold) = fun _ => threshold := by
  funext e
  have htarget : "xex_disasm".toList.isPrefixOf e.target.toList = true := by
    cases e <;> (simp only [Event.target]; decide +kernel)
  have happlies : Directive.appliesTo { target := "xex_disasm", threshold } e = true := by
    simp only [Directive.appliesTo, htarget, Bool.not_false, Option.all_none, Bool.and_self]
  simp only [thresholds, directive?, ofProgram, List.filter_cons, happlies, if_true, List.filter_nil]
  rfl

theorem ofText?_name (level : Level) : ofText? level.name = some (ofThreshold (some level)) ∧
    ofText? ("xex_disasm=" ++ level.name) = some (ofProgram (some level)) := by
  cases level <;> decide +kernel

example : ofText? "warn,xex_disasm[{len}]=debug" =
    some [{ threshold := some .warn }, { target := "xex_disasm", field := some "len", threshold := some .debug }] := by
  decide +kernel

end Filter

theorem Threshold.passes_trace (level : Level) : Threshold.passes (some .trace) level := by
  cases level <;> rfl

/-- The events that thresholds let through can be any at all. -/
theorem Thresholds.exists_passes (chosen : Event → Bool) :
    ∃ thresholds : Thresholds, ∀ e, (thresholds e).passes e.level = chosen e := by
  refine ⟨fun e => if chosen e then some .trace else none, fun e => ?_⟩
  show Threshold.passes (if chosen e then some .trace else none) e.level = chosen e
  cases chosen e with
  | false => rfl
  | true => exact Threshold.passes_trace e.level

end Disasm6502
