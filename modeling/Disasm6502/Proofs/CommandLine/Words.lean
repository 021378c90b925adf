import Disasm6502.Proofs.CommandLine.Draft

/-!
# Spelling requests out

Every proper request for a run has a command line that asks for it: each setting with its value attached, the
switches that are on, and the files behind two dashes, where a name may look like anything.
-/
namespace Disasm6502

def OutputFormat.word : OutputFormat → String
  | human => "human"
  | json => "json"
  | short => "short"

namespace Setting

def name : Setting → String
  | format => "format"
  | base => "base"
  | maxSegments => "max-segments"

/-- The argument that gives a setting its value. -/
def word (s : Setting) (value : String) : String :=
  "--" ++ s.name ++ "=" ++ value

end Setting

namespace Arguments

def has (a : Arguments) : Switch → Bool
  | .raw => a.raw
  | .pretty => a.pretty
  | .verbose => a.verbose
  | .quiet => a.quiet

/-- The switches that are on. -/
def switches (a : Arguments) : List Switch :=
  [.raw, .pretty, .verbose, .quiet].filter a.has

/-- A command line for a request. -/
def words (a : Arguments) : List String :=
  Setting.format.word a.format.word :: Setting.base.word ("$" ++ Hex.upper 4 a.base.toNat) ::
    ((a.maxSegments.map fun n => Setting.maxSegments.word (toString n)).toList
      ++ (a.switches.map Switch.display ++ "--" :: a.files))

theorem parseFormat_word (f : OutputFormat) : parseFormat f.word = .ok f := by
  cases f <;> rfl

theorem parseBase_upper (w : UInt16) : parseBase ("$" ++ Hex.upper 4 w.toNat) = .ok w := by
  rw [parseBase, Numeral.readAddress_upper]
  rfl

theorem parseMaxSegments_toString {n : Nat} (h : n < UInt64.size) : parseMaxSegments (toString n) = .ok n := by
  rw [parseMaxSegments, Numeral.readCount_toString h]
  rfl

namespace Draft

variable {d : Draft} {defaultBase : Option String} {rest : List String}

theorem close_of_nothing (hd : d.pending = .nothing) : d.close = .ok d := by
  rw [close, hd]

theorem set_format (hd : d.format = none) (f : OutputFormat) :
    d.set .format f.word = .ok { d with format := some f } := by
  rw [set, has, hd, parseFormat_word]
  rfl

theorem set_base (hd : d.base = none) (w : UInt16) :
    d.set .base ("$" ++ Hex.upper 4 w.toNat) = .ok { d with base := some w } := by
  rw [set, has, hd, parseBase_upper]
  rfl

theorem set_maxSegments (hd : d.maxSegments = none) {n : Nat} (hn : n < UInt64.size) :
    d.set .maxSegments (toString n) = .ok { d with maxSegments := some n } := by
  rw [set, has, hd, parseMaxSegments_toString hn]
  rfl

theorem takeAll_long {argument : String} {text : List Char} {d' : Draft}
    (hargument : argument.toList = '-' :: '-' :: text) (htext : text ≠ []) (hlong : d.long text = .ok (.more d')) :
    d.takeAll defaultBase (argument :: rest) = d'.takeAll defaultBase rest := by
  obtain ⟨c, text, rfl⟩ := List.exists_cons_of_ne_nil htext
  rw [takeAll, hargument]
  simp only [hlong]
  rfl

theorem ofLong?_name (s : Setting) : Named.ofLong? s.name = some (.setting s) := by
  cases s <;> rfl

theorem long_word {s : Setting} {value : List Char} {d' : Draft} (hd : d.pending = .nothing)
    (hset : d.set s (String.ofList value) = .ok d') : d.long (s.name.toList ++ '=' :: value) = .ok (.more d') := by
  have hname : ∀ c ∈ s.name.toList, (c != '=') = true := List.all_eq_true.mp (by cases s <;> rfl)
  have hstop : StopsAt (· != '=') ('=' :: value) := stopsAt_cons rfl
  unfold long
  rw [takeWhile_word hname hstop, dropWhile_word hname hstop, String.ofList_toList]
  simp only [ofLong?_name, named, close_of_nothing hd]
  rw [ok_bind, hset]
  rfl

/-- A setting with its value attached is set at once. -/
theorem takeAll_word {s : Setting} {value : String} {d' : Draft} (hd : d.pending = .nothing)
    (hset : d.set s value = .ok d') :
    d.takeAll defaultBase (s.word value :: rest) = d'.takeAll defaultBase rest := by
  have hword : (s.word value).toList = '-' :: '-' :: (s.name.toList ++ '=' :: value.toList) := by
    simp [Setting.word]
  refine takeAll_long hword (by simp) (long_word hd ?_)
  rwa [String.ofList_toList]

/-- A count is given where there is one. -/
theorem takeAll_count {limit : Option Nat} (hd : d.pending = .nothing) (hnone : d.maxSegments = none)
    (hlimit : ∀ n, limit = some n → n < UInt64.size) :
    d.takeAll defaultBase ((limit.map fun n => Setting.maxSegments.word (toString n)).toList ++ rest) =
      { d with maxSegments := limit }.takeAll defaultBase rest := by
  cases limit with
  | none =>
    have hsame : { d with maxSegments := none } = d := by rw [← hnone]
    rw [hsame]
    rfl
  | some n => exact takeAll_word hd (set_maxSegments hnone (hlimit n rfl))

theorem takeAll_switch {s : Switch} (hd : d.pending = .nothing) (hs : s ∉ d.switches) :
    d.takeAll defaultBase (s.display :: rest) =
      { d with switches := s :: d.switches }.takeAll defaultBase rest := by
  have hon : d.switchOn s = .ok { d with switches := s :: d.switches } := by
    simp [switchOn, close_of_nothing hd, hs, bind, Except.bind]
  obtain ⟨text, htext, hdisplay, hlong⟩ : ∃ text, text ≠ [] ∧ s.display.toList = '-' :: '-' :: text ∧
      d.long text = d.named (.switch s) none := by
    cases s
    · exact ⟨"raw".toList, by decide, rfl, rfl⟩
    · exact ⟨"pretty".toList, by decide, rfl, rfl⟩
    · exact ⟨"verbose".toList, by decide, rfl, rfl⟩
    · exact ⟨"quiet".toList, by decide, rfl, rfl⟩
  refine takeAll_long hdisplay htext ?_
  rw [hlong, named, hon]
  rfl

/-- Switches may come in any order, but none of them twice. -/
theorem takeAll_switches {switches : List Switch} (hd : d.pending = .nothing)
    (hnodup : (d.switches.reverse ++ switches).Nodup) :
    d.takeAll defaultBase (switches.map Switch.display ++ rest) =
      { d with switches := switches.reverse ++ d.switches }.takeAll defaultBase rest := by
  induction switches generalizing d with
  | nil => rfl
  | cons s switches ih =>
    have hs : s ∉ d.switches := by
      intro hmem
      exact (List.nodup_append.mp hnodup).2.2 s (List.mem_reverse.mpr hmem) s List.mem_cons_self rfl
    have hmore : ((s :: d.switches).reverse ++ switches).Nodup := by
      rwa [List.reverse_cons, List.append_assoc]
    have htaken := ih (d := { d with switches := s :: d.switches }) hd hmore
    rw [List.map_cons, List.cons_append, takeAll_switch hd hs, htaken, List.reverse_cons, List.append_assoc]
    rfl

theorem filesOnly_of_files {names opened : List String} (hd : d.pending = .files opened) :
    d.filesOnly names = .ok { d with pending := .files (opened ++ names) } := by
  induction names generalizing d opened with
  | nil =>
    rw [List.append_nil, ← hd]
    rfl
  | cons name names ih =>
    have hfile : d.file name = .ok { d with pending := .files (opened ++ [name]) } := by
      rw [file, hd]
    rw [filesOnly, hfile, ok_bind, ih rfl, List.append_assoc]
    rfl

theorem filesOnly_of_nothing {names : List String} (hd : d.pending = .nothing) (hnames : names ≠ []) :
    d.filesOnly names = .ok { d with pending := .files names } := by
  obtain ⟨name, names, rfl⟩ := List.exists_cons_of_ne_nil hnames
  have hfile : d.file name = .ok { d with pending := .files [name] } := by
    rw [file, hd, close_of_nothing hd]
    rfl
  rw [filesOnly, hfile, ok_bind, filesOnly_of_files rfl]
  rfl

/-- All that stands behind two dashes is a file. -/
theorem takeAll_files {names : List String} (hd : d.pending = .nothing) (hnames : names ≠ [])
    (hnamed : ∀ name ∈ names, name ≠ "") : d.takeAll defaultBase ("--" :: names) =
      d.baseOr defaultBase >>= { d with files := d.files ++ names }.request := by
  have hany : names.any String.isEmpty = false := by
    simpa using hnamed
  have hclose : close { d with pending := .files names } = .ok { d with files := d.files ++ names } := by
    simp [close, hany, hd]
  have htake : d.takeAll defaultBase ("--" :: names) =
      d.filesOnly names >>= fun d => d.finish defaultBase := rfl
  rw [htake, filesOnly_of_nothing hd hnames, ok_bind, finish_eq, hclose, ok_bind]
  rfl

end Draft

/-- The draft that the words make, with nothing open. -/
def draft (a : Arguments) : Draft :=
  { files := a.files
    format := some a.format
    base := some a.base
    maxSegments := a.maxSegments
    switches := a.switches.reverse
    pending := .nothing }

theorem request_draft {a : Arguments} (ha : a.files ≠ []) : a.draft.request a.base = .ok (.run a) := by
  have hswitch : ∀ s, a.draft.switches.contains s = a.has s := by
    intro s
    have hall : s ∈ [Switch.raw, .pretty, .verbose, .quiet] := by cases s <;> decide
    rw [draft, List.contains_reverse, switches, Bool.eq_iff_iff]
    simp [hall]
  unfold Draft.request
  simp only [hswitch]
  rw [if_neg (by simpa [draft] using ha)]
  rfl

/-- Every proper request is made by a command line, whatever the environment says. -/
theorem parse_words {a : Arguments} (ha : a.Proper) (defaultBase : Option String) :
    parse a.words defaultBase = .ok (.run a) := by
  let switchWords := a.switches.map Switch.display ++ "--" :: a.files
  let countWords := (a.maxSegments.map fun n => Setting.maxSegments.word (toString n)).toList ++ switchWords
  let baseWords := Setting.base.word ("$" ++ Hex.upper 4 a.base.toNat) :: countWords
  have hnodup : a.switches.Nodup := (by decide : [Switch.raw, .pretty, .verbose, .quiet].Nodup).filter _
  calc parse a.words defaultBase
    _ = Draft.takeAll defaultBase ⟨[], some a.format, none, none, [], .nothing⟩ baseWords :=
      Draft.takeAll_word rfl (Draft.set_format rfl a.format)
    _ = Draft.takeAll defaultBase ⟨[], some a.format, some a.base, none, [], .nothing⟩ countWords :=
      Draft.takeAll_word rfl (Draft.set_base rfl a.base)
    _ = Draft.takeAll defaultBase ⟨[], some a.format, some a.base, a.maxSegments, [], .nothing⟩ switchWords :=
      Draft.takeAll_count rfl rfl ha.count
    _ = Draft.takeAll defaultBase { a.draft with files := [] } ("--" :: a.files) := by
      rw [draft, ← List.append_nil a.switches.reverse]
      exact Draft.takeAll_switches rfl hnodup
    _ = a.draft.request a.base := Draft.takeAll_files rfl ha.files ha.names
    _ = .ok (.run a) := request_draft ha.files

end Arguments

end Disasm6502
