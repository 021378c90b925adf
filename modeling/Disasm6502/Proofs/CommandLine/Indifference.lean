import Disasm6502.Proofs.CommandLine.Files
import Disasm6502.Proofs.Log.Filter

/-!
# Arguments that have no say

Each argument of a run reaches a part of what the run leaves behind and no other part: what is logged is settled
apart from what is printed, the verbose and the quiet switch put lines in front of listings or keep them back, and
an address or a limit counts only where the inputs have a use for it.
-/
namespace Disasm6502

theorem failureLine_configuration (name : String) :
    failureLine name (.configuration "max_segments must be at least 1") =
      "Error: failed to disassemble " ++ name ++ ": Configuration error: max_segments must be at least 1\n" := by
  -- The line is put together from literals that are one here.
  have htail : ": " ++ ("Configuration error: " ++ ("max_segments must be at least 1" ++ ("" ++ "\n"))) =
      ": Configuration error: max_segments must be at least 1\n" := by decide
  unfold failureLine Fault.message
  simp only [← htail, String.append_assoc]

theorem failureLine_unreadable (name text : String) : failureLine name (.unreadable text) =
    "Error: failed to disassemble " ++ name ++ ": IO error: " ++ text ++ ": " ++ text ++ "\n" := by
  have hkind : ": " ++ "IO error: " = ": IO error: " := by decide
  unfold failureLine Fault.message
  simp only [← hkind, String.append_assoc]

namespace Arguments

/-- What a run that is not quiet says of a file that it cannot list. -/
def complaint (a : Arguments) (name : String) (input : Except String (List UInt8)) : String :=
  if a.maxSegments = some 0 then
    "Error: failed to disassemble " ++ name ++ ": Configuration error: max_segments must be at least 1\n"
  else
    match input with
    | .error text => "Error: failed to disassemble " ++ name ++ ": IO error: " ++ text ++ ": " ++ text ++ "\n"
    | .ok _ => ""

/-- All events of a run, whether they are logged or not. -/
def events (a : Arguments) (files : Files) : List Event :=
  a.files.flatMap fun name =>
    match a.options.accept (files name) with
    | .ok bytes => Disassembly.events a.options bytes
    | .error _ => []

variable {a : Arguments} {asked : Option Thresholds} {files : Files}

theorem exit_run_eq : (a.run asked files).exit =
    if a.files.all fun name => (a.disassembly? files name).any Disassembly.isComplete then 0 else 1 := by
  simp [run, Outcome.ofFiles, Function.comp_def, FileOutcome.complete_ofFile]

theorem log_run_eq : (a.run asked files).log =
    (a.events files).filter fun e => (a.thresholds asked e).passes e.level := by
  have hfile : ∀ name, (FileOutcome.ofFile a (a.thresholds asked) files name).log =
      (match a.options.accept (files name) with
        | .ok bytes => Disassembly.events a.options bytes
        | .error _ => []).filter fun e => (a.thresholds asked e).passes e.level := by
    intro name
    unfold FileOutcome.ofFile FileOutcome.ofInput
    cases a.options.accept (files name) <;> rfl
  simp only [run, Outcome.ofFiles, events, List.flatMap_map, List.filter_flatMap, hfile]

/-- A run of which nothing is asked logs by level alone. -/
theorem log_run_none : (a.run none files).log =
    (a.events files).filter fun e => Threshold.passes (some (if a.verbose then .debug else .warn)) e.level := by
  have hthresholds : a.thresholds none = fun _ => some (if a.verbose then .debug else .warn) := by
    unfold thresholds
    rw [Option.getD_none, Filter.thresholds_ofProgram, Filter.thresholds_ofThreshold]
    cases a.verbose <;> rfl
  rw [log_run_eq, hthresholds]

theorem errors_ofFile (a : Arguments) (thresholds : Thresholds) (files : Files) (name : String) :
    (FileOutcome.ofFile a thresholds files name).errors = if a.quiet then "" else a.complaint name (files name) := by
  have hlimit : a.options.limit = a.maxSegments := rfl
  unfold FileOutcome.ofFile FileOutcome.ofInput Options.accept Options.fault? complaint
  rw [hlimit]
  by_cases hzero : a.maxSegments = some 0
  · simp only [if_pos hzero, failureLine_configuration]
  · simp only [if_neg hzero]
    cases files name with
    | error text => simp only [failureLine_unreadable]
    | ok bytes => cases a.quiet <;> rfl

theorem stderr_run_eq : (a.run asked files).stderr =
    if a.quiet then "" else String.join (a.files.map fun name => a.complaint name (files name)) := by
  have hrun : (a.run asked files).stderr =
      String.join (a.files.map fun name => if a.quiet then "" else a.complaint name (files name)) := by
    simp [run, Outcome.ofFiles, Function.comp_def, errors_ofFile]
  rw [hrun]
  cases a.quiet with
  | false => rfl
  | true =>
    simp only [if_true]
    induction a.files with
    | nil => rfl
    | cons name names ih => rw [List.map_cons, String.join_cons, ih, String.empty_append]

/-- Runs over the same files are one run if they make the same of each of them. -/
theorem run_congr {a' : Arguments} {asked' : Option Thresholds} (hfiles : a'.files = a.files)
    (hfile : ∀ name, FileOutcome.ofFile a' (a'.thresholds asked') files name =
      FileOutcome.ofFile a (a.thresholds asked) files name) : a'.run asked' files = a.run asked files := by
  rw [run, run, hfiles]
  exact congrArg Outcome.ofFiles (List.map_congr_left fun name _ => hfile name)

end Arguments

theorem Options.accept_of_limit {o : Options} (h : o.limit ≠ some 0) (input : Except String (List UInt8)) :
    o.accept input = input.mapError Fault.unreadable := by
  unfold accept fault?
  rw [if_neg h]
  cases input <;> rfl

namespace FileOutcome

variable {a a' : Arguments} {thresholds : Thresholds} {files : Files} {name : String}

theorem ofFile_congr (hoptions : a'.options = a.options) (hstyle : a'.style = a.style) (hquiet : a'.quiet = a.quiet) :
    ofFile a' thresholds files name = ofFile a thresholds files name := by
  unfold ofFile ofInput
  rw [hoptions, hstyle, hquiet]

/-- An image is one segment, so a limit that leaves room for a segment has no say in it. -/
theorem ofFile_limit (hraw : a.raw = true) (hlimit : a.maxSegments ≠ some 0) {limit : Option Nat}
    (hlimit' : limit ≠ some 0) :
    ofFile { a with maxSegments := limit } thresholds files name = ofFile a thresholds files name := by
  have himage : a.options = { format := .raw a.base, limit := a.maxSegments, decode := a.format != .short } := by
    rw [Arguments.options, if_pos hraw]
  have himage' : { a with maxSegments := limit }.options = { a.options with limit } := rfl
  have haccept : a.options.accept (files name) = (files name).mapError Fault.unreadable :=
    Options.accept_of_limit hlimit _
  have haccept' : { a with maxSegments := limit }.options.accept (files name) =
      (files name).mapError Fault.unreadable := Options.accept_of_limit hlimit' _
  unfold ofFile ofInput
  rw [haccept, haccept', himage', himage]
  cases files name <;> rfl

end FileOutcome

/-- Each format heeds one of the switches. -/
theorem Arguments.style_congr {a a' : Arguments} (hformat : a'.format = a.format)
    (hverbose : a.format = .human → a'.verbose = a.verbose) (hpretty : a.format = .json → a'.pretty = a.pretty)
    (hquiet : a.format = .short → a'.quiet = a.quiet) : a'.style = a.style := by
  unfold style
  rw [hformat]
  cases hf : a.format with
  | human => rw [hverbose hf]
  | json => rw [hpretty hf]
  | short => rw [hquiet hf]

theorem Arguments.format_listed {a : Arguments} {files : Files} {name : String} {d : Disassembly}
    (h : (name, d) ∈ a.listed files) :
    d.format.text = if a.raw then "Raw @ $" ++ Hex.upper 4 a.base.toNat else "XEX" := by
  obtain ⟨file, -, hfile⟩ := List.mem_filterMap.mp h
  obtain ⟨_, hd, hpair⟩ := Option.map_eq_some_iff.mp hfile
  cases hpair
  obtain ⟨-, bytes, -, rfl⟩ := disassembly?_eq_some_iff.mp hd
  show a.options.format.text = _
  unfold options
  cases a.raw <;> rfl

theorem Disassembly.itemCount_eq (d : Disassembly) :
    d.itemCount = (d.segments.flatMap DecodedSegment.items).length := by
  unfold itemCount
  induction d.segments with
  | nil => rfl
  | cons s segments ih => rw [List.map_cons, total_cons, ih, List.flatMap_cons, List.length_append]

/-- The line about a file in a short listing. -/
theorem Short.header_listed {a : Arguments} {files : Files} {name : String} {d : Disassembly}
    (h : (name, d) ∈ a.listed files) :
    header name d = "File: " ++ name ++ " (" ++ (if a.raw then "Raw @ $" ++ Hex.upper 4 a.base.toNat else "XEX")
      ++ ", " ++ toString d.markers ++ " marker(s))\n" := by
  rw [← a.format_listed h]
  rfl

/-- The two lines about a file in front of its assembler listing. -/
theorem Human.header_listed {a : Arguments} {files : Files} {name : String} {d : Disassembly}
    (h : (name, d) ∈ a.listed files) :
    header name d = "; File: " ++ name ++ "\n; Format: "
      ++ (if a.raw then "Raw @ $" ++ Hex.upper 4 a.base.toNat else "XEX") ++ ", " ++ toString d.segments.length
      ++ " segment(s), " ++ toString d.markers ++ " marker(s), "
      ++ toString (d.segments.flatMap DecodedSegment.items).length ++ " item(s)\n" := by
  rw [← a.format_listed h, ← d.itemCount_eq]
  rfl

theorem Style.listing_human_verbose (path : String) (d : Disassembly) :
    (human true).listing path d = Human.header path d ++ (human false).listing path d := by
  simp [listing, parts, Parts.text, String.append_assoc]

theorem Style.listing_short_loud (path : String) (d : Disassembly) :
    (short false).listing path d = Short.header path d ++ (short true).listing path d := by
  simp [listing, parts, Parts.text, String.append_assoc]

namespace Arguments

namespace Draft

variable {d : Draft} {defaultBase defaultBase' : Option String} {argument : String} {rest : List String}
  {a a' : Arguments}

/-- What an argument makes of a draft, unless it is two dashes. -/
def takeOne (d : Draft) (argument : String) : Except UsageError Progress :=
  match argument.toList with
  | '-' :: '-' :: text => d.long text
  | '-' :: letter :: text => d.letters (letter :: text)
  | _ => do return .more (← d.plain argument)

/-- Goes on with the other arguments. -/
def Progress.takeRest (defaultBase : Option String) (rest : List String) : Progress → Except UsageError Request
  | .more d => d.takeAll defaultBase rest
  | .done request => .ok request

theorem takeAll_dashes (h : argument.toList = ['-', '-']) :
    d.takeAll defaultBase (argument :: rest) = d.filesOnly rest >>= fun d => d.finish defaultBase := by
  rw [takeAll, h]
  rfl

theorem takeAll_cons (h : argument.toList ≠ ['-', '-']) :
    d.takeAll defaultBase (argument :: rest) = d.takeOne argument >>= Progress.takeRest defaultBase rest := by
  unfold takeAll takeOne
  generalize argument.toList = text at h
  split
  case h_1 => exact absurd rfl h
  case h_2 => rfl
  case h_3 letter text _ hletter =>
    split
    case h_1 htext => exact absurd (List.cons.inj (List.cons.inj htext).2).1 hletter
    case h_2 htext =>
      cases htext
      rfl
    case h_3 hother => exact (hother letter text rfl).elim
  case h_4 hlong hletters =>
    split
    case h_1 => exact (hlong _ rfl).elim
    case h_2 => exact (hletters _ _ rfl).elim
    case h_3 => cases d.plain argument <;> rfl

/-- The environment has no say but in the base. -/
theorem finish_rebase (h : d.finish defaultBase = .ok (.run a)) (h' : d.finish defaultBase' = .ok (.run a')) :
    a' = { a with base := a'.base } := by
  rw [finish_eq] at h h'
  obtain ⟨closed, hclose, h⟩ := exists_ok_of_bind h
  obtain ⟨base, -, h⟩ := exists_ok_of_bind h
  rw [hclose, ok_bind] at h'
  obtain ⟨base', -, h'⟩ := exists_ok_of_bind h'
  unfold request at h h'
  by_cases hfiles : closed.files.isEmpty
  · rw [if_pos hfiles] at h
    cases h
  · rw [if_neg hfiles] at h h'
    cases h
    cases h'
    rfl

theorem takeAll_rebase {line : List String} (h : d.takeAll defaultBase line = .ok (.run a))
    (h' : d.takeAll defaultBase' line = .ok (.run a')) : a' = { a with base := a'.base } := by
  induction line generalizing d with
  | nil => exact finish_rebase h h'
  | cons argument rest ih =>
    by_cases hdashes : argument.toList = ['-', '-']
    · rw [takeAll_dashes hdashes] at h h'
      obtain ⟨opened, hopened, h⟩ := exists_ok_of_bind h
      rw [hopened, ok_bind] at h'
      exact finish_rebase h h'
    · rw [takeAll_cons hdashes] at h h'
      obtain ⟨p, hp, h⟩ := exists_ok_of_bind h
      rw [hp, ok_bind] at h'
      cases p with
      | more d => exact ih h h'
      | done request =>
        cases h
        cases h'
        rfl

end Draft

/-- The same arguments ask for the same run up to the base, whatever the environment says. -/
theorem parse_rebase {line : List String} {defaultBase defaultBase' : Option String} {a a' : Arguments}
    (h : parse line defaultBase = .ok (.run a)) (h' : parse line defaultBase' = .ok (.run a')) :
    a' = { a with base := a'.base } :=
  Draft.takeAll_rebase h h'

end Arguments

namespace Arguments

variable {a : Arguments} {asked : Option Thresholds} {files : Files}

theorem run_asked (a : Arguments) (asked asked' : Option Thresholds) (files : Files) :
    (a.run asked' files).exit = (a.run asked files).exit ∧ (a.run asked' files).stdout = (a.run asked files).stdout ∧
      (a.run asked' files).stderr = (a.run asked files).stderr := by
  simp only [exit_run_eq, stdout_run, stderr_run_eq, and_self]

/-- A run that is not quiet complains of the files that cannot be had, and a short listing names each that can. -/
theorem run_quiet (hloud : a.quiet = false) :
    let loud := a.run asked files
    let quiet := { a with quiet := true }.run asked files
    quiet.exit = loud.exit ∧ quiet.log = loud.log ∧
      loud.stderr = String.join (a.files.map fun name => a.complaint name (files name)) ∧
      quiet.stderr = "" ∧
      (a.format ≠ .short → quiet.stdout = loud.stdout) ∧
      (a.format = .short →
        loud.stdout = String.join ((a.listed files).map fun (name, d) =>
          Short.header name d ++ (Style.short true).listing name d) ∧
        quiet.stdout = String.join ((a.listed files).map fun (name, d) => (Style.short true).listing name d)) := by
  intro loud quiet
  have hexit : quiet.exit = loud.exit := by
    rw [exit_run_eq, exit_run_eq]
    rfl
  have hlog : quiet.log = loud.log := by
    rw [log_run_eq, log_run_eq]
    rfl
  have hlisted : { a with quiet := true }.listed files = a.listed files := rfl
  refine ⟨hexit, hlog, ?loud, ?quiet, fun hformat => ?other, fun hformat => ⟨?header, ?plain⟩⟩
  case loud => rw [stderr_run_eq, hloud, if_neg Bool.false_ne_true]
  case quiet => rw [stderr_run_eq, if_pos rfl]
  case other =>
    have hstyle : { a with quiet := true }.style = a.style :=
      style_congr rfl (fun _ => rfl) (fun _ => rfl) (fun h => absurd h hformat)
    rw [stdout_run, stdout_run, hlisted, hstyle]
  case header =>
    have hstyle : a.style = .short false := by rw [style, hformat, hloud]
    simp only [loud, stdout_run, hstyle, Style.listing_short_loud]
  case plain =>
    have hstyle : { a with quiet := true }.style = .short true := by rw [style, hformat]
    rw [stdout_run, hlisted, hstyle]

/-- A verbose run has a header for each assembler listing. -/
theorem run_verbose (hplain : a.verbose = false) :
    let plain := a.run asked files
    let verbose := { a with verbose := true }.run asked files
    verbose.exit = plain.exit ∧ verbose.stderr = plain.stderr ∧
      (a.format ≠ .human → verbose.stdout = plain.stdout) ∧
      (a.format = .human →
        plain.stdout = String.join ((a.listed files).map fun (name, d) => (Style.human false).listing name d) ∧
        verbose.stdout = String.join ((a.listed files).map fun (name, d) =>
          Human.header name d ++ (Style.human false).listing name d)) := by
  intro plain verbose
  have hexit : verbose.exit = plain.exit := by
    rw [exit_run_eq, exit_run_eq]
    rfl
  have hstderr : verbose.stderr = plain.stderr := by
    rw [stderr_run_eq, stderr_run_eq]
    rfl
  have hlisted : { a with verbose := true }.listed files = a.listed files := rfl
  refine ⟨hexit, hstderr, fun hformat => ?other, fun hformat => ⟨?plain, ?header⟩⟩
  case other =>
    have hstyle : { a with verbose := true }.style = a.style :=
      style_congr rfl (fun h => absurd h hformat) (fun _ => rfl) (fun _ => rfl)
    rw [stdout_run, stdout_run, hlisted, hstyle]
  case plain =>
    have hstyle : a.style = .human false := by rw [style, hformat, hplain]
    rw [stdout_run, hstyle]
  case header =>
    have hstyle : { a with verbose := true }.style = .human true := by rw [style, hformat]
    simp only [verbose, stdout_run, hlisted, hstyle, Style.listing_human_verbose]

theorem run_pretty (hformat : a.format ≠ .json) (pretty : Bool) :
    { a with pretty }.run asked files = a.run asked files := by
  have hstyle : { a with pretty }.style = a.style :=
    style_congr rfl (fun _ => rfl) (fun h => absurd h hformat) (fun _ => rfl)
  exact run_congr rfl fun name => FileOutcome.ofFile_congr rfl hstyle rfl

theorem run_base (hraw : a.raw = false) (base : UInt16) : { a with base }.run asked files = a.run asked files := by
  have hoptions : { a with base }.options = a.options := by
    unfold options
    simp only [hraw, Bool.false_eq_true, if_false]
  exact run_congr rfl fun name => FileOutcome.ofFile_congr hoptions rfl rfl

theorem run_limit (hraw : a.raw = true) (hlimit : a.maxSegments ≠ some 0) {limit : Option Nat}
    (hlimit' : limit ≠ some 0) : { a with maxSegments := limit }.run asked files = a.run asked files :=
  run_congr rfl fun _ => FileOutcome.ofFile_limit hraw hlimit hlimit'

end Arguments

/-- Runs that differ in one respect only. What is asked of the log, which may let through any events and no others,
settles the log alone. A quiet run keeps back the error lines and, in a short listing, the line about the file; a
verbose run puts a header of two lines in front of each assembler listing. The other arguments have no say where
nothing is theirs to settle: the layout of JSON in other listings, the base of an image where there is none, from the
environment or not, and a limit that leaves room for the one segment of an image. -/
theorem run_differing {line line' : List String} {defaultBase defaultBase' : Option String} {a a' : Arguments}
    (h : Arguments.parse line defaultBase = .ok (.run a))
    (h' : Arguments.parse line' defaultBase' = .ok (.run a')) (asked asked' : Option Thresholds) (files : Files) :
    let o := runCommandLine line defaultBase asked files
    let o' := runCommandLine line' defaultBase' asked' files
    (a' = a → o'.exit = o.exit ∧ o'.stdout = o.stdout ∧ o'.stderr = o.stderr) ∧
    (asked' = asked →
      (a.quiet = false → a' = { a with quiet := true } → o'.exit = o.exit ∧ o'.log = o.log ∧
        o.stderr = String.join (a.files.map fun name =>
          if a.maxSegments = some 0 then
            "Error: failed to disassemble " ++ name ++ ": Configuration error: max_segments must be at least 1\n"
          else
            match files name with
            | .error text => "Error: failed to disassemble " ++ name ++ ": IO error: " ++ text ++ ": " ++ text ++ "\n"
            | .ok _ => "") ∧
        o'.stderr = "" ∧
        (a.format ≠ .short → o'.stdout = o.stdout) ∧
        (a.format = .short →
          o.stdout = String.join ((a.listed files).map fun (name, d) =>
            "File: " ++ name ++ " (" ++ (if a.raw then "Raw @ $" ++ Hex.upper 4 a.base.toNat else "XEX") ++ ", "
              ++ toString d.markers ++ " marker(s))\n" ++ (Style.short true).listing name d) ∧
          o'.stdout = String.join ((a.listed files).map fun (name, d) => (Style.short true).listing name d))) ∧
      (a.verbose = false → a' = { a with verbose := true } → o'.exit = o.exit ∧ o'.stderr = o.stderr ∧
        (a.format ≠ .human → o'.stdout = o.stdout) ∧
        (a.format = .human →
          o.stdout = String.join ((a.listed files).map fun (name, d) => (Style.human false).listing name d) ∧
          o'.stdout = String.join ((a.listed files).map fun (name, d) =>
            "; File: " ++ name ++ "\n; Format: " ++ (if a.raw then "Raw @ $" ++ Hex.upper 4 a.base.toNat else "XEX")
              ++ ", " ++ toString d.segments.length ++ " segment(s), " ++ toString d.markers ++ " marker(s), "
              ++ toString (d.segments.flatMap DecodedSegment.items).length ++ " item(s)\n"
              ++ (Style.human false).listing name d))) ∧
      (a.format ≠ .json → a' = { a with pretty := a'.pretty } → o' = o) ∧
      (a.raw = false → line' = line ∨ a' = { a with base := a'.base } → o' = o) ∧
      (a.raw = true → a.maxSegments ≠ some 0 → a'.maxSegments ≠ some 0 →
        a' = { a with maxSegments := a'.maxSegments } → o' = o)) := by
  intro o o'
  have ho : o = a.run asked files := runCommandLine_of_parse h asked files
  have ho' : o' = a'.run asked' files := runCommandLine_of_parse h' asked' files
  rw [ho, ho']
  refine ⟨?log, ?_⟩
  case log =>
    rintro rfl
    exact a'.run_asked asked asked' files
  rintro rfl
  refine ⟨?quiet, ?verbose, ?pretty, ?base, ?limit⟩
  case quiet =>
    rintro hloud rfl
    obtain ⟨hexit, hlog, hstderr, hnone, hother, hshort⟩ := Arguments.run_quiet hloud
    refine ⟨hexit, hlog, hstderr, hnone, hother, fun hformat => ⟨(hshort hformat).1.trans ?_, (hshort hformat).2⟩⟩
    refine congrArg String.join (List.map_congr_left fun (name, d) hlisted => ?_)
    exact congrArg (· ++ (Style.short true).listing name d) (Short.header_listed hlisted)
  case verbose =>
    rintro hplain rfl
    obtain ⟨hexit, hstderr, hother, hhuman⟩ := Arguments.run_verbose hplain
    refine ⟨hexit, hstderr, hother, fun hformat => ⟨(hhuman hformat).1, (hhuman hformat).2.trans ?_⟩⟩
    refine congrArg String.join (List.map_congr_left fun (name, d) hlisted => ?_)
    exact congrArg (· ++ (Style.human false).listing name d) (Human.header_listed hlisted)
  case pretty =>
    intro hformat ha
    rw [ha]
    exact Arguments.run_pretty hformat a'.pretty
  case base =>
    intro hraw hsame
    have ha : a' = { a with base := a'.base } := by
      rcases hsame with rfl | ha
      · exact Arguments.parse_rebase h h'
      · exact ha
    rw [ha]
    exact Arguments.run_base hraw a'.base
  case limit =>
    intro hraw hlimit hlimit' ha
    rw [ha]
    exact Arguments.run_limit hraw hlimit hlimit'

/-- One file that can be had and one that cannot: in a short listing, loud and quiet, and in an assembler listing, plain
and verbose. -/
theorem run_differing_quiet :
    let bytes : List UInt8 := [0x00, 0x10, 0x00, 0x10, 0xEA]
    let files : Files := fun name => if name = "good" then .ok bytes else .error "no such file"
    let loud := runCommandLine ["-fshort", "gone", "good"] none none files
    let quiet := runCommandLine ["-q", "-fshort", "gone", "good"] none none files
    let plain := runCommandLine ["gone", "good"] none none files
    let verbose := runCommandLine ["-v", "gone", "good"] none none files
    (loud.stderr = "Error: failed to disassemble gone: IO error: no such file: no such file\n" ∧ quiet.stderr = "" ∧
        quiet.exit = loud.exit ∧ loud.stdout = "File: good (XEX, 0 marker(s))\n" ++ quiet.stdout) ∧
      verbose.stderr = loud.stderr ∧
      verbose.stdout = "; File: good\n; Format: XEX, 1 segment(s), 0 marker(s), 1 item(s)\n" ++ plain.stdout := by
  intro bytes files loud quiet plain verbose
  have hloud : Arguments.parse ["-fshort", "gone", "good"] none =
      .ok (.run ⟨["gone", "good"], .short, false, 0, none, false, false, false⟩) := rfl
  have hquiet : Arguments.parse ["-q", "-fshort", "gone", "good"] none =
      .ok (.run ⟨["gone", "good"], .short, false, 0, none, false, false, true⟩) := rfl
  have hplain : Arguments.parse ["gone", "good"] none =
      .ok (.run ⟨["gone", "good"], .human, false, 0, none, false, false, false⟩) := rfl
  have hverbose : Arguments.parse ["-v", "gone", "good"] none =
      .ok (.run ⟨["gone", "good"], .human, false, 0, none, false, true, false⟩) := rfl
  obtain ⟨hexit, -, hstderr, hnone, -, hshort⟩ := ((run_differing hloud hquiet none none files).2 rfl).1 rfl rfl
  obtain ⟨-, hsame, -, hhuman⟩ := ((run_differing hplain hverbose none none files).2 rfl).2.1 rfl rfl
  refine ⟨⟨hstderr.trans ?complaint, hnone, hexit, (hshort rfl).1.trans ?line⟩, hsame.trans ?same,
    (hhuman rfl).2.trans ?header⟩
  case complaint => decide +kernel
  case line =>
    rw [(hshort rfl).2]
    decide +kernel
  case same => decide +kernel
  case header =>
    rw [(hhuman rfl).1]
    decide +kernel

end Disasm6502
