import Disasm6502.Proofs.CommandLine.Run
import Disasm6502.Proofs.CommandLine.Words

/-!
# Files of a run

No file of a run has a say in what another adds: what a run prints and logs is what runs over each file alone
would, in the order of the files, and it succeeds if each of them does.
-/
namespace Disasm6502

/-- Malformed headers are those of load files: an image has none. -/
theorem Arguments.isComplete_ofBytes_iff {a : Arguments} {bytes : List UInt8} :
    (Disassembly.ofBytes a.options bytes).isComplete ↔
      (a.raw = false → (Report.ofLoadFile a.maxSegments bytes).error = none) := by
  unfold options
  cases a.raw with
  | true => simp [Disassembly.isComplete, Disassembly.ofBytes, Report.load, Report.ofImage]
  | false => simp [Disassembly.isComplete, Disassembly.ofBytes, Report.load]

theorem FileOutcome.complete_ofFile_iff {a : Arguments} {thresholds : Thresholds} {files : Files} {name : String} :
    (ofFile a thresholds files name).complete ↔ a.maxSegments ≠ some 0 ∧ ∃ bytes, files name = .ok bytes ∧
      (a.raw = false → (Report.ofLoadFile a.maxSegments bytes).error = none) := by
  rw [complete_ofFile, Option.any_eq_true]
  constructor
  · rintro ⟨d, hd, hcomplete⟩
    obtain ⟨hlimit, bytes, hbytes, rfl⟩ := Arguments.disassembly?_eq_some_iff.mp hd
    exact ⟨hlimit, bytes, hbytes, Arguments.isComplete_ofBytes_iff.mp hcomplete⟩
  · rintro ⟨hlimit, bytes, hbytes, hcomplete⟩
    exact ⟨_, Arguments.disassembly?_eq_some_iff.mpr ⟨hlimit, bytes, hbytes, rfl⟩,
      Arguments.isComplete_ofBytes_iff.mpr hcomplete⟩

namespace Arguments

variable {a : Arguments} {asked : Option Thresholds} {files : Files}

/-- The request for one file of a run. -/
def alone (a : Arguments) (name : String) : Arguments :=
  { a with files := [name] }

theorem Proper.alone (ha : a.Proper) {name : String} (hname : name ∈ a.files) : (a.alone name).Proper where
  files := List.cons_ne_nil name []
  names := by
    rintro _ (_ | ⟨_, ⟨⟩⟩)
    exact ha.names name hname
  count := ha.count

theorem run_alone (name : String) : (a.alone name).run asked files =
    .ofFiles [FileOutcome.ofFile a (a.thresholds asked) files name] :=
  rfl

theorem stdout_alone (name : String) : ((a.alone name).run asked files).stdout =
    ((a.disassembly? files name).map (a.style.listing name)).getD "" := by
  simp [run_alone, Outcome.ofFiles, FileOutcome.listing_ofFile]

/-- Malformed or not, a file that can be had is listed as a whole. -/
theorem stdout_alone_of_ok {name : String} {bytes : List UInt8} (hlimit : a.maxSegments ≠ some 0)
    (hbytes : files name = .ok bytes) : ((a.alone name).run asked files).stdout =
      a.style.listing name (Disassembly.ofBytes a.options bytes) := by
  rw [stdout_alone, disassembly?_eq_some_iff.mpr ⟨hlimit, bytes, hbytes, rfl⟩]
  rfl

theorem stdout_alone_of_error {name : String} (h : a.maxSegments = some 0 ∨ ∃ text, files name = .error text) :
    ((a.alone name).run asked files).stdout = "" := by
  have hnone : a.disassembly? files name = none := by
    refine Option.eq_none_iff_forall_ne_some.mpr fun d hd => ?_
    obtain ⟨hlimit, bytes, hbytes, -⟩ := disassembly?_eq_some_iff.mp hd
    rcases h with hzero | ⟨text, htext⟩
    · exact hlimit hzero
    · rw [hbytes] at htext
      cases htext
  rw [stdout_alone, hnone]
  rfl

theorem stdout_run_eq_join : (a.run asked files).stdout =
    String.join (a.files.map fun name => ((a.alone name).run asked files).stdout) := by
  simp only [run_alone]
  simp [run, Outcome.ofFiles, Function.comp_def]

theorem log_run_eq_flatMap : (a.run asked files).log =
    a.files.flatMap fun name => ((a.alone name).run asked files).log := by
  simp only [run_alone]
  simp [run, Outcome.ofFiles, List.flatMap_map]

theorem stderr_run_eq_join : (a.run asked files).stderr =
    String.join (a.files.map fun name => ((a.alone name).run asked files).stderr) := by
  simp only [run_alone]
  simp [run, Outcome.ofFiles, Function.comp_def]

theorem exit_run : (a.run asked files).exit = 0 ∨ (a.run asked files).exit = 1 := by
  unfold run Outcome.ofFiles
  dsimp only
  split
  · exact .inl rfl
  · exact .inr rfl

theorem exit_run_eq_zero_iff (ha : a.files ≠ []) : (a.run asked files).exit = 0 ↔
    a.maxSegments ≠ some 0 ∧ ∀ name ∈ a.files, ∃ bytes, files name = .ok bytes ∧
      (a.raw = false → (Report.ofLoadFile a.maxSegments bytes).error = none) := by
  have hall : (a.run asked files).exit = 0 ↔
      ∀ name ∈ a.files, (FileOutcome.ofFile a (a.thresholds asked) files name).complete := by
    simp [run, Outcome.ofFiles]
  simp only [hall, FileOutcome.complete_ofFile_iff]
  constructor
  · intro h
    obtain ⟨name, hname⟩ := List.exists_mem_of_ne_nil _ ha
    exact ⟨(h name hname).1, fun name hname => (h name hname).2⟩
  · rintro ⟨hlimit, h⟩ name hname
    exact ⟨hlimit, h name hname⟩

end Arguments

theorem runCommandLine_of_parse {arguments : List String} {defaultBase : Option String} {a : Arguments}
    (h : Arguments.parse arguments defaultBase = .ok (.run a)) (asked : Option Thresholds) (files : Files) :
    runCommandLine arguments defaultBase asked files = a.run asked files := by
  rw [runCommandLine, h]

/-- A run over many files prints and logs what command lines for each of them alone would, in their order, and
there are such command lines. A file that can be had is listed as a whole and any other not at all; the run
succeeds if all can be had and none that is taken as a load file has a malformed header where it is loaded. -/
theorem run_files_alone {arguments : List String} {defaultBase : Option String} {a : Arguments}
    (h : Arguments.parse arguments defaultBase = .ok (.run a)) (asked : Option Thresholds) (files : Files) :
    let whole := runCommandLine arguments defaultBase asked files
    (∃ single : String → List String, ∀ name ∈ a.files,
      Arguments.parse (single name) defaultBase = .ok (.run { a with files := [name] })) ∧
    (∀ single : String → List String,
      (∀ name ∈ a.files, Arguments.parse (single name) defaultBase = .ok (.run { a with files := [name] })) →
      let alone name := runCommandLine (single name) defaultBase asked files
      whole.stdout = String.join (a.files.map fun name => (alone name).stdout) ∧
        whole.log = (a.files.flatMap fun name => (alone name).log) ∧
        whole.stderr = String.join (a.files.map fun name => (alone name).stderr) ∧
        ∀ name ∈ a.files,
          (∀ bytes, files name = .ok bytes → a.maxSegments ≠ some 0 →
            (alone name).stdout = a.style.listing name (Disassembly.ofBytes a.options bytes)) ∧
          ((a.maxSegments = some 0 ∨ ∃ text, files name = .error text) → (alone name).stdout = "")) ∧
    (whole.exit = 0 ↔ a.maxSegments ≠ some 0 ∧ ∀ name ∈ a.files, ∃ bytes, files name = .ok bytes ∧
      (a.raw = false → (Report.ofLoadFile a.maxSegments bytes).error = none)) ∧
    (whole.exit = 0 ∨ whole.exit = 1) := by
  intro whole
  have hproper := Arguments.proper_of_parse h
  have hwhole : whole = a.run asked files := runCommandLine_of_parse h asked files
  rw [hwhole]
  refine ⟨⟨fun name => (a.alone name).words, fun name hname => ?_⟩, fun single hsingle => ?_,
    Arguments.exit_run_eq_zero_iff hproper.files, Arguments.exit_run⟩
  · exact Arguments.parse_words (hproper.alone hname) defaultBase
  · intro alone
    have halone : ∀ name ∈ a.files, alone name = (a.alone name).run asked files :=
      fun name hname => runCommandLine_of_parse (hsingle name hname) asked files
    have hparts : ∀ {β : Type} (part : Outcome → β), a.files.map (fun name => part (alone name)) =
        a.files.map fun name => part ((a.alone name).run asked files) :=
      fun part => List.map_congr_left fun name hname => congrArg part (halone name hname)
    refine ⟨?stdout, ?log, ?stderr, fun name hname => ?file⟩
    case stdout => rw [Arguments.stdout_run_eq_join, hparts]
    case log => rw [Arguments.log_run_eq_flatMap, List.flatMap_def, List.flatMap_def, hparts]
    case stderr => rw [Arguments.stderr_run_eq_join, hparts]
    case file =>
      rw [halone name hname]
      exact ⟨fun bytes hbytes hlimit => Arguments.stdout_alone_of_ok hlimit hbytes,
        Arguments.stdout_alone_of_error⟩

/-- A file that is gone stands between a file in order and one with a malformed header: both are listed. -/
theorem run_files_alone_gone :
    let arguments := ["good", "-f", "short", "gone", "bad"]
    let files : Files := fun name =>
      if name = "good" then .ok [0x00, 0x10, 0x00, 0x10, 0xEA]
      else if name = "bad" then .ok [0x00, 0x10, 0x00, 0x10, 0xEA, 0x00, 0x20, 0x09, 0x20, 0x01]
      else .error "gone"
    let whole := runCommandLine arguments none none files
    let alone name := runCommandLine ["-fshort", name] none none files
    Arguments.parse arguments none =
        .ok (.run ⟨["good", "gone", "bad"], .short, false, 0, none, false, false, false⟩) ∧
      whole.stdout = String.join [(alone "good").stdout, "", (alone "bad").stdout] ∧
      (alone "bad").stdout = (Style.short false).listing "bad" (Disassembly.ofBytes .summary
        [0x00, 0x10, 0x00, 0x10, 0xEA, 0x00, 0x20, 0x09, 0x20, 0x01]) ∧
      whole.exit = 1 := by
  intro arguments files whole alone
  obtain ⟨-, halone, hexit, hends⟩ := run_files_alone
    (show Arguments.parse arguments none =
      .ok (.run ⟨["good", "gone", "bad"], .short, false, 0, none, false, false, false⟩) from rfl) none files
  have hsingle : ∀ name ∈ ["good", "gone", "bad"], Arguments.parse ["-fshort", name] none =
      .ok (.run ⟨[name], .short, false, 0, none, false, false, false⟩) := by
    simp only [List.forall_mem_cons]
    exact ⟨rfl, rfl, rfl, nofun⟩
  obtain ⟨hstdout, -, -, hfile⟩ := halone (fun name => ["-fshort", name]) hsingle
  have hgone : (alone "gone").stdout = "" := (hfile "gone" (by decide)).2 (.inr ⟨"gone", rfl⟩)
  have hbad := (hfile "bad" (by decide)).1 _ rfl (by decide)
  refine ⟨rfl, ?_, hbad, hends.resolve_left fun hzero => ?_⟩
  · rw [← hgone]
    exact hstdout
  · obtain ⟨bytes, hbytes, -⟩ := (hexit.mp hzero).2 "gone" (by decide)
    cases hbytes

end Disasm6502
