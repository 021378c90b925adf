import Disasm6502.CommandLine.Run

/-!
# What a run prints

A run prints the listings of the files that can be had, in the order in which they are named. Going from file to
file with a note of the success so far comes to the run as a whole, in any monad.
-/
namespace Disasm6502

/-- What a file is disassembled into; nothing, if it cannot be had. -/
def Arguments.disassembly? (a : Arguments) (files : Files) (name : String) : Option Disassembly :=
  (Disassembly.ofInput a.options (files name)).toOption

/-- The files that are listed, with what they are disassembled into. -/
def Arguments.listed (a : Arguments) (files : Files) : List (String × Disassembly) :=
  a.files.filterMap fun name => (a.disassembly? files name).map fun d => (name, d)

theorem Arguments.disassembly?_eq_some_iff {a : Arguments} {files : Files} {name : String} {d : Disassembly} :
    a.disassembly? files name = some d ↔ a.maxSegments ≠ some 0 ∧
      ∃ bytes, files name = .ok bytes ∧ Disassembly.ofBytes a.options bytes = d := by
  have hlimit : a.options.limit = a.maxSegments := rfl
  unfold disassembly? Disassembly.ofInput Options.accept Options.fault?
  rw [hlimit]
  by_cases h : a.maxSegments = some 0
  · simp [h, Except.map, Except.toOption]
  · cases files name <;> simp [h, Except.map, Except.toOption]

namespace FileOutcome

theorem listing_ofFile (a : Arguments) (thresholds : Thresholds) (files : Files) (name : String) :
    (ofFile a thresholds files name).listing =
      ((a.disassembly? files name).map (a.style.listing name)).getD "" := by
  unfold ofFile ofInput Arguments.disassembly? Disassembly.ofInput
  cases a.options.accept (files name) <;> rfl

theorem complete_ofFile (a : Arguments) (thresholds : Thresholds) (files : Files) (name : String) :
    (ofFile a thresholds files name).complete = (a.disassembly? files name).any Disassembly.isComplete := by
  unfold ofFile ofInput Arguments.disassembly? Disassembly.ofInput
  cases a.options.accept (files name) <;> rfl

end FileOutcome

theorem Arguments.stdout_run (a : Arguments) (asked : Option Thresholds) (files : Files) :
    (a.run asked files).stdout = String.join ((a.listed files).map fun (name, d) => a.style.listing name d) := by
  have hrun : (a.run asked files).stdout =
      String.join (a.files.map fun name => ((a.disassembly? files name).map (a.style.listing name)).getD "") := by
    simp [run, Outcome.ofFiles, Function.comp_def, FileOutcome.listing_ofFile]
  rw [hrun, listed]
  induction a.files with
  | nil => rfl
  | cons name names ih =>
    rw [List.map_cons, String.join_cons, ih]
    cases h : a.disassembly? files name <;> simp [h]

/-- From any file on: the rest is handed over in its order, and success stays where all of the rest succeed. -/
theorem FileOutcome.foldlM_print {m : Type → Type} [Monad m] [LawfulMonad m] (a : Arguments)
    (thresholds : Thresholds) (files : Files) (print : FileOutcome → m Unit) (success : Bool) (names : List String) :
    names.foldlM (fun success name => do
        print (ofFile a thresholds files name)
        return success && (ofFile a thresholds files name).complete) success = do
      forM (names.map (ofFile a thresholds files)) print
      return success && (names.map (ofFile a thresholds files)).all complete := by
  induction names generalizing success with
  | nil => simp
  | cons name names ih =>
    simp only [List.foldlM_cons, bind_assoc, pure_bind, ih, List.map_cons, List.forM_cons, List.all_cons,
      Bool.and_assoc]

theorem Arguments.runM_eq {m : Type → Type} [Monad m] [LawfulMonad m] (a : Arguments) (asked : Option Thresholds)
    (files : Files) (print : FileOutcome → m Unit) :
    a.runM asked (fun name => pure (files name)) print = do
      forM (a.files.map (FileOutcome.ofFile a (a.thresholds asked) files)) print
      return (a.run asked files).exit := by
  have hfold := FileOutcome.foldlM_print a (a.thresholds asked) files print true a.files
  simp only [runM, pure_bind]
  refine (congrArg (· >>= _) hfold).trans ?_
  simp only [bind_assoc, pure_bind, Bool.true_and]
  rfl

/-- What is handed over from file to file adds up to what the run leaves behind. -/
theorem Arguments.ofFiles_runM (a : Arguments) (asked : Option Thresholds) (files : Files) :
    let run : StateM (List FileOutcome) Nat :=
      a.runM asked (fun name => pure (files name)) fun outcome => modify (· ++ [outcome])
    (run.run []).1 = (a.run asked files).exit ∧ Outcome.ofFiles (run.run []).2 = a.run asked files := by
  intro run
  have hgather : ∀ outcomes done : List FileOutcome,
      (forM outcomes fun outcome => modify (· ++ [outcome]) : StateM (List FileOutcome) Unit).run done =
        ((), done ++ outcomes) := by
    intro outcomes
    induction outcomes with
    | nil =>
      intro done
      simp
      rfl
    | cons outcome outcomes ih =>
      intro done
      rw [List.forM_cons, StateT.run_bind]
      exact (ih (done ++ [outcome])).trans (by rw [List.append_assoc, List.singleton_append])
  have hrun : run.run [] = ((a.run asked files).exit, a.files.map (FileOutcome.ofFile a (a.thresholds asked) files)) := by
    simp only [run, runM_eq, StateT.run_bind, hgather]
    rfl
  rw [hrun]
  exact ⟨rfl, rfl⟩

end Disasm6502
