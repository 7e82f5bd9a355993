import TreePool.CommandLine.Run
import TreePool.Proofs.CommandLine.Flag
import TreePool.Proofs.Errand.Report
import TreePool.Proofs.Json.Compact

/-! # Runs that report

A run that reports does what a plain one does, and prints a line for each errand before the summary.
But a report can only be written when all paths in it are text. At the first errand with a path that
is not, the run ends with an error, and there is no summary: `run_verbose`.
-/

namespace TreePool

def Errand.isText (errand : Errand) : Bool := errand.report.paths.all Path.isText

namespace CommandLine

variable {files : FileSystem} {options : Options} {units : Option Nat} {arguments : List Bytes}
variable {errands told : List Errand} {errand : Errand}

/-- The errands that a run can tell of, in the order of the walk; there are none when it ends before
everything is copied. -/
def errandsOf (units : Option Nat) (files : FileSystem) (options : Options) : List Errand :=
  match options.workerCount units files with
  | .error _ => []
  | .ok workers =>
    let copied := copy files workers options.source options.destination
    match copied.result with
    | .error _ => []
    | .ok ids => copied.shop.errandsAt ids

def IsReportLine (errand : Errand) (line : List Char) : Prop :=
  ∃ value, errand.report.toJson = .ok value ∧ line = value.compact ++ ['\n'] ∧
    '\n' ∉ value.compact

/-! ## Lines -/

theorem exists_isReportLine (h : errand.isText) : ∃ line, IsReportLine errand line := by
  obtain ⟨value, hvalue⟩ :=
    errand.report.writes_toJson.exists_iff.mpr (List.all_eq_true.mp h)
  exact ⟨_, value, hvalue, rfl, value.newline_not_mem_compact⟩

theorem reportLines_append (h : ∀ errand ∈ told, errand.isText) (rest : List Errand) :
    ∃ lines, List.Forall₂ IsReportLine told lines ∧
      reportLines (told ++ rest) =
        (lines.flatten ++ (reportLines rest).1, (reportLines rest).2) := by
  induction told with
  | nil => exact ⟨[], .nil, rfl⟩
  | cons errand told ih =>
    obtain ⟨line, hline⟩ := exists_isReportLine (h errand List.mem_cons_self)
    obtain ⟨lines, hlines, hrest⟩ := ih fun other hm => h other (List.mem_cons_of_mem _ hm)
    refine ⟨line :: lines, .cons hline hlines, ?_⟩
    obtain ⟨value, hvalue, rfl, -⟩ := hline
    simp [reportLines, hvalue, hrest]

/-- An errand that cannot be reported is the last one to be tried. -/
theorem reportLines_cons_of_not (h : errand.isText = false) (rest : List Errand) :
    reportLines (errand :: rest) = ([], some .pathNotText) := by
  have herror : errand.report.toJson = .error .pathNotText :=
    errand.report.writes_toJson.eq_error (by simpa [Errand.isText] using h)
  simp only [reportLines, herror]

/-! ## Summaries -/

/-- What the flag for reports makes of a plain run with these errands. -/
structure Reported (plain verbose : Conclusion) (errands : List Errand) : Prop where
  /-- The files are left the same. -/
  files : verbose.files = plain.files
  /-- When all paths are text, each errand has its line, and nothing else changes. -/
  all : (∀ errand ∈ errands, errand.isText) → ∃ lines, List.Forall₂ IsReportLine errands lines ∧
    verbose = { plain with output := lines.flatten ++ plain.output }
  /-- The first errand with a path that is no text ends the run. -/
  cut : ∀ told errand untold, errands = told ++ errand :: untold →
    (∀ errand ∈ told, errand.isText) → errand.isText = false →
    ∃ lines log more, List.Forall₂ IsReportLine told lines ∧
      plain.log = log ++ more ∧ more.length ≤ 1 ∧
      verbose =
        { files := plain.files, output := lines.flatten,
          log := log ++ [⟨.error, Error.pathNotText.message⟩], code := 1 }

theorem Reported.refl (run : Conclusion) : Reported run run [] := by
  refine ⟨rfl, fun _ => ⟨[], .nil, rfl⟩, ?_⟩
  intro told errand untold h
  exact absurd h (by simp)

/-- A plain summary adds a line to the log at most, and what it prints and decides does not depend
on what was printed before. -/
theorem exists_summarize_eq (run : Conclusion) (errands : List Errand) (outcome : Bool) :
    ∃ more output code, more.length ≤ 1 ∧ ∀ start : List Char,
      summarize { run with output := start } errands outcome false =
        { files := run.files, output := start ++ output, log := run.log ++ more, code } := by
  cases hvalue : (Summary.collect errands).toJson with
  | error e =>
    refine ⟨[⟨.error, e.message⟩], [], 1, Nat.le_refl 1, fun start => ?_⟩
    simp [summarize, hvalue, Conclusion.abort]
  | ok value =>
    cases hs : (Summary.collect errands).isSuccess with
    | true =>
      refine ⟨[], value.pretty ++ ['\n'], if outcome then 0 else 1, Nat.zero_le 1, fun start => ?_⟩
      simp [summarize, hvalue, hs]
    | false =>
      let warning : LogLine := .withFields .warning "some files were not copied"
        [("failed", toString (Summary.collect errands).failed.length)]
      refine ⟨[warning], value.pretty ++ ['\n'], 1, Nat.le_refl 1, fun start => ?_⟩
      simp [summarize, hvalue, hs, warning]

theorem files_summarize (run : Conclusion) (errands : List Errand) (outcome verbose : Bool) :
    (summarize run errands outcome verbose).files = run.files := by
  unfold summarize
  rcases (if verbose then reportLines errands else ([], none)) with ⟨lines, _ | e⟩
  · cases hvalue : (Summary.collect errands).toJson <;> simp [hvalue, Conclusion.abort]
  · rfl

theorem summarize_verbose {lines : List Char} (hlines : reportLines errands = (lines, none))
    (run : Conclusion) : summarize run errands outcome true =
      summarize { run with output := run.output ++ lines } errands outcome false := by
  simp only [summarize, hlines, if_true, Bool.false_eq_true, if_false, List.append_nil]

theorem reported_summarize (run : Conclusion) (ho : run.output = []) (errands : List Errand)
    (outcome : Bool) :
    Reported (summarize run errands outcome false) (summarize run errands outcome true)
      errands := by
  obtain ⟨more, output, code, hmore, hplain⟩ := exists_summarize_eq run errands outcome
  have hstart := hplain []
  rw [← ho] at hstart
  change summarize run errands outcome false = _ at hstart
  refine ⟨?_, ?_, ?_⟩
  · rw [files_summarize, files_summarize]
  · intro htext
    obtain ⟨lines, hlines, hreport⟩ := reportLines_append htext []
    rw [List.append_nil, reportLines, List.append_nil] at hreport
    refine ⟨lines, hlines, ?_⟩
    rw [summarize_verbose hreport, hplain, hstart, ho]
    rfl
  · intro told errand untold herrands htold herrand
    obtain ⟨lines, hlines, hreport⟩ := reportLines_append htold (errand :: untold)
    rw [← herrands, reportLines_cons_of_not herrand, List.append_nil] at hreport
    refine ⟨lines, run.log, more, hlines, ?_, hmore, ?_⟩
    · rw [hstart]
    · rw [hstart]
      simp [summarize, hreport, ho, Conclusion.abort]

/-! ## Runs -/

theorem reported_execute (units : Option Nat) (files : FileSystem) (options : Options) :
    Reported (execute units files { options with verbose := false })
      (execute units files { options with verbose := true })
      (errandsOf units files options) := by
  have hcount (verbose : Bool) :
      ({ options with verbose } : Options).workerCount units files =
        options.workerCount units files := rfl
  unfold execute errandsOf
  simp only [hcount]
  cases options.workerCount units files with
  | error e => exact .refl _
  | ok workers =>
    dsimp only
    cases (copy files workers options.source options.destination).result with
    | error e => exact .refl _
    | ok ids => exact reported_summarize _ rfl _ _

/-- What the flag for reports makes of a run that is carried out. -/
theorem run_verbose (hp : Options.parse arguments = .ok options) (hv : options.verbose = false) :
    Reported (run units files arguments) (run units files (Options.verboseFlag :: arguments))
      (errandsOf units files options) := by
  have hplain : run units files arguments =
      execute units files { options with verbose := false } := by
    simp only [run, hp]
    rw [← hv]
  have hverbose : run units files (Options.verboseFlag :: arguments) =
      execute units files { options with verbose := true } := by
    simp only [run, Options.parse_verboseFlag hp hv]
  rw [hplain, hverbose]
  exact reported_execute units files options

/-- A directory with two files, and the name of one of them is no text. -/
def unspeakable : FileSystem where
  entries := [(Bytes.ofString "a", .directory
    [(Bytes.ofString "x", .file (Bytes.ofString "1")), ([0xff], .file (Bytes.ofString "2"))])]
  home := []

theorem run_verbose_unspeakable :
    let arguments := ["a", "b", "-w", "0"].map Bytes.ofString
    ∃ options, Options.parse arguments = .ok options ∧ options.verbose = false ∧
      (errandsOf (some 1) unspeakable options).map Errand.isText = [true, false] ∧
      Reported (run (some 1) unspeakable arguments)
        (run (some 1) unspeakable (Options.verboseFlag :: arguments))
        (errandsOf (some 1) unspeakable options) := by
  intro arguments
  let options : Options :=
    { source := .ofString "a", destination := .ofString "b", workers := some 0 }
  have hparse : Options.parse arguments = .ok options := by decide +kernel
  exact ⟨options, hparse, rfl, by decide +kernel, run_verbose hparse rfl⟩

/-- The flag for reports turns a run that copies everything into one that fails with no summary. -/
theorem verbose_loses_summary :
    let arguments := ["a", "b", "-w", "0"].map Bytes.ofString
    let plain := run (some 1) unspeakable arguments
    let verbose := run (some 1) unspeakable (Options.verboseFlag :: arguments)
    plain.code = 0 ∧ verbose.code = 1 ∧
      plain.log.map LogLine.level = [.info] ∧ verbose.log.map LogLine.level = [.info, .error] ∧
      plain.output ≠ [] ∧ ¬ plain.output <:+ verbose.output := by
  intro arguments plain verbose
  have hplain : plain.code = 0 ∧ plain.log.map LogLine.level = [.info] := by decide +kernel
  have hverbose : verbose.code = 1 ∧ verbose.log.map LogLine.level = [.info, .error] := by
    decide +kernel
  have houtput : plain.output ≠ [] ∧ ¬ plain.output <:+ verbose.output := by decide +kernel
  exact ⟨hplain.1, hverbose.1, hplain.2, hverbose.2, houtput⟩

end CommandLine
end TreePool
