import TreePool.CommandLine.Options
import TreePool.Settings.Reader
import TreePool.Errand.Report
import TreePool.Tree.Copy

/-! # A run of the command line

A run copies one tree, on a pool or without one, and prints a summary. It concludes with an exit
code: zero when every file was copied, two when the command line makes no sense, and one otherwise.
-/

namespace TreePool
namespace CommandLine

def version : String := "0.1.0"

structure LogLine where
  level : LogLevel
  text : String
deriving DecidableEq, Repr

/-- A log line with fields, the last one given first. -/
def LogLine.withFields (level : LogLevel) (message : String) (fields : List (String × String)) :
    LogLine :=
  ⟨level, fields.foldl (fun text field => text ++ ", " ++ field.1 ++ ": " ++ field.2) message⟩

def levelLabel : LogLevel → String
  | .debug => "DEBG"
  | .info => "INFO"
  | .warning => "WARN"
  | .error => "ERRO"

def LogLine.render (line : LogLine) : String := levelLabel line.level ++ " " ++ line.text

/-- How a run ends. -/
structure Conclusion where
  files : FileSystem
  output : List Char := []
  log : List LogLine := []
  code : Nat

end CommandLine

namespace Options

open CommandLine

/-- The number of workers: the one given, or else the one in the settings, or else as many as the
platform can run. -/
def workerCount (options : Options) (units : Option Nat) (files : FileSystem) :
    Except Error Int :=
  match options.workers, options.config with
  | some workers, _ => .ok (min workers (workerLimit units))
  | none, some path =>
    match Settings.load files path with
    | .ok settings => settings.workersFor units options.server
    | .error e => .error e
  | none, none => .ok (workerLimit units)

def startLine (options : Options) (workers : Int) : LogLine :=
  .withFields .info "tree-copy starting"
    [("workers", toString workers), ("to", String.ofList options.destination.display),
      ("from", String.ofList options.source.display), ("version", version)]

end Options

namespace CommandLine

/-- What a copy leaves behind: its errands or an error, and the outcome of its pool. -/
structure Copied where
  shop : Workshop
  result : Except Error (List ErrandId)
  outcome : Bool := true
  log : List LogLine := []

def poolLine (notice : Notice) : LogLine :=
  .withFields notice.level notice.message (notice.fields ++ [("pool", "copy")])

/-- Copies on a pool, waits for it and destroys it. -/
def copyPooled (shop : Workshop) (size : Nat) (source destination : Path) : Copied :=
  let pool := shop.pools.length
  let (shop, result) := Tree.copy (shop.build size false none) source destination (some pool)
  let shop := shop.wait pool
  let outcome := ((shop.pool? pool).map Pool.outcome).getD true
  let shop := shop.destroy pool [] false
  { shop, result, outcome
    log := (((shop.pool? pool).map Pool.log).getD []).map poolLine }

def copyInline (shop : Workshop) (source destination : Path) : Copied :=
  let (shop, result) := Tree.copy shop source destination none
  { shop, result }

def copy (files : FileSystem) (workers : Int) (source destination : Path) : Copied :=
  if 0 < workers then copyPooled { files } workers.toNat source destination
  else copyInline { files } source destination

/-- The lines that report errands, up to the first that cannot be written. -/
def reportLines : List Errand → List Char × Option Error
  | [] => ([], none)
  | errand :: rest =>
    match errand.report.toJson with
    | .error e => ([], some e)
    | .ok value =>
      let (lines, failure) := reportLines rest
      (value.compact ++ '\n' :: lines, failure)

def Conclusion.abort (run : Conclusion) (e : Error) : Conclusion :=
  { run with log := run.log ++ [⟨.error, e.message⟩], code := 1 }

/-- Prints the reports, if they are wanted, and the summary of a copy. -/
def summarize (run : Conclusion) (errands : List Errand) (outcome verbose : Bool) :
    Conclusion :=
  let (lines, failure) := if verbose then reportLines errands else ([], none)
  let run := { run with output := run.output ++ lines }
  match failure with
  | some e => run.abort e
  | none =>
    let summary := Summary.collect errands
    match summary.toJson with
    | .error e => run.abort e
    | .ok value =>
      let warning : List LogLine :=
        if summary.isSuccess then []
        else [.withFields .warning "some files were not copied"
          [("failed", toString summary.failed.length)]]
      { run with
        output := run.output ++ value.pretty ++ ['\n']
        log := run.log ++ warning
        code := if outcome && summary.isSuccess then 0 else 1 }

/-- Carries out what the options ask for. -/
def execute (units : Option Nat) (files : FileSystem) (options : Options) : Conclusion :=
  match options.workerCount units files with
  | .error e => { files, code := 1 : Conclusion }.abort e
  | .ok workers =>
    let copied := copy files workers options.source options.destination
    let run : Conclusion :=
      { files := copied.shop.files, log := options.startLine workers :: copied.log, code := 1 }
    match copied.result with
    | .error e => run.abort e
    | .ok ids => summarize run (copied.shop.errandsAt ids) copied.outcome options.verbose

/-- Runs the command line with its arguments on a file system. -/
def run (units : Option Nat) (files : FileSystem) (arguments : List Bytes) : Conclusion :=
  match Options.parse arguments with
  | .ok options => execute units files options
  | .error .version =>
    { files, output := ("tree-workers " ++ version ++ "\n").toList, code := 0 }
  | .error .help => { files, code := 0 }
  | .error .usage => { files, code := 2 }

end CommandLine
end TreePool
