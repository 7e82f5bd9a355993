import TreePool.Errand.Basic
import TreePool.Json.Value

/-! # Reports and summaries

A report is a copy of an errand's fields at one moment, and a summary adds up a batch of errands.
Both are written as JSON, which is possible when all paths in them are text.
-/

namespace TreePool

structure Report where
  directory : Path
  source : Path
  destination : Path
  level : Int
  success : Bool
  failed : List Path
  all : List Path
deriving DecidableEq, Repr

def Errand.report (errand : Errand) : Report where
  directory := errand.directory
  source := errand.source
  destination := errand.destination
  level := errand.level
  success := errand.success
  failed := errand.failed
  all := errand.all

structure Summary where
  total : Nat := 0
  succeeded : Nat := 0
  failed : List Path := []
deriving DecidableEq, Repr

namespace Summary

def add (summary : Summary) (errand : Errand) : Summary :=
  { total := summary.total + 1
    succeeded := summary.succeeded + if errand.success then 1 else 0
    failed := summary.failed ++ errand.failed }

def collect (errands : List Errand) : Summary := errands.foldl add {}

/-- All errands succeeded, and none recorded a failure. -/
def isSuccess (summary : Summary) : Bool :=
  summary.failed.isEmpty && summary.succeeded == summary.total

end Summary

def Path.toJson (path : Path) : Except Error Json.Value :=
  match path.text? with
  | some text => .ok (.string text)
  | none => .error .pathNotText

def Path.listToJson (paths : List Path) : Except Error Json.Value :=
  (paths.mapM Path.toJson).map .list

def Report.toJson (report : Report) : Except Error Json.Value := do
  let directory ← report.directory.toJson
  let source ← report.source.toJson
  let destination ← report.destination.toJson
  let failed ← Path.listToJson report.failed
  let all ← Path.listToJson report.all
  .ok (.object [("directory", directory), ("from", source), ("to", destination),
    ("level", .integer report.level), ("success", .boolean report.success), ("failed", failed),
    ("all", all)])

def Summary.toJson (summary : Summary) : Except Error Json.Value := do
  let failed ← Path.listToJson summary.failed
  .ok (.object [("total", .integer summary.total), ("succeeded", .integer summary.succeeded),
    ("failed", failed)])

end TreePool
