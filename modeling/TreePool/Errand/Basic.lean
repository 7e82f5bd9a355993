import TreePool.Error

/-! # Errands

An errand describes one file operation for a worker: its paths are fixed when it is made, and the
body of the task records what happens. What is recorded comes down to single writes, each of which
happens at one moment; a failure is several of them.
-/

namespace TreePool

abbrev OutcomeId := Nat

abbrev ErrandId := Nat

/-- Something that is recorded on an errand. -/
inductive Record where
  | success
  | failure (path : Path)
  | entry (path : Path)
deriving DecidableEq, Repr

/-- A write that happens at one moment. -/
inductive Write where
  | verdict (success : Bool)
  | failed (path : Path)
  | entry (path : Path)
  /-- Marks the outcome that the errand is bound to. -/
  | outcome
deriving DecidableEq, Repr

/-- The writes of a record, in the order in which they happen. -/
def Record.writes : Record → List Write
  | .success => [.verdict true]
  | .failure path => [.verdict false, .failed path, .outcome]
  | .entry path => [.entry path]

def Record.isFailure : Record → Bool
  | .failure _ => true
  | _ => false

structure Errand where
  directory : Path
  source : Path
  destination : Path
  level : Int
  /-- The outcome that a failure marks. -/
  outcome : Option OutcomeId := none
  success : Bool := false
  failed : List Path := []
  all : List Path := []
deriving DecidableEq, Repr

namespace Errand

/-- A path of this many bytes is too long for an errand. -/
def pathLimit : Nat := 1024

def checkLength (field : PathField) (path : Path) : Except Error Unit :=
  if pathLimit ≤ path.length then .error (.pathTooLong field path.length (pathLimit - 1))
  else .ok ()

/-- A new errand without results, unless one of its paths is too long. -/
def make (directory source destination : Path) (level : Int) (outcome : Option OutcomeId) :
    Except Error Errand := do
  checkLength .directory directory
  checkLength .source source
  checkLength .destination destination
  .ok { directory, source, destination, level, outcome }

/-- What a write does to the errand itself. -/
def write (errand : Errand) : Write → Errand
  | .verdict success => { errand with success }
  | .failed path => { errand with failed := errand.failed ++ [path] }
  | .entry path => { errand with all := errand.all ++ [path] }
  | .outcome => errand

def record (errand : Errand) (record : Record) : Errand :=
  record.writes.foldl write errand

@[simp] theorem record_success (errand : Errand) :
    errand.record .success = { errand with success := true } := rfl

@[simp] theorem record_failure (errand : Errand) (path : Path) :
    errand.record (.failure path) =
      { errand with success := false, failed := errand.failed ++ [path] } := rfl

@[simp] theorem record_entry (errand : Errand) (path : Path) :
    errand.record (.entry path) = { errand with all := errand.all ++ [path] } := rfl

/-- The outcome that recording something on the errand marks. -/
def marks (errand : Errand) (record : Record) : Option OutcomeId :=
  if record.isFailure then errand.outcome else none

end Errand

end TreePool
