import TreePool.IoError
import TreePool.Pool.Task

/-! # What a pool logs

Each record has a level, a message and fields, all of which are written as text.
-/

namespace TreePool

inductive LogLevel where
  | debug
  | info
  | warning
  | error
deriving DecidableEq, Repr

inductive Notice where
  | workerStarted (worker : Nat)
  | workerStopped (worker : Nat)
  | taskPanicked (worker : Nat) (cause : Cause)
  | cannotSpawn (worker : Nat) (error : IoError)
  | poolReady (size : Nat)
  | stillBusy (alive working : Nat)
  | workerPanicked (worker : Nat)
  | poolDestroyed (size : Nat)
deriving DecidableEq, Repr

namespace Notice

def level : Notice → LogLevel
  | .workerStarted _ | .workerStopped _ => .debug
  | .poolReady _ | .poolDestroyed _ => .info
  | .stillBusy _ _ => .warning
  | .taskPanicked _ _ | .cannotSpawn _ _ | .workerPanicked _ => .error

def message : Notice → String
  | .workerStarted _ => "worker started"
  | .workerStopped _ => "worker stopped"
  | .taskPanicked _ _ => "task panicked"
  | .cannotSpawn _ _ => "unable to spawn worker"
  | .poolReady _ => "worker pool ready"
  | .stillBusy _ _ => "workers still busy after grace period"
  | .workerPanicked _ => "worker thread panicked"
  | .poolDestroyed _ => "worker pool destroyed"

/-- The fields of a record and their texts, the last one given first. -/
def fields : Notice → List (String × String)
  | .workerStarted worker | .workerStopped worker | .workerPanicked worker =>
    [("worker", toString worker)]
  | .taskPanicked worker cause => [("cause", cause.message), ("worker", toString worker)]
  | .cannotSpawn worker error => [("error", error.message), ("worker", toString worker)]
  | .poolReady size | .poolDestroyed size => [("workers", toString size)]
  | .stillBusy alive working => [("working", toString working), ("alive", toString alive)]

end Notice

end TreePool
