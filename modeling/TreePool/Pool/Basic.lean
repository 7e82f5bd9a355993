import TreePool.Gate.Basic
import TreePool.GatedQueue
import TreePool.Pool.Notice
import TreePool.Ranges

/-! # Worker pools

A pool is a fixed number of workers that share one task queue, and the threads around them: the
owner, who builds the pool and destroys it, and callers, who submit tasks or wait for the pool to
be idle. The state says of each thread which step it takes next, and keeps what has become of
every task.
-/

namespace TreePool

/-- The next step of a worker. -/
inductive Phase (ε : Type) where
  /-- Its thread runs; it has yet to count itself as alive. -/
  | spawned
  /-- Counted; has yet to tell the owner so. -/
  | counted
  /-- Has yet to log that it started. -/
  | greeting
  /-- Reads the shutdown flag before it goes to the gate. -/
  | looping
  | atGate (stance : Stance)
  /-- Got through the gate; reads the shutdown flag once more. -/
  | passed
  /-- Has yet to count itself as working. -/
  | entering
  | pulling
  | running (ticket : Ticket) (body : Body ε)
  /-- Inside a body; saw the shutdown flag unset and pushes a task. -/
  | pushing (ticket : Ticket) (task : Task ε) (next : Body ε)
  /-- Caught a panic; has yet to log it. -/
  | caught (ticket : Ticket) (cause : Cause)
  /-- Logged a panic; has yet to mark the outcome and to drop what the body panicked with. -/
  | failing (ticket : Ticket) (cause : Cause)
  /-- Has yet to count itself as no longer working. -/
  | resting
  /-- Left the loop; has yet to count itself as no longer alive. -/
  | leaving
  /-- Has yet to log that it stopped. -/
  | parting
  | ended
  /-- The thread ended by a panic, after the worker had counted itself out. -/
  | crashed
  /-- The thread ended by a panic in the middle of the loop: nobody counts the worker out. -/
  | lost
deriving DecidableEq, Repr

namespace Phase

variable {ε : Type}

def isAsleep : Phase ε → Bool
  | .atGate .asleep => true
  | _ => false

def rouse : Phase ε → Phase ε
  | .atGate .asleep => .atGate .awake
  | phase => phase

/-- Whether the worker has told the owner that it is alive. -/
def hasReported : Phase ε → Bool
  | .spawned | .counted => false
  | _ => true

def isOver : Phase ε → Bool
  | .ended | .crashed | .lost => true
  | _ => false

def isLost : Phase ε → Bool
  | .lost => true
  | _ => false

def isAlive : Phase ε → Bool
  | .spawned | .parting | .ended | .crashed => false
  | _ => true

def isWorking : Phase ε → Bool
  | .pulling | .running _ _ | .pushing _ _ _ | .caught _ _ | .failing _ _ | .resting | .lost => true
  | _ => false

def current? : Phase ε → Option Ticket
  | .running ticket _ | .pushing ticket _ _ => some ticket
  | _ => none

end Phase

/-- The next step of the owner. -/
inductive Owner where
  | spawning
  /-- Waits until every worker has counted itself. -/
  | gathering
  | announcing
  /-- The pool is in use. -/
  | idle
  /-- Has yet to log that a worker could not be spawned. -/
  | lamenting
  /-- Raises the shutdown flag. -/
  | raising
  /-- Looks whether a worker is alive, and signals all of them if so. -/
  | watching
  /-- Sleeps until a worker leaves or a while is over. -/
  | sleeping (notified : Bool)
  | joining (worker : Nat)
  | clearing
  /-- Has yet to log that the pool is destroyed. -/
  | closing
  | closed
  /-- Got no further, as the destructor of a queued task panicked. -/
  | unwound
deriving DecidableEq, Repr

/-- Whether the pool has been destroyed, be it that the owner was cut off. -/
def Owner.isDone : Owner → Bool
  | .closed | .unwound => true
  | _ => false

/-- What a caller got. -/
inductive Reply where
  | accepted (ticket : Ticket)
  | refused (ticket : Ticket)
  /-- The pool was idle. -/
  | drained
deriving DecidableEq, Repr

/-- The next step of a caller. -/
inductive Caller (ε : Type) where
  /-- Reads the shutdown flag. -/
  | offering (task : Task ε)
  | pushing (task : Task ε)
  /-- Looks whether the pool is idle. -/
  | checking
  | sleeping (notified : Bool)
  | finished (reply : Reply)
deriving DecidableEq, Repr

namespace Caller

variable {ε : Type}

def isFinished : Caller ε → Bool
  | .finished _ => true
  | _ => false

def notify : Caller ε → Caller ε
  | .sleeping _ => .sleeping true
  | caller => caller

end Caller

structure Pool (ε : Type) where
  size : Nat
  /-- Whether the logger panics on the record that a worker stopped. -/
  fragile : Bool
  queue : GatedQueue (Task ε) := .empty
  alive : Nat := 0
  working : Nat := 0
  shutdown : Bool := false
  /-- Whether no failure has been marked. -/
  outcome : Bool := true
  workers : List (Phase ε) := []
  owner : Owner := .spawning
  /-- Why the pool could not be built. -/
  failure : Option IoError := none
  /-- Whether the owner has complained about busy workers. -/
  warned : Bool := false
  callers : List (Caller ε) := []
  /-- The number of tasks offered, which is the next ticket. -/
  offered : Nat := 0
  accepted : List Ticket := []
  refused : List Ticket := []
  pulled : List Ticket := []
  finished : List (Ticket × Ending) := []
  /-- Tasks that were thrown away unrun when the pool was destroyed. -/
  dropped : List Ticket := []
  log : List Notice := []

namespace Pool

variable {ε : Type}

def sizeOfInt (size : Int) : Except Error Nat :=
  if size < 1 then .error (.invalidSize size) else .ok size.toNat

/-- The size of a pool that is asked for as a word of 64 bits; one that is too large for a signed
number is refused as what its bits stand for in a signed word. -/
def sizeOfWord (size : Nat) : Except Error Nat :=
  if size ≤ int32Max then sizeOfInt size
  else .error (.invalidSize (Int.bmod size wordCount))

/-- A pool whose workers are still to be spawned. -/
def start (size : Nat) (fragile : Bool) : Pool ε := { size, fragile }

def move (pool : Pool ε) (worker : Nat) (phase : Phase ε) : Pool ε :=
  { pool with workers := pool.workers.set worker phase }

def note (pool : Pool ε) (notice : Notice) : Pool ε := { pool with log := pool.log ++ [notice] }

def fail (pool : Pool ε) : Pool ε := { pool with outcome := false }

/-- Wakes one worker that sleeps at the gate, if there is one: the choice names it. -/
def signalOne? (pool : Pool ε) : Option Nat → Option (Pool ε)
  | none => if pool.workers.any Phase.isAsleep then none else some pool
  | some worker =>
    match pool.workers[worker]? with
    | some (.atGate .asleep) => some (pool.move worker (.atGate .awake))
    | _ => none

/-- Wakes every worker that sleeps at the gate. -/
def signalAll (pool : Pool ε) : Pool ε :=
  { pool with workers := pool.workers.map Phase.rouse }

def signalIdle (pool : Pool ε) : Pool ε :=
  { pool with callers := pool.callers.map Caller.notify }

def signalExit (pool : Pool ε) : Pool ε :=
  match pool.owner with
  | .sleeping _ => { pool with owner := .sleeping true }
  | _ => pool

def push (pool : Pool ε) (task : Task ε) : Pool ε :=
  { pool with
    queue := pool.queue.push task
    accepted := pool.accepted ++ [task.ticket] }

def offer (pool : Pool ε) (body : Body ε) : Pool ε × Task ε :=
  ({ pool with offered := pool.offered + 1 }, ⟨pool.offered, body⟩)

def refuse (pool : Pool ε) (task : Task ε) : Pool ε :=
  { pool with refused := pool.refused ++ [task.ticket] }

def isIdle (pool : Pool ε) : Bool := pool.queue.isEmpty && pool.working == 0

/-- The number of workers whose threads are over and that still count. -/
def lost (pool : Pool ε) : Nat := pool.workers.countP Phase.isLost

/-- The number of tasks that were offered and will never run. -/
def discarded (pool : Pool ε) : Nat := pool.refused.length + pool.dropped.length

def isQuiet (pool : Pool ε) : Bool := pool.callers.all Caller.isFinished

end Pool

end TreePool
