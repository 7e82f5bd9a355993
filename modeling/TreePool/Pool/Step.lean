import TreePool.Pool.Basic

/-! # The steps of a pool

One step is what a thread does between taking a lock and giving it back, or one access to the
shutdown flag or to the outcome. `step?` answers the state after a step, and nothing when the
thread cannot take it now.

What a body panicked with is dropped where the panic was caught, and a task that never starts where
the queue is cleared. A destructor that panics there is caught by nobody. A task that is refused is
dropped by whoever offers it.

While the counters are locked neither of them changes. So looking at the queue and at a counter
under that lock is one step, taken when the queue is looked at, and so is looking at a counter and
going to sleep.
-/

namespace TreePool

/-- What a caller can ask for. -/
inductive Request (ε : Type) where
  | submit (body : Body ε)
  | wait
deriving DecidableEq, Repr

/-- A step, with all that the state leaves open: whom a signal wakes, what time it is, whether the
system can start a thread, and whether a task can be dropped that never ran. -/
inductive Action (ε : Type) where
  /-- The owner spawns the next worker, which may fail. -/
  | spawn (failure : Option IoError)
  /-- The owner takes any other step. -/
  | owner
  /-- The owner looks for workers alive, with the grace period over or not. -/
  | watch (late : Bool)
  /-- The owner has slept long enough. -/
  | expire
  /-- The owner drops the tasks in the queue, and the destructor of one of them panics. -/
  | unwind
  | worker (id : Nat) (woken : Option Nat)
  /-- A worker wakes at the gate for no reason. -/
  | stir (id : Nat)
  | call (request : Request ε)
  | caller (id : Nat) (woken : Option Nat)
  /-- A caller wakes for no reason. -/
  | stirCaller (id : Nat)
  | destroy
  /-- Somebody outside marks the outcome. -/
  | fail
deriving DecidableEq, Repr

namespace Pool

variable {ε : Type}

/-- The owner spawns a worker, or learns that it cannot. -/
def spawn? (pool : Pool ε) (failure : Option IoError) : Option (Pool ε) :=
  if pool.owner = .spawning ∧ pool.workers.length < pool.size then
    match failure with
    | none => some { pool with workers := pool.workers ++ [.spawned] }
    | some _ => some { pool with owner := .lamenting, failure }
  else none

def watch? (pool : Pool ε) (late : Bool) : Option (Pool ε) :=
  if pool.owner = .watching then
    if pool.alive = 0 then some { pool with owner := .joining 0 }
    else
      let pool := { pool with queue := pool.queue.post, owner := .sleeping false }.signalAll
      if late && !pool.warned then
        some ({ pool with warned := true }.note (.stillBusy pool.alive pool.working))
      else some pool
  else none

/-- The owner waits for a thread to be over. -/
def join? (pool : Pool ε) (worker : Nat) : Option (Pool ε) :=
  let next := { pool with owner := .joining (worker + 1) }
  match pool.workers[worker]? with
  | none => some { pool with owner := .clearing }
  | some .ended => some next
  | some .crashed | some .lost => some (next.note (.workerPanicked worker))
  | some _ => none

def owner? (pool : Pool ε) : Option (Pool ε) :=
  match pool.owner with
  | .spawning =>
    if pool.workers.length = pool.size then some { pool with owner := .gathering } else none
  | .gathering =>
    if pool.workers.all Phase.hasReported then some { pool with owner := .announcing } else none
  | .announcing => some ({ pool with owner := .idle }.note (.poolReady pool.size))
  | .lamenting =>
    pool.failure.map fun error =>
      { pool with owner := .raising }.note (.cannotSpawn pool.workers.length error)
  | .raising => some { pool with shutdown := true, owner := .watching }
  | .sleeping true => some { pool with owner := .watching }
  | .joining worker => pool.join? worker
  | .clearing =>
    some { pool with
      queue := pool.queue.clear
      dropped := pool.dropped ++ pool.queue.tasks.map Task.ticket
      owner := .closing }
  | .closing => some ({ pool with owner := .closed }.note (.poolDestroyed pool.size))
  | .idle | .watching | .sleeping false | .closed | .unwound => none

/-- All tasks are dropped, but the gate is left as it is. -/
def unwind? (pool : Pool ε) : Option (Pool ε) :=
  if pool.owner = .clearing ∧ pool.queue.tasks ≠ [] then
    some { pool with
      queue := ⟨[], pool.queue.gate⟩
      dropped := pool.dropped ++ pool.queue.tasks.map Task.ticket
      owner := .unwound }
  else none

/-- A worker goes through the gate or falls asleep before it. -/
def enter (pool : Pool ε) (id : Nat) : Pool ε :=
  match pool.queue.pass? with
  | some queue => { pool with queue }.move id .passed
  | none => pool.move id (.atGate .asleep)

/-- A worker takes the oldest task; what is left behind is worth a signal. -/
def pull? (pool : Pool ε) (id : Nat) (woken : Option Nat) : Option (Pool ε) :=
  match pool.queue.pull with
  | (none, queue) => if woken = none then some ({ pool with queue }.move id .resting) else none
  | (some task, queue) =>
    let pulled := { pool with queue, pulled := pool.pulled ++ [task.ticket] }.move id
      (.running task.ticket task.body)
    if queue.isEmpty then (if woken = none then some pulled else none)
    else pulled.signalOne? woken

/-- A body in progress takes its next step; what it does outside the pool is not told here. -/
def run (pool : Pool ε) (id : Nat) (ticket : Ticket) : Body ε → Pool ε
  | .done =>
    { pool with finished := pool.finished ++ [(ticket, Ending.returned)] }.move id .resting
  | .panic cause =>
    { pool with finished := pool.finished ++ [(ticket, Ending.panicked cause)] }.move id
      (.caught ticket cause)
  | .act _ next => pool.move id (.running ticket next)
  | .submit body next =>
    let (pool, task) := pool.offer body
    if pool.shutdown then (pool.refuse task).move id (.running ticket next)
    else pool.move id (.pushing ticket task next)

def rest (pool : Pool ε) (id : Nat) : Pool ε :=
  let rested := { pool with working := pool.working - 1 }.move id .looping
  if rested.working = 0 then rested.signalIdle else rested

/-- The step of a worker that signals nobody at the gate. -/
def quietStep? (pool : Pool ε) (id : Nat) : Phase ε → Option (Pool ε)
  | .spawned => some ({ pool with alive := pool.alive + 1 }.move id .counted)
  | .counted => some (pool.move id .greeting)
  | .greeting => some ((pool.note (.workerStarted id)).move id .looping)
  | .looping => some (pool.move id (if pool.shutdown then .leaving else .atGate .arriving))
  | .atGate .asleep => none
  | .atGate _ => some (pool.enter id)
  | .passed => some (pool.move id (if pool.shutdown then .leaving else .entering))
  | .entering => some ({ pool with working := pool.working + 1 }.move id .pulling)
  | .running ticket body => some (pool.run id ticket body)
  | .caught ticket cause =>
    some ((pool.note (.taskPanicked id cause)).move id (.failing ticket cause))
  | .failing _ cause => some (pool.fail.move id (if cause.isExplosive then .lost else .resting))
  | .resting => some (pool.rest id)
  | .leaving => some ({ pool with alive := pool.alive - 1 }.move id .parting).signalExit
  | .parting =>
    some ((pool.note (.workerStopped id)).move id (if pool.fragile then .crashed else .ended))
  | .pulling | .pushing _ _ _ | .ended | .crashed | .lost => none

def worker? (pool : Pool ε) (id : Nat) (woken : Option Nat) : Option (Pool ε) :=
  match pool.workers[id]? with
  | none => none
  | some .pulling => pool.pull? id woken
  | some (.pushing ticket task next) =>
    ((pool.push task).move id (.running ticket next)).signalOne? woken
  | some phase => if woken = none then pool.quietStep? id phase else none

def stir? (pool : Pool ε) (id : Nat) : Option (Pool ε) :=
  match pool.workers[id]? with
  | some (.atGate .asleep) => some (pool.move id (.atGate .awake))
  | _ => none

def moveCaller (pool : Pool ε) (id : Nat) (caller : Caller ε) : Pool ε :=
  { pool with callers := pool.callers.set id caller }

/-- Calls come to a pool that has been built, except while it is being destroyed. -/
def call? (pool : Pool ε) (request : Request ε) : Option (Pool ε) :=
  if pool.owner = .idle ∨ (pool.owner.isDone ∧ pool.failure = none) then
    match request with
    | .wait => some { pool with callers := pool.callers ++ [.checking] }
    | .submit body =>
      let (pool, task) := pool.offer body
      some { pool with callers := pool.callers ++ [.offering task] }
  else none

def caller? (pool : Pool ε) (id : Nat) (woken : Option Nat) : Option (Pool ε) :=
  match pool.callers[id]? with
  | some (.pushing task) =>
    ((pool.push task).moveCaller id (.finished (.accepted task.ticket))).signalOne? woken
  | some caller =>
    if woken = none then
      match caller with
      | .offering task =>
        if pool.shutdown then
          some ((pool.refuse task).moveCaller id (.finished (.refused task.ticket)))
        else some (pool.moveCaller id (.pushing task))
      | .checking =>
        some (pool.moveCaller id (if pool.isIdle then .finished .drained else .sleeping false))
      | .sleeping true => some (pool.moveCaller id .checking)
      | .pushing _ | .sleeping false | .finished _ => none
    else none
  | none => none

def stirCaller? (pool : Pool ε) (id : Nat) : Option (Pool ε) :=
  match pool.callers[id]? with
  | some (.sleeping _) => some (pool.moveCaller id (.sleeping true))
  | _ => none

/-- The pool is given up. A pool that was destroyed before stays as it is, whatever came of that. -/
def destroy? (pool : Pool ε) : Option (Pool ε) :=
  if pool.isQuiet then
    if pool.owner = .idle then some { pool with owner := .raising }
    else if pool.owner.isDone then some pool
    else none
  else none

def step? (pool : Pool ε) : Action ε → Option (Pool ε)
  | .spawn failure => pool.spawn? failure
  | .owner => pool.owner?
  | .watch late => pool.watch? late
  | .expire =>
    match pool.owner with
    | .sleeping _ => some { pool with owner := .watching }
    | _ => none
  | .unwind => pool.unwind?
  | .worker id woken => pool.worker? id woken
  | .stir id => pool.stir? id
  | .call request => pool.call? request
  | .caller id woken => pool.caller? id woken
  | .stirCaller id => pool.stirCaller? id
  | .destroy => pool.destroy?
  | .fail => some pool.fail

def effect? (pool : Pool ε) : Action ε → Option ε
  | .worker id _ =>
    match pool.workers[id]? with
    | some (.running _ (.act effect _)) => some effect
    | _ => none
  | _ => none

/-- The states that a pool of some size can get into. -/
inductive Reachable : Pool ε → Prop where
  | start {size : Nat} (fragile : Bool) (h : 1 ≤ size) : Reachable (Pool.start size fragile)
  | step {pool next : Pool ε} (action : Action ε) :
      Reachable pool → pool.step? action = some next → Reachable next

end Pool

end TreePool
