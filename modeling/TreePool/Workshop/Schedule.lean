import TreePool.Workshop.Basic

/-! # Running a workshop

Which thread goes first is left open by the steps. Here one order is fixed: pools and workers in
the order of their numbers, then callers, then owners, and a signal for one wakes the first
sleeper. `settle` goes on until nobody can take a step.
-/

namespace TreePool

def total (numbers : List Nat) : Nat := numbers.foldl (· + ·) 0

namespace Pool

variable {ε : Type}

/-- The steps to try, in order. Steps that something outside has to cause are not among them. -/
def candidates (pool : Pool ε) : List (Action ε) :=
  let sleeper := pool.workers.findIdx? Phase.isAsleep
  let wakings := none :: sleeper.toList.map some
  (List.range pool.workers.length).flatMap (fun id => wakings.map (.worker id)) ++
    (List.range pool.callers.length).flatMap (fun id => wakings.map (.caller id)) ++
    [.owner, .watch false]

/-- A bound for the number of steps that the work at hand takes: each task passes a few phases and
wakes a worker or two, and each of the workers that leave may first wake all the others. -/
def effort (pool : Pool ε) : Nat :=
  let body : Phase ε → Nat
    | .running _ body => body.size
    | .pushing _ task next => task.body.size + next.size
    | _ => 1
  let call : Caller ε → Nat
    | .offering task => task.body.size
    | .pushing task => task.body.size
    | _ => 1
  let work := total (pool.queue.tasks.map (·.body.size)) + total (pool.workers.map body) +
    total (pool.callers.map call)
  64 * (work + (pool.size + 2) * (pool.size + 2))

end Pool

namespace Workshop

/-- The first step that a thread of the pool can take, and where it leads. -/
def advancePool? (shop : Workshop) (id : PoolId) : Option Workshop := do
  let pool ← shop.pool? id
  pool.candidates.findSome? fun action => shop.step? ⟨id, action⟩

def advance? (shop : Workshop) : Option Workshop :=
  (List.range shop.pools.length).findSome? shop.advancePool?

/-- Takes steps until nobody can, or the given number of them. -/
def run : Nat → Workshop → Workshop
  | 0, shop => shop
  | fuel + 1, shop =>
    match shop.advance? with
    | some next => run fuel next
    | none => shop

/-- Lets the workshop come to rest. -/
def settle (shop : Workshop) : Workshop :=
  run (total (shop.pools.map Pool.effort)) shop

/-- Takes a step that has to be possible; where it is not, nothing happens. -/
def take (shop : Workshop) (id : PoolId) (action : Action Effect) : Workshop :=
  (shop.step? ⟨id, action⟩).getD shop

/-- The pool spawns the given number of workers, and one more that fails when it has not all. -/
def spawn (shop : Workshop) (id : PoolId) (failure : IoError) : Nat → Workshop
  | 0 => shop.take id (.spawn (some failure))
  | count + 1 => (shop.take id (.spawn none)).spawn id failure count

def build (shop : Workshop) (size : Nat) (fragile : Bool) (threads : Option Nat) : Workshop :=
  let id := shop.pools.length
  ((shop.addPool (Pool.start size fragile)).spawn id SystemError.tryAgain
    (min size (threads.getD size))).settle

def lastReply? (shop : Workshop) (id : PoolId) : Option Reply := do
  let pool ← shop.pool? id
  match ← pool.callers.getLast? with
  | .finished reply => some reply
  | _ => none

/-- A caller submits a task. -/
def submit (shop : Workshop) (id : PoolId) (body : Body Effect) : Workshop × Except Error Unit :=
  let caller := ((shop.pool? id).map (·.callers.length)).getD 0
  let sleeper := ((shop.pool? id).bind (·.workers.findIdx? Phase.isAsleep))
  let shop := (shop.take id (.call (.submit body))).take id (.caller caller none)
  let shop := shop.take id (.caller caller sleeper)
  match shop.lastReply? id with
  | some (.refused _) => (shop, .error .poolDestroyed)
  | _ => (shop, .ok ())

/-- A caller waits until the pool is idle. -/
def wait (shop : Workshop) (id : PoolId) : Workshop := (shop.take id (.call .wait)).settle

/-- The owner gives the pool up; the latches are released once no further task can start. With
`late` the grace period is over at once, and the latches are released after the complaint. -/
def destroy (shop : Workshop) (id : PoolId) (latches : List String) (late : Bool) : Workshop :=
  match shop.pool? id with
  | none => shop
  | some pool =>
    if pool.shutdown then shop
    else
      let shop := (shop.take id .destroy).take id .owner
      let shop := if late then shop.take id (.watch true) else shop
      (latches.foldl release shop).settle

end Workshop

end TreePool
