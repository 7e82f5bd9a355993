import TreePool.Gate.Basic

/-! # A crowd before a gate

Any number of waiters share a gate. What one of them or a signaller does under the gate's lock is
one step: a waiter looks at the gate and gets through or falls asleep, a signal for one wakes a
sleeper if there is any, a signal for all wakes every sleeper, and a sleeper may wake for no
reason. `step?` says which steps are possible and what they lead to.
-/

namespace TreePool

inductive Waiter where
  | waiting (stance : Stance)
  | through
deriving DecidableEq, Repr

structure Crowd where
  gate : Gate
  waiters : List Waiter
deriving DecidableEq, Repr

namespace Crowd

inductive Action where
  | join
  | look (waiter : Nat)
  | stir (waiter : Nat)
  /-- A signal for one, with the sleeper that it wakes. -/
  | post (woken : Option Nat)
  | postAll
  | reset
deriving DecidableEq, Repr

def ofGate (gate : Gate) : Crowd := ⟨gate, []⟩

def isAsleep (waiter : Waiter) : Bool := waiter = .waiting .asleep

def rouse : Waiter → Waiter
  | .waiting .asleep => .waiting .awake
  | waiter => waiter

def look? (gate : Gate) : Waiter → Option (Gate × Waiter)
  | .waiting .asleep => none
  | .through => none
  | .waiting _ =>
    match gate.pass? with
    | some gate => some (gate, .through)
    | none => some (gate, .waiting .asleep)

def step? (crowd : Crowd) : Action → Option Crowd
  | .join => some { crowd with waiters := crowd.waiters ++ [.waiting .arriving] }
  | .look i => do
    let waiter ← crowd.waiters[i]?
    let (gate, waiter) ← look? crowd.gate waiter
    some ⟨gate, crowd.waiters.set i waiter⟩
  | .stir i => do
    let waiter ← crowd.waiters[i]?
    if isAsleep waiter then some { crowd with waiters := crowd.waiters.set i (rouse waiter) }
    else none
  | .post none =>
    if crowd.waiters.any isAsleep then none else some { crowd with gate := crowd.gate.post }
  | .post (some i) => do
    let waiter ← crowd.waiters[i]?
    if isAsleep waiter then some ⟨crowd.gate.post, crowd.waiters.set i (rouse waiter)⟩ else none
  | .postAll => some ⟨crowd.gate.post, crowd.waiters.map rouse⟩
  | .reset => some { crowd with gate := crowd.gate.reset }

def passed (crowd : Crowd) : Nat := crowd.waiters.count .through

def remaining (crowd : Crowd) : Nat := crowd.waiters.length - crowd.passed

/-- The first sleeper, whom a signal for one wakes by default. -/
def sleeper? (crowd : Crowd) : Option Nat := crowd.waiters.findIdx? isAsleep

/-- A signal for one; it wakes the first sleeper. -/
def post (crowd : Crowd) : Crowd := (crowd.step? (.post crowd.sleeper?)).getD crowd

def postAll (crowd : Crowd) : Crowd := ⟨crowd.gate.post, crowd.waiters.map rouse⟩

def reset (crowd : Crowd) : Crowd := { crowd with gate := crowd.gate.reset }

def join (crowd : Crowd) (count : Nat) : Crowd :=
  { crowd with waiters := crowd.waiters ++ List.replicate count (.waiting .arriving) }

/-- Gets through the gate from outside the crowd, if it is armed. -/
def pass? (crowd : Crowd) : Option Crowd :=
  crowd.gate.pass?.map fun gate => { crowd with gate }

/-- Lets every waiter that is awake look at the gate, in order. -/
def settleFrom (gate : Gate) : List Waiter → Gate × List Waiter
  | [] => (gate, [])
  | waiter :: rest =>
    let (gate, waiter) := (look? gate waiter).getD (gate, waiter)
    let (gate, rest) := settleFrom gate rest
    (gate, waiter :: rest)

def settle (crowd : Crowd) : Crowd :=
  let (gate, waiters) := settleFrom crowd.gate crowd.waiters
  ⟨gate, waiters⟩

def rounds : Nat → Crowd → Crowd
  | 0, crowd => crowd
  | n + 1, crowd => rounds n crowd.postAll.settle

/-- Signals all until everybody is through, which takes one round for each, then closes the
gate. -/
def drain (crowd : Crowd) : Crowd :=
  let crowd := crowd.settle
  (rounds crowd.remaining crowd).reset

end Crowd

end TreePool
