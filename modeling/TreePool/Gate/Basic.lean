import TreePool.Error

/-! # Binary gates

A gate is armed or it is not. Whoever gets through an armed gate closes it again, so that two
signals in a row let no more than one through.
-/

namespace TreePool

structure Gate where
  armed : Bool
deriving DecidableEq, Repr

namespace Gate

def closed : Gate := ⟨false⟩

def ofValue (value : Int) : Except Error Gate :=
  if value = 0 then .ok ⟨false⟩
  else if value = 1 then .ok ⟨true⟩
  else .error (.invalidGateValue value)

/-- The gate after a signal, whether it is meant for one waiter or for all. -/
def post (_ : Gate) : Gate := ⟨true⟩

def reset (_ : Gate) : Gate := closed

def pass? (gate : Gate) : Option Gate := if gate.armed then some closed else none

@[simp] theorem armed_closed : closed.armed = false := rfl

@[simp] theorem armed_post (gate : Gate) : gate.post.armed = true := rfl

@[simp] theorem armed_reset (gate : Gate) : gate.reset.armed = false := rfl

end Gate

inductive Stance where
  /-- Has yet to look at the gate. -/
  | arriving
  /-- Found the gate closed and sleeps until it is woken. -/
  | asleep
  /-- Was woken and has yet to look again. -/
  | awake
deriving DecidableEq, Repr

end TreePool
