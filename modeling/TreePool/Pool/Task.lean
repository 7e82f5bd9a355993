/-! # Tasks

The body of a task is what it goes on to do: act on the world outside the pool, submit further
tasks to its own pool, return, or panic. A task is a body with a ticket of its own. What a body
panics with is dropped by the worker that catches it, and that may panic again.
-/

namespace TreePool

/-- What a body panics with. -/
inductive Cause where
  | text (message : String)
  /-- Something that is no text. -/
  | other
  /-- Something that is no text and whose destructor panics. -/
  | explosive
deriving DecidableEq, Repr

def Cause.message : Cause → String
  | .text message => message
  | .other | .explosive => "unknown"

/-- Whether the destructor panics. -/
def Cause.isExplosive : Cause → Bool
  | .explosive => true
  | .text _ | .other => false

inductive Body (ε : Type) where
  | done
  | panic (cause : Cause)
  | act (effect : ε) (next : Body ε)
  | submit (task next : Body ε)
deriving DecidableEq, Repr

namespace Body

variable {ε : Type}

/-- The number of steps in a body and in all that it submits. -/
def size : Body ε → Nat
  | .done => 1
  | .panic _ => 1
  | .act _ next => next.size + 1
  | .submit task next => task.size + next.size + 1

/-- A body that acts as another one first, whose end it replaces. -/
def andThen : Body ε → Body ε → Body ε
  | .done, next => next
  | .panic cause, _ => .panic cause
  | .act effect rest, next => .act effect (rest.andThen next)
  | .submit task rest, next => .submit task (rest.andThen next)

end Body

/-- Names a task from the moment it is offered to a pool. -/
abbrev Ticket := Nat

structure Task (ε : Type) where
  ticket : Ticket
  body : Body ε
deriving DecidableEq, Repr

inductive Ending where
  | returned
  | panicked (cause : Cause)
deriving DecidableEq, Repr

def Ending.isExplosive : Ending → Bool
  | .panicked cause => cause.isExplosive
  | .returned => false

end TreePool
