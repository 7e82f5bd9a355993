import TreePool.Gate.Basic

/-! # Task queues

Tasks wait in the order in which they came, behind a gate that is armed while there is something
to do. The gate remembers one signal only, so a pull that leaves tasks behind arms it again.
-/

namespace TreePool

structure GatedQueue (α : Type) where
  tasks : List α
  gate : Gate

namespace GatedQueue

variable {α : Type}

def empty : GatedQueue α := ⟨[], .closed⟩

def size (queue : GatedQueue α) : Nat := queue.tasks.length

def isEmpty (queue : GatedQueue α) : Bool := queue.tasks.isEmpty

def push (queue : GatedQueue α) (task : α) : GatedQueue α :=
  ⟨queue.tasks ++ [task], queue.gate.post⟩

def pull (queue : GatedQueue α) : Option α × GatedQueue α :=
  match queue.tasks with
  | [] => (none, queue)
  | task :: rest => (some task, ⟨rest, if rest.isEmpty then queue.gate else queue.gate.post⟩)

def clear (queue : GatedQueue α) : GatedQueue α := ⟨[], queue.gate.reset⟩

def post (queue : GatedQueue α) : GatedQueue α := { queue with gate := queue.gate.post }

def reset (queue : GatedQueue α) : GatedQueue α := { queue with gate := queue.gate.reset }

def pass? (queue : GatedQueue α) : Option (GatedQueue α) :=
  queue.gate.pass?.map fun gate => { queue with gate }

@[simp] theorem tasks_push (queue : GatedQueue α) (task : α) :
    (queue.push task).tasks = queue.tasks ++ [task] := rfl

@[simp] theorem armed_push (queue : GatedQueue α) (task : α) :
    (queue.push task).gate.armed = true := rfl

@[simp] theorem tasks_post (queue : GatedQueue α) : queue.post.tasks = queue.tasks := rfl

@[simp] theorem armed_post (queue : GatedQueue α) : queue.post.gate.armed = true := rfl

@[simp] theorem tasks_reset (queue : GatedQueue α) : queue.reset.tasks = queue.tasks := rfl

@[simp] theorem armed_reset (queue : GatedQueue α) : queue.reset.gate.armed = false := rfl

theorem pass?_of_armed {queue : GatedQueue α} (h : queue.gate.armed = true) :
    queue.pass? = some queue.reset := by
  unfold pass? Gate.pass?
  rw [if_pos h]
  rfl

theorem pass?_of_closed {queue : GatedQueue α} (h : queue.gate.armed = false) :
    queue.pass? = none := by
  simp [pass?, Gate.pass?, h]

@[simp] theorem tasks_clear (queue : GatedQueue α) : queue.clear.tasks = [] := rfl

@[simp] theorem armed_clear (queue : GatedQueue α) : queue.clear.gate.armed = false := rfl

theorem toList_pull (queue : GatedQueue α) :
    queue.pull.1.toList ++ queue.pull.2.tasks = queue.tasks := by
  unfold pull
  split <;> simp_all

theorem pull_of_nil {queue : GatedQueue α} (h : queue.tasks = []) :
    queue.pull = (none, queue) := by
  unfold pull
  rw [h]

theorem pull_of_cons {queue : GatedQueue α} {task : α} {rest : List α}
    (h : queue.tasks = task :: rest) : queue.pull = (some task, queue.pull.2) := by
  unfold pull
  rw [h]

theorem pull_eq_none {queue next : GatedQueue α} (h : queue.pull = (none, next)) :
    queue.tasks = [] ∧ queue = next := by
  unfold pull at h
  split at h <;> simp_all

theorem pull_eq_some {queue next : GatedQueue α} {task : α} (h : queue.pull = (some task, next)) :
    queue.tasks = task :: queue.pull.2.tasks ∧ queue.pull.2 = next := by
  unfold pull at h ⊢
  split at h <;> simp_all

theorem tasks_pull {queue : GatedQueue α} {task : α} {rest : List α}
    (h : queue.tasks = task :: rest) : queue.pull.2.tasks = rest := by
  simp [pull, h]

theorem armed_pull (queue : GatedQueue α) (h : queue.pull.2.tasks ≠ []) :
    queue.pull.2.gate.armed = true := by
  revert h
  unfold pull
  split
  · next he => simp [he]
  · next task rest _ =>
    cases rest <;> simp

end GatedQueue

end TreePool
