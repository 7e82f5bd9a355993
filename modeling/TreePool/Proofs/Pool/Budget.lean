import TreePool.Proofs.Pool.Lifecycle
import Mathlib.Algebra.GroupWithZero.Nat

/-! # How long workers can go on

Left to themselves, workers come to rest. Every thread and every queued task has a budget of steps
that pays for what it may still do, for the signals it gives on the way, and for the workers that
get through the gate or wake because of them. Each step of a worker lowers the budget of the pool.
-/

namespace TreePool

variable {ε : Type}

def Body.budget : Body ε → Nat
  | .done => 1
  | .panic _ => 1
  | .act _ next => next.budget + 1
  | .submit task next => task.budget + next.budget + 20

def Task.budget (task : Task ε) : Nat := task.body.budget + 10

def Phase.budget : Phase ε → Nat
  | .ended | .crashed | .lost | .atGate .asleep => 0
  | .atGate _ | .parting => 1
  | .leaving => 2
  | .looping => 3
  | .greeting | .resting => 4
  | .counted | .pulling | .failing _ _ => 5
  | .spawned | .entering | .caught _ _ => 6
  | .passed => 7
  | .running _ body => body.budget + 6
  | .pushing _ task next => task.budget + next.budget + 15

def GatedQueue.budget (queue : GatedQueue (Task ε)) : Nat :=
  (queue.tasks.map Task.budget).sum + 7 * queue.gate.armed.toNat

def Action.isWorker : Action ε → Bool
  | .worker _ _ => true
  | _ => false

theorem sum_map_set_add {α : Type} (f : α → Nat) {l : List α} {i : Nat} {a b : α}
    (h : l[i]? = some a) :
    ((l.set i b).map f).sum + f a = (l.map f).sum + f b := by
  induction l generalizing i with
  | nil => cases h
  | cons c l ih =>
    cases i with
    | zero =>
      cases Option.some.inj h
      simp only [List.set_cons_zero, List.map_cons, List.sum_cons]
      omega
    | succ i =>
      have := ih h
      simp only [List.set_cons_succ, List.map_cons, List.sum_cons]
      omega

namespace Pool

variable {pool next after : Pool ε} {id : Nat} {phase phase' : Phase ε} {signals : Bool}
variable {woken : Option Nat} {workers workers' : List (Phase ε)}

/-- A bound on the number of steps that the workers can take if nobody else does anything. -/
def budget (pool : Pool ε) : Nat := pool.queue.budget + (pool.workers.map Phase.budget).sum

theorem Signal.sum_budget_le (h : Signal signals workers woken workers') :
    (workers'.map Phase.budget).sum ≤ (workers.map Phase.budget).sum + signals.toNat := by
  cases h with
  | silent => exact Nat.le_refl _
  | unheard => exact Nat.le_add_right _ _
  | wakes hp => exact Nat.le_of_eq (sum_map_set_add Phase.budget hp)

theorem WorkerStep.budget_lt (h : WorkerStep pool id phase phase' signals after) :
    after.queue.budget + phase'.budget + signals.toNat < pool.queue.budget + phase.budget := by
  cases h with
  | pass hs ha =>
    simp only [GatedQueue.budget, GatedQueue.tasks_reset, GatedQueue.armed_reset, ha, Phase.budget,
      Bool.toNat_false, Bool.toNat_true]
    omega
  | @pull task rest ht =>
    -- The task pays for its body, for arming the gate again and for the worker that wakes.
    have hrest := GatedQueue.tasks_pull ht
    simp only [GatedQueue.budget, hrest, ht, Phase.budget, Task.budget, List.map_cons,
      List.sum_cons]
    have := Bool.toNat_le pool.queue.pull.2.gate.armed
    have := Bool.toNat_le (!rest.isEmpty)
    omega
  | @push ticket task rest =>
    simp only [GatedQueue.budget, GatedQueue.tasks_push, GatedQueue.armed_push, Phase.budget,
      List.map_append, List.map_cons, List.map_nil, List.sum_append, List.sum_cons, List.sum_nil,
      Bool.toNat_true]
    omega
  | part =>
    cases pool.fragile <;> simp only [Phase.budget, Bool.toNat_false] <;> exact Nat.lt_succ_self _
  | _ =>
    simp only [Phase.budget, Body.budget, Task.budget, Bool.toNat_false]
    omega

theorem budget_lt_of_step? (hs : pool.step? (.worker id woken) = some next) :
    next.budget < pool.budget := by
  cases transition_of_step? hs with
  | owner ht => cases ht
  | @worker _ phase phase' signals after _ workers hp ht hw =>
    have hstep := ht.budget_lt
    have hset := sum_map_set_add Phase.budget (b := phase') hp
    have hsignal := hw.sum_budget_le
    change after.queue.budget + (workers.map Phase.budget).sum <
      pool.queue.budget + (pool.workers.map Phase.budget).sum
    omega

theorem budget_add_length_le {actions : List (Action ε)} (hw : ∀ action ∈ actions, action.isWorker)
    (hp : pool.play? actions = some next) : next.budget + actions.length ≤ pool.budget := by
  induction actions generalizing pool with
  | nil => exact Nat.le_of_eq (congrArg budget (Option.some.inj hp).symm)
  | cons action actions ih =>
    obtain ⟨between, hs, hrest⟩ := after?_cons_eq_some_iff.mp hp
    cases action with
    | worker id woken =>
      have hstep := budget_lt_of_step? hs
      have hle := ih (fun action ha => hw action (List.mem_cons_of_mem _ ha)) hrest
      rw [List.length_cons]
      omega
    | _ => cases hw _ List.mem_cons_self

def Moves (pool : Pool ε) : Prop := ∃ id woken next, pool.step? (.worker id woken) = some next

theorem exists_play?_not_moves (pool : Pool ε) : ∃ actions next,
    (∀ action ∈ actions, action.isWorker) ∧ pool.play? actions = some next ∧ ¬ next.Moves := by
  by_cases hm : pool.Moves
  · obtain ⟨id, woken, between, hs⟩ := hm
    have := budget_lt_of_step? hs
    obtain ⟨actions, next, hw, hp, hn⟩ := exists_play?_not_moves between
    refine ⟨.worker id woken :: actions, next, ?_, ?_, hn⟩
    · simpa [Action.isWorker] using hw
    · exact (after?_cons hs).trans hp
  · exact ⟨[], pool, by simp, rfl, hm⟩
termination_by pool.budget

end Pool
end TreePool
