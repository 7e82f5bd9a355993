import TreePool.Proofs.Pool.Budget
import Mathlib.Algebra.Order.BigOperators.Group.List
import Mathlib.Algebra.Order.Ring.Nat

/-! # What a pool still has to do

A weight says how much each effect of a body counts. The load of a pool is what the tasks weigh that
are queued or in progress. While the pool is in use, what is submitted adds to the load, and only
what is performed takes from it: `load_add_of_step?`. When the pool is idle, nothing is left of the
load. -/

namespace TreePool

variable {ε : Type} {v w : ε → Nat}

/-- What the effects in a body, and in all that it submits, weigh together. -/
def Body.load (w : ε → Nat) : Body ε → Nat
  | .done => 0
  | .panic _ => 0
  | .act effect next => w effect + next.load w
  | .submit task next => task.load w + next.load w

def Phase.load (w : ε → Nat) : Phase ε → Nat
  | .running _ body => body.load w
  | .pushing _ task next => task.body.load w + next.load w
  | _ => 0

def Phase.effect? : Phase ε → Option ε
  | .running _ (.act effect _) => some effect
  | _ => none

def Caller.load (w : ε → Nat) : Caller ε → Nat
  | .offering task => task.body.load w
  | .pushing task => task.body.load w
  | _ => 0

theorem Body.load_mono (h : v ≤ w) (body : Body ε) : body.load v ≤ body.load w := by
  induction body with
  | done | panic => exact Nat.le_refl 0
  | act effect next ih => exact Nat.add_le_add (h effect) ih
  | submit task next iht ihn => exact Nat.add_le_add iht ihn

theorem Phase.load_mono (h : v ≤ w) (phase : Phase ε) : phase.load v ≤ phase.load w := by
  cases phase with
  | running ticket body => exact body.load_mono h
  | pushing ticket task next => exact Nat.add_le_add (task.body.load_mono h) (next.load_mono h)
  | _ => exact Nat.le_refl 0

theorem Caller.load_mono (h : v ≤ w) (caller : Caller ε) : caller.load v ≤ caller.load w := by
  cases caller with
  | offering task | pushing task => exact task.body.load_mono h
  | _ => exact Nat.le_refl 0

@[simp] theorem Caller.load_notify (caller : Caller ε) : caller.notify.load w = caller.load w := by
  cases caller <;> rfl

def GatedQueue.load (w : ε → Nat) (queue : GatedQueue (Task ε)) : Nat :=
  (queue.tasks.map (·.body.load w)).sum

def Action.load (w : ε → Nat) : Action ε → Nat
  | .call (.submit body) => body.load w
  | _ => 0

theorem Action.load_mono (h : v ≤ w) (action : Action ε) : action.load v ≤ action.load w := by
  unfold Action.load
  split
  · next body => exact body.load_mono h
  · exact Nat.le_refl 0

namespace Pool

variable {pool next after : Pool ε} {action : Action ε} {id : Nat} {phase phase' : Phase ε}
variable {signals : Bool} {woken : Option Nat} {workers workers' : List (Phase ε)}
variable {caller caller' : Caller ε}

def load (w : ε → Nat) (pool : Pool ε) : Nat :=
  pool.queue.load w + (pool.workers.map (Phase.load w)).sum

def incoming (w : ε → Nat) (pool : Pool ε) : Nat := (pool.callers.map (Caller.load w)).sum

def performed (w : ε → Nat) (pool : Pool ε) (action : Action ε) : Nat :=
  (pool.effect? action).elim 0 w

theorem effect?_worker (hp : pool.workers[id]? = some phase) :
    pool.effect? (.worker id woken) = phase.effect? := by
  simp only [effect?, hp]
  cases phase with
  | running ticket body => cases body <;> rfl
  | _ => rfl

/-! ## Less weight -/

theorem load_mono (h : v ≤ w) (pool : Pool ε) : pool.load v ≤ pool.load w := by
  refine Nat.add_le_add ?_ ?_
  · exact List.sum_le_sum fun task _ => task.body.load_mono h
  · exact List.sum_le_sum fun phase _ => phase.load_mono h

theorem incoming_mono (h : v ≤ w) (pool : Pool ε) : pool.incoming v ≤ pool.incoming w :=
  List.sum_le_sum fun caller _ => caller.load_mono h

/-! ## Steps -/

theorem Signal.sum_load (h : Signal signals workers woken workers') :
    (workers'.map (Phase.load w)).sum = (workers.map (Phase.load w)).sum := by
  cases h with
  | silent => rfl
  | unheard => rfl
  | wakes hp => exact sum_map_set_add (Phase.load w) hp

theorem WorkerStep.load_add (h : WorkerStep pool id phase phase' signals after)
    (hf : pool.shutdown = false) :
    after.queue.load w + phase'.load w + phase.effect?.elim 0 w =
      pool.queue.load w + phase.load w := by
  cases h with
  | quit hs | retreat hs | refuse hs => rw [hf] at hs; cases hs
  | @pull task rest ht =>
    simp only [GatedQueue.load, GatedQueue.tasks_pull ht, ht, Phase.load, Phase.effect?,
      List.map_cons, List.sum_cons, Option.elim_none]
    omega
  | push =>
    simp only [GatedQueue.load, GatedQueue.tasks_push, Phase.load, Phase.effect?, List.map_append,
      List.map_cons, List.map_nil, List.sum_append, List.sum_cons, List.sum_nil, Option.elim_none]
    omega
  | act =>
    simp only [Phase.load, Phase.effect?, Body.load, Option.elim_some]
    omega
  | part => cases pool.fragile <;> rfl
  | _ => rfl

theorem CallerStep.load_add (h : CallerStep pool caller caller' signals after)
    (hf : pool.shutdown = false) :
    after.queue.load w + caller'.load w = pool.queue.load w + caller.load w := by
  cases h with
  | refuse hs => rw [hf] at hs; cases hs
  | push =>
    simp only [GatedQueue.load, GatedQueue.tasks_push, Caller.load, List.map_append, List.map_cons,
      List.map_nil, List.sum_append, List.sum_cons, List.sum_nil]
    omega
  | _ => rfl

theorem CallerStep.load_le (h : CallerStep pool caller caller' signals after) :
    caller'.load w ≤ caller.load w := by
  cases h with
  | allow | recheck => exact Nat.le_refl _
  | _ => exact Nat.zero_le _

theorem WorkerStep.incoming_eq (h : WorkerStep pool id phase phase' signals after) :
    after.incoming w = pool.incoming w := by
  cases h with
  | rest =>
    unfold incoming
    split_ifs
    · simp [Function.comp_def]
    · rfl
  | _ => rfl

/-- In a pool in use, a step adds to the load what it submits and takes from it what it performs. -/
theorem load_add_of_step? (hs : pool.step? action = some next) (ho : pool.owner = .idle)
    (hf : pool.shutdown = false) :
    next.load w + next.incoming w + pool.performed w action =
      pool.load w + pool.incoming w + action.load w := by
  cases transition_of_step? hs with
  | owner ht =>
    obtain ⟨rfl, rfl⟩ := ht.of_idle ho
    rfl
  | @worker id phase phase' _ after _ workers hp ht hw =>
    have hstep := ht.load_add (w := w) hf
    have hset := sum_map_set_add (Phase.load w) (b := phase') hp
    have hsignal := hw.sum_load (w := w)
    have hcallers := ht.incoming_eq (w := w)
    rw [performed, effect?_worker hp]
    change after.queue.load w + (workers.map (Phase.load w)).sum + after.incoming w + _ =
      pool.queue.load w + (pool.workers.map (Phase.load w)).sum + pool.incoming w + 0
    omega
  | stir hp =>
    have hwake := (Signal.wakes hp).sum_load (w := w)
    simp only [load, hwake]
    rfl
  | callWait =>
    simp [load, incoming, performed, effect?, Action.load, Caller.load]
  | callSubmit =>
    simp [load, incoming, performed, effect?, Action.load, Caller.load, Nat.add_assoc]
  | @caller id caller caller' _ after _ workers hc ht hw =>
    have hstep := ht.load_add (w := w) hf
    have hset := sum_map_set_add (Caller.load w) (b := caller') hc
    have hsignal := hw.sum_load (w := w)
    change after.queue.load w + (workers.map (Phase.load w)).sum +
        ((pool.callers.set id caller').map (Caller.load w)).sum + 0 =
      pool.queue.load w + (pool.workers.map (Phase.load w)).sum +
        (pool.callers.map (Caller.load w)).sum + 0
    omega
  | stirCaller hc =>
    have hset := sum_map_set_add (Caller.load w) (b := .sleeping true) hc
    simp only [incoming]
    change pool.load w + _ + 0 = pool.load w + _ + 0
    simp only [Caller.load] at hset
    omega
  | fail => rfl

theorem incoming_le_of_step? (hs : pool.step? action = some next) (ho : pool.owner = .idle) :
    next.incoming w ≤ pool.incoming w + action.load w := by
  cases transition_of_step? hs with
  | owner ht =>
    obtain ⟨rfl, rfl⟩ := ht.of_idle ho
    exact Nat.le_refl _
  | worker hp ht hw => exact Nat.le_of_eq ht.incoming_eq
  | @caller id caller caller' _ _ _ _ hc ht hw =>
    have hset := sum_map_set_add (Caller.load w) (b := caller') hc
    have hle := ht.load_le (w := w)
    change ((pool.callers.set id caller').map (Caller.load w)).sum ≤
      (pool.callers.map (Caller.load w)).sum + 0
    omega
  | stirCaller hc =>
    have hset := sum_map_set_add (Caller.load w) (b := .sleeping true) hc
    simp only [Caller.load] at hset
    exact Nat.le_of_eq hset
  | callWait | callSubmit => simp [incoming, Action.load, Caller.load]
  | stir | fail => exact Nat.le_refl _

theorem idle_of_step? (hs : pool.step? action = some next) (ho : pool.owner = .idle)
    (hd : action ≠ .destroy) : next.owner = .idle := by
  cases transition_of_step? hs with
  | owner ht => exact absurd (ht.of_idle ho).1 hd
  | @worker _ _ _ _ after _ _ hp ht hw =>
    change after.owner = .idle
    rcases ht.owner_eq with he | he <;> simp [he, ho, Owner.rouse]
  | caller hc ht hw => exact ht.owner_eq.trans ho
  | _ => exact ho

/-! ## The end -/

theorem load_eq_zero_of_not_working (h : phase.isWorking = false) : phase.load w = 0 := by
  cases phase with
  | running | pushing => cases h
  | _ => rfl

theorem Reachable.load_eq_zero (h : Reachable pool) (hi : pool.isIdle = true) :
    pool.load w = 0 := by
  obtain ⟨ht, hw⟩ := isIdle_iff.mp hi
  have hidle := List.countP_eq_zero.mp (h.counted.working.symm.trans hw)
  have hworkers : (pool.workers.map (Phase.load w)).sum = 0 := by
    refine List.sum_eq_zero_iff_forall_eq_nat.mpr fun load hm => ?_
    obtain ⟨phase, hp, rfl⟩ := List.mem_map.mp hm
    exact load_eq_zero_of_not_working (by simpa using hidle phase hp)
  rw [load, GatedQueue.load, ht, hworkers]
  rfl

theorem incoming_of_isQuiet (h : pool.isQuiet = true) : pool.incoming w = 0 := by
  refine List.sum_eq_zero_iff_forall_eq_nat.mpr fun load hm => ?_
  obtain ⟨caller, hc, rfl⟩ := List.mem_map.mp hm
  have hfinished := List.all_eq_true.mp h caller hc
  cases caller with
  | finished => rfl
  | _ => cases hfinished

/-- A caller gets to know that the pool is idle by a step that finds it so. -/
theorem isIdle_of_step? (hs : pool.step? action = some next)
    (hd : next.callers[id]? = some (.finished .drained))
    (hn : pool.callers[id]? ≠ some (.finished .drained)) : pool.isIdle = true := by
  cases transition_of_step? hs with
  | owner ht => cases ht <;> exact absurd hd hn
  | worker hp ht hw =>
    cases ht with
    | rest =>
      dsimp only at hd
      split_ifs at hd
      · rw [List.getElem?_map] at hd
        obtain ⟨caller, hc, he⟩ := Option.map_eq_some_iff.mp hd
        cases caller <;> cases he
        exact absurd hc hn
      · exact absurd hd hn
    | _ => exact absurd hd hn
  | callWait | callSubmit =>
    dsimp only at hd
    rw [List.getElem?_append] at hd
    split_ifs at hd
    · exact absurd hd hn
    · rw [List.getElem?_singleton] at hd
      split_ifs at hd
      cases hd
  | @caller other _ _ _ _ _ _ hc ht =>
    by_cases he : other = id
    · subst he
      dsimp only at hd
      rw [List.getElem?_set_self (List.getElem?_eq_some_iff.mp hc).1] at hd
      cases ht with
      | drain hi => exact hi
      | _ => cases hd
    · dsimp only at hd
      rw [List.getElem?_set_ne he] at hd
      exact absurd hd hn
  | @stirCaller other _ hc =>
    dsimp only at hd
    rw [List.getElem?_set] at hd
    split_ifs at hd
    · cases hd
    · exact absurd hd hn
  | _ => exact absurd hd hn

end Pool
end TreePool
