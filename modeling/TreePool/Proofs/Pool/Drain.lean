import TreePool.Proofs.Pool.Order

/-! # Waiting for a pool

A call that waits for the pool returns when it finds the queue empty and no worker at work. A worker
counts itself as working before it pulls, and no longer so only after it has marked a panic. So a
task can be missed neither between the queue and a worker nor between its end and the mark: at that
moment all tasks that were accepted have run to their ends, and their panics show in the outcome.
-/

namespace TreePool

variable {ε : Type}

def Action.isFail : Action ε → Bool
  | .fail => true
  | _ => false

/-- The task that panicked and on whose behalf the worker is about to mark the outcome. -/
def Phase.failing? : Phase ε → Option Ticket
  | .failing ticket _ => some ticket
  | _ => none

def Phase.isMarking : Phase ε → Bool
  | .caught _ _ | .failing _ _ => true
  | _ => false

theorem Phase.isWorking_of_isMarking {phase : Phase ε} (h : phase.isMarking) :
    phase.isWorking := by
  cases phase with
  | caught | failing => rfl
  | _ => cases h

theorem Phase.isWorking_of_current? {phase : Phase ε} {ticket : Ticket}
    (h : phase.current? = some ticket) : phase.isWorking := by
  cases phase with
  | running | pushing => rfl
  | _ => cases h

def Ending.isPanicked : Ending → Bool
  | .panicked _ => true
  | .returned => false

namespace Pool

variable {pool next after : Pool ε} {history : List (Event ε)} {id : Nat} {woken : Option Nat}
variable {phase phase' : Phase ε} {signals : Bool} {action : Action ε}

def panics (pool : Pool ε) : Nat := pool.finished.countP (·.2.isPanicked)

/-- The worker that marks the outcome in a step because a task panicked, and the task. -/
def handled? (pool : Pool ε) : Action ε → Option (Nat × Ticket)
  | .worker id _ => (pool.workers[id]?.bind Phase.failing?).map fun ticket => (id, ticket)
  | _ => none

theorem handled?_worker (hp : pool.workers[id]? = some phase) :
    pool.handled? (.worker id woken) = phase.failing?.map fun ticket => (id, ticket) := by
  rw [handled?, hp, Option.bind_some]

theorem exists_failing_of_handled? {entry : Nat × Ticket} (h : pool.handled? action = some entry) :
    ∃ id woken ticket cause, action = .worker id woken ∧
      pool.workers[id]? = some (.failing ticket cause) := by
  cases action with
  | worker id woken =>
    obtain ⟨ticket, hfailing, -⟩ := Option.map_eq_some_iff.mp h
    obtain ⟨phase, hp, hphase⟩ := Option.bind_eq_some_iff.mp hfailing
    cases phase with
    | failing ticket cause => exact ⟨id, woken, ticket, cause, rfl, hp⟩
    | _ => cases hphase
  | _ => cases h

theorem WorkerStep.panics_add (h : WorkerStep pool id phase phase' signals after) :
    after.panics + phase.isMarking.toNat =
      pool.panics + phase'.isMarking.toNat + phase.failing?.isSome.toNat := by
  cases h with
  | complete | panic => simp [panics, Phase.isMarking, Phase.failing?, Ending.isPanicked]
  | part => cases pool.fragile <;> rfl
  | _ => rfl

/-- A panic is in the hands of a worker until that marks the outcome. -/
theorem panics_add_of_step? (hs : pool.step? action = some next) :
    next.panics + pool.workers.countP Phase.isMarking =
      pool.panics + next.workers.countP Phase.isMarking +
        (pool.handled? action).isSome.toNat := by
  cases transition_of_step? hs with
  | owner ht =>
    cases ht with
    | spawn => simp [panics, handled?, Phase.isMarking]
    | broadcast => exact congrArg _ (countP_rouse rfl _).symm
    | _ => rfl
  | worker hp ht hw =>
    have hcount := hw.countP_add hp (f := Phase.isMarking) rfl
    have hstep := ht.panics_add
    rw [handled?_worker hp, Option.isSome_map]
    simp only [panics] at hstep ⊢
    omega
  | stir hp => exact congrArg _ ((Signal.wakes hp).countP_eq rfl).symm
  | caller hc ht hw =>
    have hcount := hw.countP_eq (f := Phase.isMarking) rfl
    cases ht <;> exact congrArg _ hcount.symm
  | _ => rfl

theorem WorkerStep.outcome_eq (h : WorkerStep pool id phase phase' signals after) :
    after.outcome = (pool.outcome && !phase.failing?.isSome) := by
  cases h with
  | markPanic | perish => exact (Bool.and_false _).symm
  | _ => exact (Bool.and_true _).symm

/-- The outcome is marked by somebody outside, or by a worker on behalf of a task that panicked. -/
theorem outcome_of_step? (hs : pool.step? action = some next) :
    next.outcome = (pool.outcome && !(action.isFail || (pool.handled? action).isSome)) := by
  cases transition_of_step? hs with
  | owner ht => cases ht <;> exact (Bool.and_true _).symm
  | worker hp ht =>
    rw [handled?_worker hp, Option.isSome_map]
    exact ht.outcome_eq
  | caller _ ht => cases ht <;> exact (Bool.and_true _).symm
  | fail => exact (Bool.and_false _).symm
  | _ => exact (Bool.and_true _).symm

/-- As long as no failure is marked, every panic is in the hands of a worker. -/
theorem Reachable.panics_eq (h : Reachable pool) (ho : pool.outcome = true) :
    pool.panics = pool.workers.countP Phase.isMarking := by
  induction h with
  | start => rfl
  | step action _ hs ih =>
    have hadd := panics_add_of_step? hs
    rw [outcome_of_step? hs, Bool.and_eq_true, Bool.not_eq_true', Bool.or_eq_false_iff] at ho
    rw [ih ho.1, ho.2.2, Bool.toNat_false] at hadd
    omega

theorem isIdle_of_drained (hc : pool.callers[id]? = some .checking)
    (hs : pool.step? (.caller id woken) = some next)
    (hd : next.callers[id]? = some (.finished .drained)) : pool.isIdle = true := by
  cases transition_of_step? hs with
  | owner ht => cases ht
  | caller hc' ht =>
    cases hc.symm.trans hc'
    have hlt := (List.getElem?_eq_some_iff.mp hc).1
    cases ht with
    | drain hi => exact hi
    | park => simp [hlt] at hd

/-- Every task that was accepted has run to its end, once, and every panic shows. -/
structure Drained (history : List (Event ε)) (pool : Pool ε) : Prop where
  nodup : pool.accepted.Nodup
  pulled : pool.pulled = pool.accepted
  finished : (pool.finished.map Prod.fst).Perm pool.accepted
  performed : ∀ task ∈ history.filterMap Event.accepted?, Performed history pool task
  released : ∀ phase ∈ pool.workers, phase.current? = none
  outcome : ∀ ticket cause, (ticket, .panicked cause) ∈ pool.finished → pool.outcome = false

theorem Reachable.current?_of_working_eq_zero (h : Reachable pool) (hw : pool.working = 0) :
    ∀ phase ∈ pool.workers, phase.current? = none := by
  intro phase hm
  have hidle := List.countP_eq_zero.mp (h.counted.working.symm.trans hw)
  refine Option.eq_none_iff_forall_ne_some.mpr fun ticket hc => ?_
  exact hidle phase hm (Phase.isWorking_of_current? hc)

theorem Reachable.outcome_of_panicked (h : Reachable pool) (hw : pool.working = 0)
    {ticket : Ticket} {cause : Cause} (hm : (ticket, .panicked cause) ∈ pool.finished) :
    pool.outcome = false := by
  have hidle := List.countP_eq_zero.mp (h.counted.working.symm.trans hw)
  by_contra ho
  have hpos : 0 < pool.panics := List.countP_pos_iff.mpr ⟨_, hm, rfl⟩
  rw [h.panics_eq (by simpa using ho)] at hpos
  obtain ⟨phase, hp, hmark⟩ := List.countP_pos_iff.mp hpos
  exact hidle phase hp (Phase.isWorking_of_isMarking hmark)

theorem Run.drained_of_isIdle (h : Run history pool) (hs : pool.shutdown = false)
    (hi : pool.isIdle = true) : Drained history pool := by
  obtain ⟨ht, hw⟩ := isIdle_iff.mp hi
  have hc := h.reachable.hasCleared_of_not_shutdown hs
  have htaken := h.accepted_eq hc
  rw [ht, List.append_nil] at htaken
  have hpulled : pool.pulled = pool.accepted := by
    rw [← h.recorded.accepted, ← h.recorded.taken, htaken]
  refine ⟨h.reachable.nodup_accepted, hpulled, ?_, ?_, ?_, ?_⟩
  · exact hpulled ▸ h.reachable.finished_perm_pulled hw
  · intro task hm
    rw [htaken] at hm
    obtain ⟨event, hm, he⟩ := List.mem_filterMap.mp hm
    obtain ⟨worker, rfl⟩ := Event.taken?_eq_some_iff.mp he
    exact h.performed hw hm
  · exact h.reachable.current?_of_working_eq_zero hw
  · intro ticket cause hm
    exact h.reachable.outcome_of_panicked hw hm

/-- When a call that waits for a pool returns, and the pool is not destroyed, all that was accepted
up to then has ended. -/
theorem Run.drained (h : Run history pool) (hs : pool.shutdown = false)
    (hc : pool.callers[id]? = some .checking) (ht : pool.step? (.caller id woken) = some next)
    (hd : next.callers[id]? = some (.finished .drained)) : Drained history pool :=
  h.drained_of_isIdle hs (isIdle_of_drained hc ht hd)

/-- Two workers; a task submits another one and panics after that one has ended. Then a caller
waits. -/
def nestedPanic : List (Action Nat) :=
  List.flatten [[.spawn none, .spawn none, .owner],
    List.replicate 3 (.worker 0 none), List.replicate 3 (.worker 1 none), [.owner, .owner],
    List.replicate 2 (.worker 1 none),
    [.call (.submit (.submit .done (.panic (.text "boom")))), .caller 0 none, .caller 0 (some 1)],
    List.replicate 6 (.worker 1 none), List.replicate 7 (.worker 0 none),
    List.replicate 4 (.worker 1 none), [.call .wait]]

theorem drained_nestedPanic :
    ∃ (history : List (Event Nat)) (pool next : Pool Nat), Run history pool ∧
      pool.shutdown = false ∧ pool.callers[1]? = some .checking ∧
      pool.step? (.caller 1 none) = some next ∧
      next.callers[1]? = some (.finished .drained) ∧
      pool.finished = [(1, .returned), (0, .panicked (.text "boom"))] ∧ Drained history pool := by
  have hstart : Run [] (start 2 false : Pool Nat) := .start false (by decide)
  obtain ⟨pool, hr, ht⟩ := hstart.exists_of_play? nestedPanic
    (fun pool => pool.shutdown = false ∧ pool.callers[1]? = some .checking ∧
      (pool.step? (.caller 1 none)).any (·.callers[1]? = some (.finished .drained)) ∧
      pool.finished = [(1, .returned), (0, .panicked (.text "boom"))])
    (by decide +kernel)
  obtain ⟨hs, hc, hn, hf⟩ := of_decide_eq_true ht
  obtain ⟨next, hn, hd⟩ := (Option.any_eq_true _ _).mp hn
  have hd := of_decide_eq_true hd
  exact ⟨_, pool, next, hr, hs, hc, hn, hd, hf, hr.drained hs hc hn hd⟩

end Pool
end TreePool
