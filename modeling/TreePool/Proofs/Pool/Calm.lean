import TreePool.Proofs.Pool.Drain

/-! # Panics make no difference

A panic is caught, logged and marked, and unless what the body panicked with cannot be dropped, the
worker then goes on as if the body had returned. To say so, `Pool.calm` takes all such panics out of
a state: bodies return where they would panic, and a worker that has caught a panic has merely ended
a body. Apart from the two steps in which a worker handles such a panic, which nobody else takes
part in, the steps of a pool and of its calm counterpart are the same: `Pool.map_calm_step?`.
-/

namespace TreePool

variable {ε : Type}

/-- A body that returns where the given one would panic, and submits only such bodies. It keeps the
panics that cost a worker. -/
def Body.calm : Body ε → Body ε
  | .done => .done
  | .panic .explosive => .panic .explosive
  | .panic _ => .done
  | .act effect next => .act effect next.calm
  | .submit task next => .submit task.calm next.calm

def Task.calm (task : Task ε) : Task ε := ⟨task.ticket, task.body.calm⟩

/-- A worker that handles a panic counts as one that has ended a body. -/
def Phase.calm : Phase ε → Phase ε
  | .running ticket body => .running ticket body.calm
  | .pushing ticket task next => .pushing ticket task.calm next.calm
  | .caught ticket .explosive => .caught ticket .explosive
  | .caught _ _ => .resting
  | .failing ticket .explosive => .failing ticket .explosive
  | .failing _ _ => .resting
  | phase => phase

def Caller.calm : Caller ε → Caller ε
  | .offering task => .offering task.calm
  | .pushing task => .pushing task.calm
  | caller => caller

def GatedQueue.calm (queue : GatedQueue (Task ε)) : GatedQueue (Task ε) :=
  ⟨queue.tasks.map Task.calm, queue.gate⟩

def Action.calm : Action ε → Action ε
  | .call (.submit body) => .call (.submit body.calm)
  | action => action

def Ending.calm : Ending → Ending
  | .panicked .explosive => .panicked .explosive
  | _ => .returned

def Notice.isCalmed : Notice → Bool
  | .taskPanicked _ cause => !cause.isExplosive
  | _ => false

def Phase.isCalmed : Phase ε → Bool
  | .caught _ cause | .failing _ cause => !cause.isExplosive
  | _ => false

@[simp] theorem Body.calm_calm (body : Body ε) : body.calm.calm = body.calm := by
  induction body with
  | done => rfl
  | panic cause => cases cause <;> rfl
  | act effect next ih => rw [calm, calm, ih]
  | submit task next iht ihn => rw [calm, calm, iht, ihn]

@[simp] theorem Task.calm_calm (task : Task ε) : task.calm.calm = task.calm := by
  simp [Task.calm]

@[simp] theorem Phase.calm_calm (phase : Phase ε) : phase.calm.calm = phase.calm := by
  cases phase with
  | caught ticket cause | failing ticket cause => cases cause <;> rfl
  | _ => simp [Phase.calm]

@[simp] theorem Ending.calm_calm (ending : Ending) : ending.calm.calm = ending.calm := by
  rcases ending with _ | (_ | _ | _) <;> rfl

@[simp] theorem Caller.calm_calm (caller : Caller ε) : caller.calm.calm = caller.calm := by
  cases caller <;> simp [Caller.calm]

@[simp] theorem GatedQueue.calm_calm (queue : GatedQueue (Task ε)) :
    queue.calm.calm = queue.calm := by
  simp [GatedQueue.calm]

@[simp] theorem Action.calm_calm (action : Action ε) : action.calm.calm = action.calm := by
  cases action with
  | call request => cases request <;> simp [Action.calm]
  | _ => rfl

namespace Phase

@[simp] theorem isAsleep_calm (phase : Phase ε) : phase.calm.isAsleep = phase.isAsleep := by
  cases phase with
  | caught ticket cause | failing ticket cause => cases cause <;> rfl
  | _ => rfl

@[simp] theorem hasReported_calm (phase : Phase ε) :
    phase.calm.hasReported = phase.hasReported := by
  cases phase with
  | caught ticket cause | failing ticket cause => cases cause <;> rfl
  | _ => rfl

@[simp] theorem calm_rouse (phase : Phase ε) : phase.rouse.calm = phase.calm.rouse := by
  cases phase with
  | atGate stance => cases stance <;> rfl
  | caught ticket cause | failing ticket cause => cases cause <;> rfl
  | _ => rfl

end Phase

@[simp] theorem Caller.calm_notify (caller : Caller ε) :
    caller.notify.calm = caller.calm.notify := by
  cases caller <;> rfl

@[simp] theorem Caller.isFinished_calm (caller : Caller ε) :
    caller.calm.isFinished = caller.isFinished := by
  cases caller <;> rfl

namespace Pool

variable {pool next : Pool ε} {action : Action ε} {id : Nat} {phase : Phase ε}

/-- The pool as it would be if no body had panicked and none was going to, but for panics that cost
a worker, and nobody had marked the outcome. -/
def calm (pool : Pool ε) : Pool ε :=
  { pool with
    queue := pool.queue.calm
    outcome := true
    workers := pool.workers.map Phase.calm
    callers := pool.callers.map Caller.calm
    finished := pool.finished.map fun entry => (entry.1, entry.2.calm)
    log := pool.log.filter (!·.isCalmed) }

def handles (pool : Pool ε) : Action ε → Bool
  | .worker id _ => pool.workers[id]?.any Phase.isCalmed
  | _ => false

@[simp] theorem calm_calm (pool : Pool ε) : pool.calm.calm = pool.calm := by
  simp [calm, List.filter_filter, Function.comp_def]

@[simp] theorem size_calm (pool : Pool ε) : pool.calm.size = pool.size := rfl

@[simp] theorem owner_calm (pool : Pool ε) : pool.calm.owner = pool.owner := rfl

@[simp] theorem shutdown_calm (pool : Pool ε) : pool.calm.shutdown = pool.shutdown := rfl

@[simp] theorem calm_fail (pool : Pool ε) : pool.fail.calm = pool.calm := rfl

@[simp] theorem calm_move (pool : Pool ε) (id : Nat) (phase : Phase ε) :
    (pool.move id phase).calm = pool.calm.move id phase.calm := by
  simp [calm, move, List.map_set]

@[simp] theorem calm_moveCaller (pool : Pool ε) (id : Nat) (caller : Caller ε) :
    (pool.moveCaller id caller).calm = pool.calm.moveCaller id caller.calm := by
  simp [calm, moveCaller, List.map_set]

@[simp] theorem getElem?_workers_calm (pool : Pool ε) (id : Nat) :
    pool.calm.workers[id]? = pool.workers[id]?.map Phase.calm := by
  simp [calm]

@[simp] theorem getElem?_callers_calm (pool : Pool ε) (id : Nat) :
    pool.calm.callers[id]? = pool.callers[id]?.map Caller.calm := by
  simp [calm]

theorem signalOne?_calm (pool : Pool ε) (woken : Option Nat) :
    pool.calm.signalOne? woken = (pool.signalOne? woken).map calm := by
  cases woken with
  | none =>
    have hany : pool.calm.workers.any Phase.isAsleep = pool.workers.any Phase.isAsleep := by
      simp [calm, List.any_map, Function.comp_def]
    simp only [signalOne?, hany]
    split_ifs <;> rfl
  | some worker =>
    simp only [signalOne?, getElem?_workers_calm]
    cases pool.workers[worker]? with
    | none => rfl
    | some phase =>
      cases phase with
      | atGate stance => cases stance <;> simp [Phase.calm]
      | caught ticket cause | failing ticket cause => cases cause <;> rfl
      | _ => rfl

/-! ## Steps -/

theorem spawn?_calm (pool : Pool ε) (failure : Option IoError) :
    pool.calm.spawn? failure = (pool.spawn? failure).map calm := by
  have hlength : pool.calm.workers.length = pool.workers.length := List.length_map _
  simp only [spawn?, hlength, owner_calm, size_calm]
  split_ifs
  · cases failure <;> simp [calm, Phase.calm]
  · rfl

theorem watch?_calm (pool : Pool ε) (late : Bool) :
    pool.calm.watch? late = (pool.watch? late).map calm := by
  by_cases ho : pool.owner = .watching
  · by_cases ha : pool.alive = 0
    · simp [watch?, ho, ha, calm]
    · cases late <;> cases hw : pool.warned <;>
        simp [watch?, ho, ha, calm, note, signalAll, hw, Notice.isCalmed, GatedQueue.calm,
          GatedQueue.post]
  · simp [watch?, ho]

theorem join?_calm (pool : Pool ε) (worker : Nat) :
    pool.calm.join? worker = (pool.join? worker).map calm := by
  simp only [join?, getElem?_workers_calm]
  cases pool.workers[worker]? with
  | none => rfl
  | some phase =>
    cases phase with
    | caught ticket cause | failing ticket cause => cases cause <;> rfl
    | _ => simp [Phase.calm, calm, note, Notice.isCalmed]

theorem owner?_calm (pool : Pool ε) : pool.calm.owner? = pool.owner?.map calm := by
  have hlength : pool.calm.workers.length = pool.workers.length := List.length_map _
  have hreported : pool.calm.workers.all Phase.hasReported =
      pool.workers.all Phase.hasReported := by
    simp [calm, Function.comp_def]
  simp only [owner?, hlength, hreported, join?_calm, owner_calm, size_calm]
  cases pool.owner with
  | spawning | gathering =>
    dsimp only
    split_ifs <;> rfl
  | lamenting => cases hf : pool.failure <;> simp [calm, note, hf, Notice.isCalmed]
  | sleeping notified => cases notified <;> rfl
  | clearing => simp [calm, GatedQueue.calm, GatedQueue.clear, Function.comp_def, Task.calm]
  | announcing | closing => simp [calm, note, Notice.isCalmed]
  | _ => rfl

theorem unwind?_calm (pool : Pool ε) : pool.calm.unwind? = pool.unwind?.map calm := by
  have htasks : pool.calm.queue.tasks ≠ [] ↔ pool.queue.tasks ≠ [] :=
    not_congr List.map_eq_nil_iff
  simp only [unwind?, htasks, owner_calm]
  split_ifs
  · simp [calm, GatedQueue.calm, Function.comp_def, Task.calm]
  · rfl

theorem enter_calm (pool : Pool ε) (id : Nat) : pool.calm.enter id = (pool.enter id).calm := by
  cases ha : pool.queue.gate.armed with
  | true =>
    rw [enter_of_armed ha, enter_of_armed (show pool.calm.queue.gate.armed = true from ha)]
    simp [calm, List.map_set, Phase.calm, GatedQueue.calm, GatedQueue.reset]
  | false =>
    rw [enter_of_closed ha, enter_of_closed (show pool.calm.queue.gate.armed = false from ha)]
    simp [calm, List.map_set, Phase.calm]

theorem pull?_calm (pool : Pool ε) (id : Nat) (woken : Option Nat) :
    pool.calm.pull? id woken = (pool.pull? id woken).map calm := by
  cases ht : pool.queue.tasks with
  | nil =>
    have ht' : pool.calm.queue.tasks = [] := by simp [calm, GatedQueue.calm, ht]
    simp only [pull?, GatedQueue.pull_of_nil ht, GatedQueue.pull_of_nil ht']
    split_ifs <;> simp [calm, move, List.map_set, Phase.calm]
  | cons task rest =>
    have ht' : pool.calm.queue.tasks = task.calm :: rest.map Task.calm := by
      simp [calm, GatedQueue.calm, ht]
    have hpulled : { pool.calm with
        queue := pool.calm.queue.pull.2
        pulled := pool.calm.pulled ++ [task.calm.ticket] }.move id
          (.running task.calm.ticket task.calm.body) =
        ({ pool with
          queue := pool.queue.pull.2
          pulled := pool.pulled ++ [task.ticket] }.move id
            (.running task.ticket task.body)).calm := by
      simp [calm, move, List.map_set, Phase.calm, GatedQueue.calm, GatedQueue.pull, ht, Task.calm]
    have hempty : pool.calm.queue.pull.2.isEmpty = pool.queue.pull.2.isEmpty := by
      rw [GatedQueue.isEmpty, GatedQueue.isEmpty, GatedQueue.tasks_pull ht,
        GatedQueue.tasks_pull ht', List.isEmpty_map]
    simp only [pull?]
    rw [GatedQueue.pull_of_cons ht, GatedQueue.pull_of_cons ht']
    dsimp only
    rw [hempty, hpulled]
    split_ifs
    · rfl
    · rfl
    · rw [signalOne?_calm]

theorem run_calm (pool : Pool ε) (id : Nat) (ticket : Ticket) (body : Body ε) :
    pool.calm.run id ticket body.calm = (pool.run id ticket body).calm := by
  cases body with
  | done => simp [Body.calm, run, calm, move, List.map_set, Phase.calm, Ending.calm]
  | panic cause =>
    cases cause <;> simp [Body.calm, run, calm, move, List.map_set, Phase.calm, Ending.calm]
  | act => simp [Body.calm, run, Phase.calm]
  | submit body rest =>
    cases hs : pool.shutdown <;>
      simp [Body.calm, run, offer, refuse, calm, move, hs, List.map_set, Phase.calm, Task.calm]

theorem rest_calm (pool : Pool ε) (id : Nat) : pool.calm.rest id = (pool.rest id).calm := by
  rw [rest_eq, rest_eq]
  by_cases hw : pool.working - 1 = 0 <;>
    simp [calm, hw, List.map_set, Phase.calm, Function.comp_def]

theorem quietStep?_calm (pool : Pool ε) (id : Nat) (hm : phase.isCalmed = false)
    (hf : phase.failing? = none) :
    pool.calm.quietStep? id phase.calm = (pool.quietStep? id phase).map calm := by
  cases phase with
  | caught ticket cause =>
    cases cause with
    | text | other => cases hm
    | explosive =>
      simp [quietStep?, Phase.calm, calm, move, note, List.map_set, Notice.isCalmed,
        Cause.isExplosive]
  | failing => cases hf
  | running ticket body => simp [quietStep?, Phase.calm, run_calm]
  | atGate stance => cases stance <;> simp [quietStep?, Phase.calm, enter_calm]
  | resting => simp [quietStep?, Phase.calm, rest_calm]
  | looping | passed =>
    cases hs : pool.shutdown <;> simp [quietStep?, Phase.calm, hs]
  | leaving => simp [quietStep?, Phase.calm, calm, move, List.map_set]
  | parting =>
    cases hf : pool.fragile <;>
      simp [quietStep?, Phase.calm, calm, move, note, List.map_set, hf, Notice.isCalmed]
  | _ => simp [quietStep?, Phase.calm, calm, move, note, List.map_set, Notice.isCalmed]

theorem push_calm (pool : Pool ε) (task : Task ε) :
    pool.calm.push task.calm = (pool.push task).calm := by
  simp [calm, push, GatedQueue.calm, GatedQueue.push, Task.calm]

theorem worker?_calm (pool : Pool ε) (id : Nat) (woken : Option Nat)
    (hm : pool.handles (.worker id woken) = false)
    (hf : pool.handled? (.worker id woken) = none) :
    pool.calm.worker? id woken = (pool.worker? id woken).map calm := by
  simp only [worker?, getElem?_workers_calm]
  cases hp : pool.workers[id]? with
  | none => rfl
  | some phase =>
    have hphase : phase.isCalmed = false := by simpa [handles, hp] using hm
    have hfailing : phase.failing? = none := by simpa [handled?, hp] using hf
    have hquiet := quietStep?_calm pool id hphase hfailing
    cases phase with
    | pulling => exact pull?_calm pool id woken
    | pushing ticket task next =>
      simp only [Option.map_some, Phase.calm]
      rw [push_calm, ← signalOne?_calm, calm_move]
      rfl
    | caught ticket cause =>
      cases cause with
      | text | other => cases hphase
      | explosive =>
        simp only [Option.map_some, Phase.calm] at hquiet ⊢
        split_ifs
        · exact hquiet
        · rfl
    | failing => cases hfailing
    | _ =>
      simp only [Option.map_some, Phase.calm] at hquiet ⊢
      split_ifs
      · exact hquiet
      · rfl

theorem caller?_calm (pool : Pool ε) (id : Nat) (woken : Option Nat) :
    pool.calm.caller? id woken = (pool.caller? id woken).map calm := by
  have hidle : pool.calm.isIdle = pool.isIdle := by
    simp [isIdle, calm, GatedQueue.isEmpty, GatedQueue.calm]
  simp only [caller?, getElem?_callers_calm]
  cases hc : pool.callers[id]? with
  | none => rfl
  | some caller =>
    cases caller with
    | pushing task =>
      simp only [Option.map_some, Caller.calm]
      rw [push_calm, ← signalOne?_calm, calm_moveCaller]
      rfl
    | offering task =>
      cases hs : pool.shutdown <;>
        simp [Caller.calm, hs, calm, moveCaller, refuse, List.map_set, Task.calm, apply_ite]
    | checking =>
      cases hi : pool.isIdle <;> simp [Caller.calm, hidle, hi]
    | sleeping notified => cases notified <;> simp [Caller.calm]
    | finished => simp [Caller.calm]

theorem destroy?_calm (pool : Pool ε) : pool.calm.destroy? = pool.destroy?.map calm := by
  have hquiet : pool.calm.isQuiet = pool.isQuiet := by
    simp [isQuiet, calm, Function.comp_def]
  simp only [destroy?, hquiet, owner_calm]
  by_cases hq : pool.isQuiet
  · by_cases ho : pool.owner = .idle
    · simp [hq, ho, calm]
    · by_cases hd : pool.owner.isDone <;> simp [hq, ho, hd]
  · simp [hq]

/-- Where nobody handles a panic or marks the outcome, the calm counterpart of a pool takes the same
step. -/
theorem calm_step? (hm : pool.handles action = false) (hf : action ≠ .fail)
    (hh : pool.handled? action = none) :
    pool.calm.step? action.calm = (pool.step? action).map calm := by
  cases action with
  | spawn failure => exact spawn?_calm pool failure
  | owner => exact owner?_calm pool
  | watch late => exact watch?_calm pool late
  | expire =>
    simp only [Action.calm, step?, owner_calm]
    cases pool.owner <;> rfl
  | unwind => exact unwind?_calm pool
  | worker id woken => exact worker?_calm pool id woken hm hh
  | stir id =>
    simp only [Action.calm, step?, stir?, getElem?_workers_calm]
    cases pool.workers[id]? with
    | none => rfl
    | some phase =>
      cases phase with
      | atGate stance => cases stance <;> simp [Phase.calm]
      | caught ticket cause | failing ticket cause => cases cause <;> rfl
      | _ => rfl
  | call request =>
    by_cases ho : pool.owner = .idle ∨ (pool.owner.isDone ∧ pool.failure = none) <;>
      cases request <;> simp [Action.calm, step?, call?, offer, ho, calm, Caller.calm, Task.calm]
  | caller id woken => exact caller?_calm pool id woken
  | stirCaller id =>
    simp only [Action.calm, step?, stirCaller?, getElem?_callers_calm]
    cases pool.callers[id]? with
    | none => rfl
    | some caller => cases caller <;> simp [Caller.calm]
  | destroy => exact destroy?_calm pool
  | fail => exact absurd rfl hf

/-- A worker that is about to be lost marks the outcome, in the calm counterpart too. -/
theorem map_calm_worker?_of_failing {ticket : Ticket} (woken : Option Nat)
    (hp : pool.workers[id]? = some (.failing ticket .explosive)) :
    (pool.calm.worker? id woken).map calm = (pool.worker? id woken).map calm := by
  have hp' : pool.calm.workers[id]? = some (.failing ticket .explosive) := by
    rw [getElem?_workers_calm, hp]
    rfl
  simp only [worker?, hp, hp', quietStep?, Cause.isExplosive, if_true]
  split_ifs
  · simp
  · rfl

/-- Where nobody handles a panic and goes on, the calm counterpart of a pool takes the same step, if
it does not matter who marks the outcome. -/
theorem map_calm_step? (hm : pool.handles action = false) :
    (pool.calm.step? action.calm).map calm = (pool.step? action).map calm := by
  by_cases hf : action = .fail
  · subst hf
    exact congrArg some (calm_calm pool)
  · cases hh : pool.handled? action with
    | none =>
      rw [calm_step? hm hf hh, Option.map_map]
      congr 1
      funext next
      exact calm_calm next
    | some entry =>
      obtain ⟨id, woken, ticket, cause, rfl, hp⟩ := exists_failing_of_handled? hh
      have hcause : cause = .explosive := by
        rw [handles, hp] at hm
        cases cause with
        | text | other => cases hm
        | explosive => rfl
      subst hcause
      exact map_calm_worker?_of_failing woken hp

theorem effect?_calm (pool : Pool ε) (action : Action ε) :
    pool.calm.effect? action.calm = pool.effect? action := by
  cases action with
  | worker id woken =>
    simp only [Action.calm, effect?, getElem?_workers_calm]
    cases pool.workers[id]? with
    | none => rfl
    | some phase =>
      cases phase with
      | running ticket body =>
        cases body with
        | panic cause => cases cause <;> rfl
        | _ => rfl
      | caught ticket cause | failing ticket cause => cases cause <;> rfl
      | _ => rfl
  | call request => cases request <;> rfl
  | _ => rfl

/-! ## Handling a panic -/

theorem exists_worker_of_handles (hm : pool.handles action = true) :
    ∃ id woken phase, action = .worker id woken ∧ pool.workers[id]? = some phase ∧
      phase.isCalmed = true := by
  cases action with
  | worker id woken =>
    obtain ⟨phase, hp, hphase⟩ := (Option.any_eq_true _ _).mp hm
    exact ⟨id, woken, phase, rfl, hp, hphase⟩
  | _ => cases hm

theorem effect?_of_handles (hm : pool.handles action = true) : pool.effect? action = none := by
  obtain ⟨id, woken, phase, rfl, hp, hphase⟩ := exists_worker_of_handles hm
  rw [effect?, hp]
  cases phase with
  | caught | failing => rfl
  | _ => cases hphase

/-- A worker that handles a panic changes nothing but the log and the outcome. -/
theorem calm_of_handles (hm : pool.handles action = true) (hs : pool.step? action = some next) :
    next.calm = pool.calm := by
  obtain ⟨id, woken, phase, rfl, hp, hphase⟩ := exists_worker_of_handles hm
  have hcalm : pool.calm.workers[id]? = some .resting := by
    rw [getElem?_workers_calm, hp]
    cases phase with
    | caught ticket cause | failing ticket cause =>
      cases cause with
      | text | other => rfl
      | explosive => cases hphase
    | _ => cases hphase
  have hrest : pool.calm.workers.set id .resting = pool.calm.workers := by
    obtain ⟨hlt, heq⟩ := List.getElem?_eq_some_iff.mp hcalm
    rw [← heq, List.set_getElem_self]
  cases transition_of_step? hs with
  | owner ht => cases ht
  | worker hp' ht hw =>
    cases hp.symm.trans hp'
    cases ht with
    | @logPanic ticket cause =>
      cases hw
      cases cause with
      | text | other =>
        simpa [calm, List.map_set, Phase.calm, Notice.isCalmed, Cause.isExplosive] using hrest
      | explosive => cases hphase
    | markPanic =>
      cases hw
      simpa [calm, List.map_set, Phase.calm] using hrest
    | perish hc =>
      rw [Phase.isCalmed, hc] at hphase
      cases hphase
    | _ => cases hphase

theorem step?_of_caught {ticket : Ticket} {cause : Cause}
    (hp : pool.workers[id]? = some (.caught ticket cause)) : pool.step? (.worker id none) =
      some ((pool.note (.taskPanicked id cause)).move id (.failing ticket cause)) := by
  simp only [step?, worker?, hp, quietStep?, if_true]

theorem step?_of_failing {ticket : Ticket} {cause : Cause} (hc : cause.isExplosive = false)
    (hp : pool.workers[id]? = some (.failing ticket cause)) :
    pool.step? (.worker id none) = some (pool.fail.move id .resting) := by
  simp only [step?, worker?, hp, quietStep?, hc, if_true, Bool.false_eq_true, if_false]

theorem getElem?_workers_move (pool : Pool ε) {old : Phase ε} (hp : pool.workers[id]? = some old)
    (phase : Phase ε) : (pool.move id phase).workers[id]? = some phase :=
  List.getElem?_set_self (List.getElem?_eq_some_iff.mp hp).1

end Pool
end TreePool
