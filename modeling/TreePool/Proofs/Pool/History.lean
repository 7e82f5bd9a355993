import TreePool.Proofs.Pool.Tickets

/-! # Histories of a pool

A run of a pool leaves a history: which tasks were accepted, which worker took which task, and what
it did for it. The history of one worker, continued by what the worker still owes, is the plain
sequence of all that its tasks do, in the order in which it took them. So every task that was taken
is performed from the start to the end, once, by the worker that took it; and the one worker of a
pool of size one performs the tasks one after the other in the order in which they were accepted.
-/

namespace TreePool

variable {ε : Type}

inductive Deed (ε : Type) where
  | act (effect : ε)
  | submit (body : Body ε)
  | finish (ending : Ending)
deriving DecidableEq, Repr

def Body.deeds : Body ε → List (Deed ε)
  | .done => [.finish .returned]
  | .panic cause => [.finish (.panicked cause)]
  | .act effect next => .act effect :: next.deeds
  | .submit task next => .submit task :: next.deeds

inductive Event (ε : Type) where
  | accepted (task : Task ε)
  | taken (worker : Nat) (task : Task ε)
  | did (worker : Nat) (ticket : Ticket) (deed : Deed ε)
deriving DecidableEq, Repr

namespace Event

def accepted? : Event ε → Option (Task ε)
  | .accepted task => some task
  | _ => none

def taken? : Event ε → Option (Task ε)
  | .taken _ task => some task
  | _ => none

def ended? : Event ε → Option (Ticket × Ending)
  | .did _ ticket (.finish ending) => some (ticket, ending)
  | _ => none

def effect? : Event ε → Option ε
  | .did _ _ (.act effect) => some effect
  | _ => none

def isWork : Event ε → Bool
  | .accepted _ => false
  | _ => true

def isBy (worker : Nat) : Event ε → Bool
  | .accepted _ => false
  | .taken taker _ => taker == worker
  | .did doer _ _ => doer == worker

def isFor (ticket : Ticket) : Event ε → Bool
  | .accepted _ => false
  | .taken _ task => task.ticket == ticket
  | .did _ held _ => held == ticket

end Event

def Task.performance (worker : Nat) (task : Task ε) : List (Event ε) :=
  .taken worker task :: task.body.deeds.map (.did worker task.ticket)

def Phase.owed (worker : Nat) : Phase ε → List (Event ε)
  | .running ticket body => body.deeds.map (.did worker ticket)
  | .pushing ticket _ next => next.deeds.map (.did worker ticket)
  | _ => []

def Phase.events (worker : Nat) (queue : List (Task ε)) : Phase ε → List (Event ε)
  | .pulling => queue.head?.toList.map (.taken worker)
  | .running ticket body => (body.deeds.take 1).map (.did worker ticket)
  | .pushing _ task _ => [.accepted task]
  | _ => []

def Caller.events : Caller ε → List (Event ε)
  | .pushing task => [.accepted task]
  | _ => []

namespace Pool

variable {pool next after : Pool ε} {action : Action ε} {history : List (Event ε)}
variable {id worker : Nat} {phase phase' : Phase ε} {signals : Bool} {woken : Option Nat}
variable {workers workers' : List (Phase ε)} {caller caller' : Caller ε}

def events (pool : Pool ε) : Action ε → List (Event ε)
  | .worker id _ => pool.workers[id]?.elim [] (Phase.events id pool.queue.tasks)
  | .caller id _ => pool.callers[id]?.elim [] Caller.events
  | _ => []

/-- The states that a pool can get into, each with a history of how it got there. -/
inductive Run : List (Event ε) → Pool ε → Prop where
  | start {size : Nat} (fragile : Bool) (h : 1 ≤ size) : Run [] (Pool.start size fragile)
  | step {history : List (Event ε)} {pool next : Pool ε} (action : Action ε) :
      Run history pool → pool.step? action = some next → Run (history ++ pool.events action) next

theorem Run.reachable (h : Run history pool) : Reachable pool := by
  induction h with
  | start fragile h => exact .start fragile h
  | step action _ hs ih => exact ih.step action hs

theorem Reachable.exists_run (h : Reachable pool) : ∃ history, Run history pool := by
  induction h with
  | start fragile h => exact ⟨[], .start fragile h⟩
  | step action _ hs ih =>
    obtain ⟨history, hr⟩ := ih
    exact ⟨_, hr.step action hs⟩

/-- What the steps of a worker do to what it owes: a task that it takes is added as a whole, and
what it does is taken off the front. -/
theorem WorkerStep.owed_eq (h : WorkerStep pool id phase phase' signals after) :
    (phase.events id pool.queue.tasks).filter (Event.isBy id) ++ phase'.owed id =
      phase.owed id ++ (((phase.events id pool.queue.tasks).filter (Event.isBy id)).filterMap
        Event.taken?).flatMap (Task.performance id) := by
  cases h with
  | pull ht =>
    simp [Phase.events, Phase.owed, Task.performance, ht, Event.isBy, Event.taken?]
  | complete | panic | act | refuse | offer =>
    simp [Phase.events, Phase.owed, Body.deeds, Event.isBy, Event.taken?]
  | push => simp [Phase.events, Phase.owed, Event.isBy, Event.taken?]
  | miss ht => simp [Phase.events, Phase.owed, ht]
  | part => cases pool.fragile <;> rfl
  | _ => rfl

def owed (workers : List (Phase ε)) (worker : Nat) : List (Event ε) :=
  workers[worker]?.elim [] (Phase.owed worker)

theorem owed_of_getElem? (hp : workers[id]? = some phase) : owed workers id = phase.owed id := by
  rw [owed, hp]
  rfl

theorem owed_set_self (hp : workers[id]? = some phase) :
    owed (workers.set id phase') id = phase'.owed id :=
  owed_of_getElem? (List.getElem?_set_self (List.getElem?_eq_some_iff.mp hp).1)

theorem owed_set_ne (hn : id ≠ worker) :
    owed (workers.set id phase') worker = owed workers worker := by
  rw [owed, List.getElem?_set_ne hn, owed]

theorem owed_concat_spawned : owed (workers ++ [.spawned]) worker = owed workers worker := by
  by_cases hl : worker < workers.length
  · rw [owed, List.getElem?_append_left hl, owed]
  · have hn : workers[worker]? = none := List.getElem?_eq_none (Nat.le_of_not_lt hl)
    rw [owed, List.getElem?_append_right (Nat.le_of_not_lt hl), owed, hn]
    cases worker - workers.length <;> rfl

theorem owed_map_rouse : owed (workers.map Phase.rouse) worker = owed workers worker := by
  rw [owed, List.getElem?_map, owed]
  cases workers[worker]? with
  | none => rfl
  | some phase =>
    cases phase with
    | atGate stance => cases stance <;> rfl
    | _ => rfl

theorem Signal.owed_eq (h : Signal signals workers woken workers') :
    owed workers' worker = owed workers worker := by
  cases h with
  | silent => rfl
  | unheard => rfl
  | @wakes _ id hp =>
    by_cases hi : id = worker
    · subst hi
      rw [owed_set_self hp, owed_of_getElem? hp]
      rfl
    · exact owed_set_ne hi

theorem isBy_of_mem_events {event : Event ε} {queue : List (Task ε)}
    (he : event ∈ phase.events id queue) (hb : event.isBy worker) : worker = id := by
  cases phase <;> simp only [Phase.events, List.mem_map, List.mem_singleton, List.not_mem_nil] at he
  case pulling =>
    obtain ⟨task, _, rfl⟩ := he
    exact (beq_iff_eq.mp hb).symm
  case running =>
    obtain ⟨deed, _, rfl⟩ := he
    exact (beq_iff_eq.mp hb).symm
  case pushing =>
    subst he
    cases hb

theorem filter_isBy_events {queue : List (Task ε)} (hn : id ≠ worker) :
    (phase.events id queue).filter (Event.isBy worker) = [] :=
  List.filter_eq_nil_iff.mpr fun _ he hb => hn (isBy_of_mem_events he hb).symm

theorem Caller.filter_isBy_events : caller.events.filter (Event.isBy worker) = [] := by
  cases caller <;> rfl

theorem Caller.filterMap_taken?_events : caller.events.filterMap Event.taken? = [] := by
  cases caller <;> rfl

theorem events_worker (hp : pool.workers[id]? = some phase) :
    pool.events (.worker id woken) = phase.events id pool.queue.tasks := by
  simp [events, hp]

theorem events_caller (hc : pool.callers[id]? = some caller) :
    pool.events (.caller id woken) = caller.events := by
  simp [events, hc]

theorem events_of_ownerStep (h : OwnerStep pool action next) : pool.events action = [] := by
  cases h <;> rfl

def takenBy (worker : Nat) (history : List (Event ε)) : List (Task ε) :=
  (history.filter (Event.isBy worker)).filterMap Event.taken?

/-- The history of a worker and what it owes are together all that its tasks do, one after the
other in the order in which it took them. -/
theorem Run.filter_isBy_append_owed (h : Run history pool) (worker : Nat) :
    history.filter (Event.isBy worker) ++ owed pool.workers worker =
      (takenBy worker history).flatMap (Task.performance worker) := by
  induction h with
  | start => rfl
  | @step history pool _ action _ hs ih =>
    unfold takenBy at ih ⊢
    cases transition_of_step? hs with
    | owner ht =>
      rw [events_of_ownerStep ht, List.append_nil, ← ih]
      cases ht with
      | spawn => rw [owed_concat_spawned]
      | broadcast => rw [owed_map_rouse]
      | _ => rfl
    | @worker id phase phase' _ after _ workers hp ht hw =>
      change _ ++ owed workers worker = _
      rw [events_worker hp, hw.owed_eq, List.filter_append]
      by_cases hn : id = worker
      · subst hn
        rw [List.filterMap_append, List.flatMap_append, ← ih, owed_set_self hp,
          owed_of_getElem? hp, List.append_assoc, List.append_assoc, ht.owed_eq]
      · rw [owed_set_ne hn, filter_isBy_events hn, List.append_nil, ih]
    | caller hc ht hw =>
      rw [events_caller hc, List.filter_append, Caller.filter_isBy_events, List.append_nil, ← ih]
      exact congrArg _ hw.owed_eq
    | stir hp =>
      simp only [events, List.append_nil, ← ih]
      exact congrArg _ (Signal.wakes hp).owed_eq
    | _ => simpa [events] using ih

/-! ## The history and the state -/

/-- The history tells what the pool keeps of its tasks. -/
structure Recorded (history : List (Event ε)) (pool : Pool ε) : Prop where
  accepted : (history.filterMap Event.accepted?).map Task.ticket = pool.accepted
  taken : (history.filterMap Event.taken?).map Task.ticket = pool.pulled
  ended : history.filterMap Event.ended? = pool.finished

theorem WorkerStep.recorded (h : WorkerStep pool id phase phase' signals after)
    (hr : Recorded history pool) :
    Recorded (history ++ phase.events id pool.queue.tasks) after := by
  obtain ⟨ha, ht, he⟩ := hr
  cases h with
  | miss hq | pull hq =>
    constructor <;> simp [Phase.events, hq, Event.accepted?, Event.taken?, Event.ended?, ha, ht, he]
  | complete | panic | act | refuse | offer | push =>
    constructor <;>
      simp [Phase.events, Body.deeds, Event.accepted?, Event.taken?, Event.ended?, ha, ht, he]
  | _ => constructor <;> simpa [Phase.events]

theorem CallerStep.recorded (h : CallerStep pool caller caller' signals after)
    (hr : Recorded history pool) : Recorded (history ++ caller.events) after := by
  obtain ⟨ha, ht, he⟩ := hr
  cases h with
  | push =>
    constructor <;> simp [Caller.events, Event.accepted?, Event.taken?, Event.ended?, ha, ht, he]
  | _ => constructor <;> simpa [Caller.events]

theorem Run.recorded (h : Run history pool) : Recorded history pool := by
  induction h with
  | start => exact ⟨rfl, rfl, rfl⟩
  | step action _ hs ih =>
    obtain ⟨ha, ht, he⟩ := ih
    cases transition_of_step? hs with
    | owner hstep =>
      rw [events_of_ownerStep hstep, List.append_nil]
      cases hstep <;> exact ⟨ha, ht, he⟩
    | worker hp hstep =>
      rw [events_worker hp]
      obtain ⟨ha, ht, he⟩ := hstep.recorded ⟨ha, ht, he⟩
      exact ⟨ha, ht, he⟩
    | caller hc hstep =>
      rw [events_caller hc]
      obtain ⟨ha, ht, he⟩ := hstep.recorded ⟨ha, ht, he⟩
      exact ⟨ha, ht, he⟩
    | _ =>
      simp only [events, List.append_nil]
      exact ⟨ha, ht, he⟩

theorem WorkerStep.tasks_append (h : WorkerStep pool id phase phase' signals after) :
    pool.queue.tasks ++ (phase.events id pool.queue.tasks).filterMap Event.accepted? =
      (phase.events id pool.queue.tasks).filterMap Event.taken? ++ after.queue.tasks := by
  cases h with
  | pull ht => simp [Phase.events, Event.accepted?, Event.taken?, ht, GatedQueue.tasks_pull ht]
  | miss ht => simp [Phase.events, ht]
  | push => rfl
  | _ => exact List.append_nil _

theorem CallerStep.tasks_append (h : CallerStep pool caller caller' signals after) :
    pool.queue.tasks ++ caller.events.filterMap Event.accepted? =
      caller.events.filterMap Event.taken? ++ after.queue.tasks := by
  cases h with
  | push => rfl
  | _ => exact List.append_nil _

/-- The accepted tasks are those that were taken, those that were dropped, and those that are
queued, in this order. -/
theorem Run.exists_accepted_eq (h : Run history pool) :
    ∃ dropped, dropped.map Task.ticket = pool.dropped ∧ history.filterMap Event.accepted? =
      history.filterMap Event.taken? ++ dropped ++ pool.queue.tasks := by
  induction h with
  | start => exact ⟨[], rfl, rfl⟩
  | @step history pool _ action hr hs ih =>
    obtain ⟨dropped, hd, ih⟩ := ih
    cases transition_of_step? hs with
    | owner ht =>
      rw [events_of_ownerStep ht, List.append_nil]
      cases ht with
      | clear | unwind => exact ⟨dropped ++ pool.queue.tasks, by simp [hd], by simp [ih]⟩
      | _ => exact ⟨dropped, hd, ih⟩
    | worker hp ht =>
      rw [events_worker hp]
      -- No worker is left to take a step once tasks have been dropped.
      have hnil := hr.reachable.dropped_eq (hr.reachable.hasCleared_eq_false hp ht.isOver_eq)
      refine ⟨dropped, hd.trans ht.dropped_eq.symm, ?_⟩
      rw [List.map_eq_nil_iff.mp (hd.trans hnil), List.append_nil] at ih ⊢
      rw [List.filterMap_append, List.filterMap_append, ih, List.append_assoc, ht.tasks_append,
        List.append_assoc]
    | caller hc ht =>
      rw [events_caller hc]
      refine ⟨dropped, hd.trans ht.dropped_eq.symm, ?_⟩
      have htasks := ht.tasks_append
      rw [Caller.filterMap_taken?_events, List.nil_append] at htasks
      rw [List.filterMap_append, List.filterMap_append, ih, List.append_assoc, htasks,
        Caller.filterMap_taken?_events, List.append_nil]
    | _ => exact ⟨dropped, hd, by simpa [events] using ih⟩

/-- Until the queue is cleared, the accepted tasks are those that were taken and those that are
queued, in this order. -/
theorem Run.accepted_eq (h : Run history pool) (hc : pool.owner.hasCleared = false) :
    history.filterMap Event.accepted? = history.filterMap Event.taken? ++ pool.queue.tasks := by
  obtain ⟨dropped, hd, ha⟩ := h.exists_accepted_eq
  rw [h.reachable.dropped_eq hc] at hd
  rw [ha, List.map_eq_nil_iff.mp hd, List.append_nil]

theorem Run.lt_size (h : Run history pool) {event : Event ε} (he : event ∈ history)
    (hb : event.isBy worker) : worker < pool.size := by
  induction h with
  | start => cases he
  | @step history pool _ action hr hs ih =>
    rw [size_eq_of_step? hs]
    rcases List.mem_append.mp he with he | he
    · exact ih he
    cases transition_of_step? hs with
    | owner ht =>
      rw [events_of_ownerStep ht] at he
      cases he
    | worker hp ht =>
      rw [events_worker hp] at he
      rw [isBy_of_mem_events he hb]
      exact Nat.lt_of_lt_of_le (List.getElem?_eq_some_iff.mp hp).1 hr.reachable.length_le_size
    | caller hc ht =>
      rw [events_caller hc] at he
      exact absurd hb (List.filter_eq_nil_iff.mp Caller.filter_isBy_events event he)
    | _ => simp [events] at he

/-- The acts of the workers in the history are what the steps do outside the pool. -/
theorem filterMap_effect?_events :
    (pool.events action).filterMap Event.effect? = (pool.effect? action).toList := by
  cases action with
  | worker id woken =>
    cases hp : pool.workers[id]? with
    | none => simp [events, effect?, hp]
    | some phase =>
      rw [events_worker hp]
      cases phase with
      | pulling =>
        cases ht : pool.queue.tasks <;> simp [effect?, hp, Phase.events, Event.effect?]
      | running ticket body =>
        cases body <;> simp [effect?, hp, Phase.events, Body.deeds, Event.effect?]
      | _ => simp [effect?, hp, Phase.events, Event.effect?]
  | caller id woken =>
    cases hc : pool.callers[id]? with
    | none => simp [events, effect?, hc]
    | some caller =>
      rw [events_caller hc]
      cases caller <;> rfl
  | _ => rfl

/-! ## Histories of given steps -/

def record (pool : Pool ε) : List (Action ε) → List (Event ε)
  | [] => []
  | action :: rest =>
    pool.events action ++ (pool.step? action).elim [] fun next => next.record rest

theorem Run.play? (h : Run history pool) {actions : List (Action ε)}
    (hp : pool.play? actions = some next) : Run (history ++ pool.record actions) next := by
  induction actions generalizing history pool with
  | nil =>
    rw [record, List.append_nil]
    exact Option.some.inj hp ▸ h
  | cons action actions ih =>
    obtain ⟨between, hs, hp⟩ := after?_cons_eq_some_iff.mp hp
    rw [record, hs, ← List.append_assoc]
    exact ih (h.step action hs) hp

theorem Run.exists_of_play? (h : Run history pool) (actions : List (Action ε))
    (test : Pool ε → Bool) (ht : (pool.play? actions).any test = true) :
    ∃ next, Run (history ++ pool.record actions) next ∧ test next = true := by
  obtain ⟨next, hp, ht⟩ := (Option.any_eq_true _ _).mp ht
  exact ⟨next, h.play? hp, ht⟩

end Pool
end TreePool
