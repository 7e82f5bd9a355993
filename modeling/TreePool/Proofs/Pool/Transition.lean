import TreePool.Pool.Step
import TreePool.Proofs.Run
import Mathlib.Data.Bool.Basic
import Mathlib.Data.List.Basic

/-! # Transitions of a pool

The steps of a pool as rules: who moves, from which phase to which, under what condition, and what
becomes of the state that all threads share. `step?_eq_some_iff` says that the rules are exactly the
steps, so that a law about all steps is proved by going through the rules.
-/

namespace TreePool

def Owner.rouse : Owner → Owner
  | .sleeping _ => .sleeping true
  | owner => owner

namespace Pool

variable {ε : Type} {pool next : Pool ε}

/-- What a step does to the sleepers at the gate. A signal for one wakes one of them, and is lost
only when nobody sleeps. -/
inductive Signal : Bool → List (Phase ε) → Option Nat → List (Phase ε) → Prop
  | silent {workers} : Signal false workers none workers
  | unheard {workers} (h : workers.any Phase.isAsleep = false) : Signal true workers none workers
  | wakes {workers id} (h : workers[id]? = some (.atGate .asleep)) :
      Signal true workers (some id) (workers.set id (.atGate .awake))

/-- The rules for a worker: its phases before and after, whether it signals at the gate, and the
pool after the step but for the worker's own phase. -/
inductive WorkerStep (pool : Pool ε) (id : Nat) : Phase ε → Phase ε → Bool → Pool ε → Prop
  | count : WorkerStep pool id .spawned .counted false { pool with alive := pool.alive + 1 }
  | report : WorkerStep pool id .counted .greeting false pool
  | greet : WorkerStep pool id .greeting .looping false
      { pool with log := pool.log ++ [.workerStarted id] }
  | approach (h : pool.shutdown = false) :
      WorkerStep pool id .looping (.atGate .arriving) false pool
  | quit (h : pool.shutdown = true) : WorkerStep pool id .looping .leaving false pool
  | pass {stance} (hs : stance ≠ .asleep) (h : pool.queue.gate.armed = true) :
      WorkerStep pool id (.atGate stance) .passed false { pool with queue := pool.queue.reset }
  | doze {stance} (hs : stance ≠ .asleep) (h : pool.queue.gate.armed = false) :
      WorkerStep pool id (.atGate stance) (.atGate .asleep) false pool
  | proceed (h : pool.shutdown = false) : WorkerStep pool id .passed .entering false pool
  | retreat (h : pool.shutdown = true) : WorkerStep pool id .passed .leaving false pool
  | enter : WorkerStep pool id .entering .pulling false { pool with working := pool.working + 1 }
  | miss (h : pool.queue.tasks = []) : WorkerStep pool id .pulling .resting false pool
  | pull {task rest} (h : pool.queue.tasks = task :: rest) :
      WorkerStep pool id .pulling (.running task.ticket task.body) (!rest.isEmpty)
        { pool with queue := pool.queue.pull.2, pulled := pool.pulled ++ [task.ticket] }
  | complete {ticket} : WorkerStep pool id (.running ticket .done) .resting false
      { pool with finished := pool.finished ++ [(ticket, .returned)] }
  | panic {ticket cause} : WorkerStep pool id (.running ticket (.panic cause))
      (.caught ticket cause) false
      { pool with finished := pool.finished ++ [(ticket, .panicked cause)] }
  | act {ticket effect rest} : WorkerStep pool id (.running ticket (.act effect rest))
      (.running ticket rest) false pool
  | refuse {ticket body rest} (h : pool.shutdown = true) :
      WorkerStep pool id (.running ticket (.submit body rest)) (.running ticket rest) false
        { pool with offered := pool.offered + 1, refused := pool.refused ++ [pool.offered] }
  | offer {ticket body rest} (h : pool.shutdown = false) :
      WorkerStep pool id (.running ticket (.submit body rest))
        (.pushing ticket ⟨pool.offered, body⟩ rest) false { pool with offered := pool.offered + 1 }
  | push {ticket task rest} : WorkerStep pool id (.pushing ticket task rest)
      (.running ticket rest) true
      { pool with
        queue := pool.queue.push task
        accepted := pool.accepted ++ [task.ticket] }
  | logPanic {ticket cause} : WorkerStep pool id (.caught ticket cause) (.failing ticket cause)
      false { pool with log := pool.log ++ [.taskPanicked id cause] }
  | markPanic {ticket cause} (h : cause.isExplosive = false) :
      WorkerStep pool id (.failing ticket cause) .resting false { pool with outcome := false }
  | perish {ticket cause} (h : cause.isExplosive = true) :
      WorkerStep pool id (.failing ticket cause) .lost false { pool with outcome := false }
  | rest : WorkerStep pool id .resting .looping false
      { pool with
        working := pool.working - 1
        callers := if pool.working - 1 = 0 then pool.callers.map Caller.notify else pool.callers }
  | leave : WorkerStep pool id .leaving .parting false
      { pool with alive := pool.alive - 1, owner := pool.owner.rouse }
  | part : WorkerStep pool id .parting (if pool.fragile then .crashed else .ended) false
      { pool with log := pool.log ++ [.workerStopped id] }

/-- The rules for a caller: its state before and after, whether it signals at the gate, and the
pool after the step but for the caller's own state. -/
inductive CallerStep (pool : Pool ε) : Caller ε → Caller ε → Bool → Pool ε → Prop
  | refuse {task} (h : pool.shutdown = true) :
      CallerStep pool (.offering task) (.finished (.refused task.ticket)) false
        { pool with refused := pool.refused ++ [task.ticket] }
  | allow {task} (h : pool.shutdown = false) :
      CallerStep pool (.offering task) (.pushing task) false pool
  | push {task} :
      CallerStep pool (.pushing task) (.finished (.accepted task.ticket)) true
        { pool with
          queue := pool.queue.push task
          accepted := pool.accepted ++ [task.ticket] }
  | drain (h : pool.isIdle = true) : CallerStep pool .checking (.finished .drained) false pool
  | park (h : pool.isIdle = false) : CallerStep pool .checking (.sleeping false) false pool
  | recheck : CallerStep pool (.sleeping true) .checking false pool

inductive OwnerStep (pool : Pool ε) : Action ε → Pool ε → Prop
  | spawn (ho : pool.owner = .spawning) (h : pool.workers.length < pool.size) :
      OwnerStep pool (.spawn none) { pool with workers := pool.workers ++ [.spawned] }
  | balk {error} (ho : pool.owner = .spawning) (h : pool.workers.length < pool.size) :
      OwnerStep pool (.spawn (some error)) { pool with owner := .lamenting, failure := some error }
  | gather (ho : pool.owner = .spawning) (h : pool.workers.length = pool.size) :
      OwnerStep pool .owner { pool with owner := .gathering }
  | gathered (ho : pool.owner = .gathering) (h : pool.workers.all Phase.hasReported = true) :
      OwnerStep pool .owner { pool with owner := .announcing }
  | announce (ho : pool.owner = .announcing) : OwnerStep pool .owner
      { pool with owner := .idle, log := pool.log ++ [.poolReady pool.size] }
  | lament {error} (ho : pool.owner = .lamenting) (h : pool.failure = some error) :
      OwnerStep pool .owner
        { pool with owner := .raising, log := pool.log ++ [.cannotSpawn pool.workers.length error] }
  | giveUp (ho : pool.owner = .idle) (h : pool.isQuiet = true) :
      OwnerStep pool .destroy { pool with owner := .raising }
  | giveUpAgain (ho : pool.owner.isDone = true) (h : pool.isQuiet = true) :
      OwnerStep pool .destroy pool
  | raise (ho : pool.owner = .raising) :
      OwnerStep pool .owner { pool with shutdown := true, owner := .watching }
  | broadcast {late} (ho : pool.owner = .watching) (h : pool.alive ≠ 0) :
      OwnerStep pool (.watch late)
        { pool with
          queue := pool.queue.post
          owner := .sleeping false
          workers := pool.workers.map Phase.rouse
          warned := late || pool.warned
          log := if late && !pool.warned then pool.log ++ [.stillBusy pool.alive pool.working]
            else pool.log }
  | deserted {late} (ho : pool.owner = .watching) (h : pool.alive = 0) :
      OwnerStep pool (.watch late) { pool with owner := .joining 0 }
  | wake (ho : pool.owner = .sleeping true) : OwnerStep pool .owner { pool with owner := .watching }
  | expire {notified} (ho : pool.owner = .sleeping notified) :
      OwnerStep pool .expire { pool with owner := .watching }
  | join {worker} (ho : pool.owner = .joining worker) (h : pool.workers[worker]? = some .ended) :
      OwnerStep pool .owner { pool with owner := .joining (worker + 1) }
  | joinCrashed {worker phase} (ho : pool.owner = .joining worker)
      (h : pool.workers[worker]? = some phase) (hp : phase = .crashed ∨ phase = .lost) :
      OwnerStep pool .owner
        { pool with owner := .joining (worker + 1), log := pool.log ++ [.workerPanicked worker] }
  | joinedAll {worker} (ho : pool.owner = .joining worker) (h : pool.workers[worker]? = none) :
      OwnerStep pool .owner { pool with owner := .clearing }
  | clear (ho : pool.owner = .clearing) :
      OwnerStep pool .owner
        { pool with
          queue := pool.queue.clear
          dropped := pool.dropped ++ pool.queue.tasks.map Task.ticket
          owner := .closing }
  | unwind (ho : pool.owner = .clearing) (h : pool.queue.tasks ≠ []) :
      OwnerStep pool .unwind
        { pool with
          queue := ⟨[], pool.queue.gate⟩
          dropped := pool.dropped ++ pool.queue.tasks.map Task.ticket
          owner := .unwound }
  | close (ho : pool.owner = .closing) : OwnerStep pool .owner
      { pool with owner := .closed, log := pool.log ++ [.poolDestroyed pool.size] }

/-- Whether the pool takes calls: it has been built and is not being destroyed. -/
def IsOpen (pool : Pool ε) : Prop :=
  pool.owner = .idle ∨ (pool.owner.isDone ∧ pool.failure = none)

inductive Transition (pool : Pool ε) : Action ε → Pool ε → Prop
  | owner {action next} (h : OwnerStep pool action next) : Transition pool action next
  | worker {id phase phase' signals after woken workers}
      (hp : pool.workers[id]? = some phase) (h : WorkerStep pool id phase phase' signals after)
      (hw : Signal signals (pool.workers.set id phase') woken workers) :
      Transition pool (.worker id woken) { after with workers }
  | stir {id} (hp : pool.workers[id]? = some (.atGate .asleep)) :
      Transition pool (.stir id) { pool with workers := pool.workers.set id (.atGate .awake) }
  | callWait (h : pool.IsOpen) :
      Transition pool (.call .wait) { pool with callers := pool.callers ++ [.checking] }
  | callSubmit {body} (h : pool.IsOpen) :
      Transition pool (.call (.submit body))
        { pool with
          callers := pool.callers ++ [.offering ⟨pool.offered, body⟩]
          offered := pool.offered + 1 }
  | caller {id caller caller' signals after woken workers}
      (hc : pool.callers[id]? = some caller) (h : CallerStep pool caller caller' signals after)
      (hw : Signal signals pool.workers woken workers) :
      Transition pool (.caller id woken)
        { after with workers, callers := pool.callers.set id caller' }
  | stirCaller {id notified} (hc : pool.callers[id]? = some (.sleeping notified)) :
      Transition pool (.stirCaller id)
        { pool with callers := pool.callers.set id (.sleeping true) }
  | fail : Transition pool .fail { pool with outcome := false }

@[simp] theorem signalExit_eq (pool : Pool ε) :
    pool.signalExit = { pool with owner := pool.owner.rouse } := by
  unfold signalExit Owner.rouse
  cases h : pool.owner <;> simp [← h]

theorem signalOne?_eq_some_iff {woken : Option Nat} :
    pool.signalOne? woken = some next ↔
      ∃ workers, Signal true pool.workers woken workers ∧ { pool with workers } = next := by
  constructor
  · intro h
    unfold signalOne? at h
    split at h
    · split_ifs at h with ha
      exact ⟨_, .unheard (by simpa using ha), Option.some.inj h⟩
    · split at h
      · next hp => exact ⟨_, .wakes hp, Option.some.inj h⟩
      · cases h
  · rintro ⟨workers, hw, rfl⟩
    cases hw with
    | unheard ha => simp [signalOne?, ha]
    | wakes hp => simp [signalOne?, hp, move]

theorem enter_of_armed {id : Nat} (h : pool.queue.gate.armed = true) :
    pool.enter id =
      { pool with queue := pool.queue.reset, workers := pool.workers.set id .passed } := by
  rw [enter, GatedQueue.pass?_of_armed h]
  rfl

theorem enter_of_closed {id : Nat} (h : pool.queue.gate.armed = false) :
    pool.enter id = { pool with workers := pool.workers.set id (.atGate .asleep) } := by
  rw [enter, GatedQueue.pass?_of_closed h]
  rfl

theorem quietStep?_atGate {id : Nat} {stance : Stance} (h : stance ≠ .asleep) :
    pool.quietStep? id (.atGate stance) = some (pool.enter id) := by
  cases stance
  · rfl
  · contradiction
  · rfl

theorem rest_eq (pool : Pool ε) (id : Nat) :
    pool.rest id =
      { pool with
        working := pool.working - 1
        workers := pool.workers.set id .looping
        callers := if pool.working - 1 = 0 then pool.callers.map Caller.notify
          else pool.callers } := by
  rw [rest]
  split_ifs with h₁ h₂ h₂
  · rfl
  · exact absurd h₁ h₂
  · exact absurd h₂ h₁
  · rfl

theorem workerStep_of_quietStep? {id : Nat} {phase : Phase ε} :
    pool.quietStep? id phase = some next → ∃ phase' after,
      WorkerStep pool id phase phase' false after ∧
        { after with workers := pool.workers.set id phase' } = next := by
  intro h
  cases phase with
  | spawned => exact ⟨_, _, .count, Option.some.inj h⟩
  | counted => exact ⟨_, _, .report, Option.some.inj h⟩
  | greeting => exact ⟨_, _, .greet, Option.some.inj h⟩
  | looping =>
    cases hs : pool.shutdown <;> simp only [quietStep?, hs] at h
    · exact ⟨_, _, .approach hs, Option.some.inj h⟩
    · exact ⟨_, _, .quit hs, Option.some.inj h⟩
  | atGate stance =>
    have hs : stance ≠ .asleep := by rintro rfl; simp [quietStep?] at h
    rw [quietStep?_atGate hs] at h
    cases ha : pool.queue.gate.armed with
    | true => exact ⟨_, _, .pass hs ha, (enter_of_armed ha).symm.trans (Option.some.inj h)⟩
    | false => exact ⟨_, _, .doze hs ha, (enter_of_closed ha).symm.trans (Option.some.inj h)⟩
  | passed =>
    cases hs : pool.shutdown <;> simp only [quietStep?, hs] at h
    · exact ⟨_, _, .proceed hs, Option.some.inj h⟩
    · exact ⟨_, _, .retreat hs, Option.some.inj h⟩
  | entering => exact ⟨_, _, .enter, Option.some.inj h⟩
  | running ticket body =>
    cases body with
    | done => exact ⟨_, _, .complete, Option.some.inj h⟩
    | panic cause => exact ⟨_, _, .panic, Option.some.inj h⟩
    | act effect rest => exact ⟨_, _, .act, Option.some.inj h⟩
    | submit body rest =>
      cases hs : pool.shutdown with
      | true =>
        refine ⟨_, _, .refuse hs, ?_⟩
        simpa [quietStep?, run, offer, hs, Pool.refuse, move] using h
      | false =>
        refine ⟨_, _, .offer hs, ?_⟩
        simpa [quietStep?, run, offer, hs, move] using h
  | caught ticket cause => exact ⟨_, _, .logPanic, Option.some.inj h⟩
  | failing ticket cause =>
    cases hc : cause.isExplosive with
    | false => exact ⟨_, _, .markPanic hc, by simpa [quietStep?, hc, fail, move] using h⟩
    | true => exact ⟨_, _, .perish hc, by simpa [quietStep?, hc, fail, move] using h⟩
  | resting =>
    rw [quietStep?, rest_eq] at h
    exact ⟨_, _, .rest, Option.some.inj h⟩
  | leaving =>
    refine ⟨_, _, .leave, ?_⟩
    simpa [quietStep?, move] using h
  | parting => exact ⟨_, _, .part, Option.some.inj h⟩
  | pulling | pushing | ended | crashed | lost => cases h

theorem transition_of_pull? {id : Nat} {woken : Option Nat}
    (hp : pool.workers[id]? = some .pulling) (h : pool.pull? id woken = some next) :
    Transition pool (.worker id woken) next := by
  unfold pull? at h
  split at h
  · next queue hq =>
    obtain ⟨ht, rfl⟩ := GatedQueue.pull_eq_none hq
    split_ifs at h with hn
    subst hn
    cases h
    exact .worker hp (.miss ht) .silent
  · next task queue hq =>
    obtain ⟨ht, rfl⟩ := GatedQueue.pull_eq_some hq
    have hs : WorkerStep pool id _ _ _ _ := .pull ht
    cases he : pool.queue.pull.2.tasks.isEmpty <;> rw [he] at hs
    · simp only [GatedQueue.isEmpty, he, Bool.false_eq_true, if_false] at h
      obtain ⟨workers, hw, rfl⟩ := signalOne?_eq_some_iff.mp h
      exact (Transition.worker hp hs hw :)
    · simp only [GatedQueue.isEmpty, he, if_true] at h
      split_ifs at h with hn
      subst hn
      cases h
      exact .worker hp hs .silent

theorem transition_of_worker? {id : Nat} {woken : Option Nat}
    (h : pool.worker? id woken = some next) : Transition pool (.worker id woken) next := by
  unfold worker? at h
  split at h
  · cases h
  · next hp => exact transition_of_pull? hp h
  · next ticket task rest hp =>
    obtain ⟨workers, hw, rfl⟩ := signalOne?_eq_some_iff.mp h
    exact (Transition.worker hp .push hw :)
  · next phase _ _ hp =>
    split_ifs at h with hn
    subst hn
    obtain ⟨phase', after, hs, rfl⟩ := workerStep_of_quietStep? h
    exact .worker hp hs .silent

theorem worker?_of_workerStep {id : Nat} {phase phase' : Phase ε} {signals : Bool}
    {after : Pool ε} {woken : Option Nat} {workers : List (Phase ε)}
    (hp : pool.workers[id]? = some phase) (h : WorkerStep pool id phase phase' signals after)
    (hw : Signal signals (pool.workers.set id phase') woken workers) :
    pool.worker? id woken = some { after with workers } := by
  rw [worker?, hp]
  cases h with
  | miss ht =>
    cases hw
    change pool.pull? id none = _
    rw [pull?, GatedQueue.pull_of_nil ht]
    rfl
  | @pull task rest ht =>
    change pool.pull? id woken = _
    rw [pull?, GatedQueue.pull_of_cons ht]
    simp only [GatedQueue.isEmpty, GatedQueue.tasks_pull ht]
    cases he : rest.isEmpty <;> rw [he] at hw
    · exact signalOne?_eq_some_iff.mpr ⟨workers, hw, rfl⟩
    · cases hw
      rfl
  | push => exact signalOne?_eq_some_iff.mpr ⟨workers, hw, rfl⟩
  | pass hs ha =>
    cases hw
    exact (quietStep?_atGate hs).trans (congrArg some (enter_of_armed ha))
  | doze hs ha =>
    cases hw
    exact (quietStep?_atGate hs).trans (congrArg some (enter_of_closed ha))
  | rest =>
    cases hw
    exact congrArg some (rest_eq pool id)
  | approach hs | quit hs | proceed hs | retreat hs =>
    cases hw
    simp [quietStep?, hs, move]
  | refuse hs | offer hs =>
    cases hw
    simp [quietStep?, run, Pool.offer, Pool.refuse, hs, move]
  | markPanic hc | perish hc =>
    cases hw
    simp [quietStep?, hc, fail, move]
  | leave =>
    cases hw
    simp [quietStep?, move]
  | _ =>
    cases hw
    rfl

theorem transition_of_caller? {id : Nat} {woken : Option Nat}
    (h : pool.caller? id woken = some next) : Transition pool (.caller id woken) next := by
  unfold caller? at h
  split at h
  · next task hc =>
    obtain ⟨workers, hw, rfl⟩ := signalOne?_eq_some_iff.mp h
    exact (Transition.caller hc .push hw :)
  · next caller _ hc =>
    by_cases hn : woken = none
    · rw [if_pos hn] at h
      subst hn
      split at h
      · cases hs : pool.shutdown <;> rw [hs] at h <;> cases h
        · exact (Transition.caller hc (.allow hs) .silent :)
        · exact (Transition.caller hc (.refuse hs) .silent :)
      · cases hi : pool.isIdle <;> rw [hi] at h <;> cases h
        · exact (Transition.caller hc (.park hi) .silent :)
        · exact (Transition.caller hc (.drain hi) .silent :)
      · cases h
        exact (Transition.caller hc .recheck .silent :)
      all_goals cases h
    · rw [if_neg hn] at h
      cases h
  · cases h

theorem ownerStep_of_watch? {late : Bool} (h : pool.watch? late = some next) :
    OwnerStep pool (.watch late) next := by
  unfold watch? at h
  split_ifs at h with ho ha
  · cases h
    exact .deserted ho ha
  · have hb : OwnerStep pool (.watch late) _ := .broadcast ho ha
    change (if late && !pool.warned then some _ else some _) = some next at h
    cases hl : late && !pool.warned <;> rw [hl] at h hb <;> cases h
    · have hw : (late || pool.warned) = pool.warned := by
        cases late <;> simp_all
      rw [hw] at hb
      exact hb
    · have hw : (late || pool.warned) = true := by
        cases late <;> simp_all
      rw [hw] at hb
      exact hb

theorem ownerStep_of_owner? (h : pool.owner? = some next) : OwnerStep pool .owner next := by
  unfold owner? at h
  split at h
  · next ho =>
    split_ifs at h with hl
    cases h
    exact .gather ho hl
  · next ho =>
    split_ifs at h with hr
    cases h
    exact .gathered ho hr
  · next ho =>
    cases h
    exact .announce ho
  · next ho =>
    obtain ⟨error, hf, rfl⟩ := Option.map_eq_some_iff.mp h
    exact .lament ho hf
  · next ho =>
    cases h
    exact .raise ho
  · next ho =>
    cases h
    exact .wake ho
  · next worker ho =>
    unfold join? at h
    split at h
    · next hp =>
      cases h
      exact .joinedAll ho hp
    · next hp =>
      cases h
      exact .join ho hp
    · next hp =>
      cases h
      exact .joinCrashed ho hp (.inl rfl)
    · next hp =>
      cases h
      exact .joinCrashed ho hp (.inr rfl)
    · cases h
  · next ho =>
    cases h
    exact .clear ho
  · next ho =>
    cases h
    exact .close ho
  · cases h
  · cases h
  · cases h
  · cases h
  · cases h

/-- Every step goes by one of the rules. -/
theorem transition_of_step? {action : Action ε} (h : pool.step? action = some next) :
    Transition pool action next := by
  cases action with
  | spawn failure =>
    simp only [step?, spawn?] at h
    split_ifs at h with hs
    cases failure with
    | none =>
      cases h
      exact .owner (.spawn hs.1 hs.2)
    | some error =>
      cases h
      exact .owner (.balk hs.1 hs.2)
  | owner => exact .owner (ownerStep_of_owner? h)
  | watch late => exact .owner (ownerStep_of_watch? h)
  | expire =>
    simp only [step?] at h
    split at h
    · next ho =>
      cases h
      exact .owner (.expire ho)
    · cases h
  | unwind =>
    simp only [step?, unwind?] at h
    split_ifs at h with ho
    cases h
    exact .owner (.unwind ho.1 ho.2)
  | worker id woken => exact transition_of_worker? h
  | stir id =>
    simp only [step?, stir?] at h
    split at h
    · next hp =>
      cases h
      exact .stir hp
    · cases h
  | call request =>
    simp only [step?, call?] at h
    split_ifs at h with ho
    cases request with
    | wait =>
      cases h
      exact .callWait ho
    | submit body =>
      cases h
      exact .callSubmit ho
  | caller id woken => exact transition_of_caller? h
  | stirCaller id =>
    simp only [step?, stirCaller?] at h
    split at h
    · next hc =>
      cases h
      exact .stirCaller hc
    · cases h
  | destroy =>
    simp only [step?, destroy?] at h
    split_ifs at h with hq ho hd
    · cases h
      exact .owner (.giveUp ho hq)
    · cases h
      exact .owner (.giveUpAgain hd hq)
  | fail =>
    cases h
    exact .fail

theorem step?_of_ownerStep {action : Action ε} (h : OwnerStep pool action next) :
    pool.step? action = some next := by
  cases h with
  | spawn ho h | balk ho h => exact if_pos ⟨ho, h⟩
  | gather ho h | gathered ho h =>
    simp only [step?, owner?, ho]
    exact if_pos h
  | lament ho h => simp [step?, owner?, ho, h, note]
  | giveUp ho h => simp [step?, destroy?, ho, h]
  | giveUpAgain ho h =>
    have hidle : pool.owner ≠ .idle := by
      intro hi
      rw [hi] at ho
      cases ho
    simp [step?, destroy?, hidle, ho, h]
  | @broadcast late ho h =>
    simp only [step?, watch?, if_pos ho, if_neg h]
    cases late <;> cases pool.warned <;> simp [signalAll, note]
  | deserted ho h => simp [step?, watch?, ho, h]
  | expire ho => simp [step?, ho]
  | join ho h | joinedAll ho h => simp [step?, owner?, ho, join?, h]
  | joinCrashed ho h hp => rcases hp with rfl | rfl <;> simp [step?, owner?, ho, join?, h, note]
  | unwind ho h => exact if_pos ⟨ho, h⟩
  | announce ho | raise ho | wake ho | clear ho | close ho => simp [step?, owner?, ho, note]

theorem caller?_of_callerStep {id : Nat} {caller caller' : Caller ε} {signals : Bool}
    {after : Pool ε} {woken : Option Nat} {workers : List (Phase ε)}
    (hc : pool.callers[id]? = some caller) (h : CallerStep pool caller caller' signals after)
    (hw : Signal signals pool.workers woken workers) :
    pool.caller? id woken =
      some { after with workers, callers := pool.callers.set id caller' } := by
  rw [caller?, hc]
  cases h with
  | push => exact signalOne?_eq_some_iff.mpr ⟨workers, hw, rfl⟩
  | refuse hs | allow hs =>
    cases hw
    simp [hs, moveCaller, Pool.refuse]
  | drain hi | park hi =>
    cases hw
    simp [hi, moveCaller]
  | recheck =>
    cases hw
    rfl

/-- The rules are exactly the steps. -/
theorem step?_eq_some_iff {action : Action ε} :
    pool.step? action = some next ↔ Transition pool action next := by
  constructor
  · exact transition_of_step?
  · intro h
    cases h with
    | owner h => exact step?_of_ownerStep h
    | worker hp h hw => exact worker?_of_workerStep hp h hw
    | stir hp => simp [step?, stir?, hp, move]
    | callWait h | callSubmit h => exact if_pos h
    | caller hc h hw => exact caller?_of_callerStep hc h hw
    | stirCaller hc => simp [step?, stirCaller?, hc, moveCaller]
    | fail => rfl

/-! ## Runs -/

abbrev play? (pool : Pool ε) (actions : List (Action ε)) : Option (Pool ε) :=
  after? step? pool actions

theorem Reachable.play? (h : Reachable pool) {actions : List (Action ε)}
    (hp : pool.play? actions = some next) : Reachable next :=
  after?_induction (fun hr hs => hr.step _ hs) h hp

/-- A state to which some steps lead can be reached, so that tests on it can be run. -/
theorem Reachable.exists_of_play? (h : Reachable pool) (actions : List (Action ε))
    (test : Pool ε → Bool) (ht : (pool.play? actions).any test = true) :
    ∃ next, Reachable next ∧ test next = true := by
  obtain ⟨next, hp, ht⟩ := (Option.any_eq_true _ _).mp ht
  exact ⟨next, h.play? hp, ht⟩

/-- The number of steps of a run that pass a test on the state before, the action, and the state
after. -/
def tally (test : Pool ε → Action ε → Pool ε → Bool) (pool : Pool ε) : List (Action ε) → Nat
  | [] => 0
  | action :: rest =>
    (pool.step? action).elim 0 fun next => (test pool action next).toNat + next.tally test rest

theorem tally_cons {test : Pool ε → Action ε → Pool ε → Bool} {action : Action ε}
    {rest : List (Action ε)} (hs : pool.step? action = some next) :
    pool.tally test (action :: rest) = (test pool action next).toNat + next.tally test rest := by
  rw [tally, hs]
  rfl

/-- A run has no more steps of one kind than of another that covers it. -/
theorem tally_le_tally {test test' : Pool ε → Action ε → Pool ε → Bool}
    (h : ∀ {pool next action}, pool.step? action = some next → test pool action next = true →
      test' pool action next = true) (pool : Pool ε) (actions : List (Action ε)) :
    pool.tally test actions ≤ pool.tally test' actions := by
  induction actions generalizing pool with
  | nil => exact Nat.le_refl _
  | cons action actions ih =>
    cases hs : pool.step? action with
    | none =>
      rw [tally, hs]
      exact Nat.zero_le _
    | some next =>
      rw [tally_cons hs, tally_cons hs]
      exact Nat.add_le_add (Bool.toNat_le_toNat (h hs)) (ih next)

/-- A run has no steps of a kind that a law excludes, if the law is kept. -/
theorem tally_eq_zero {Law : Pool ε → Prop} {test : Pool ε → Action ε → Pool ε → Bool}
    (hstep : ∀ {pool next action}, Law pool → pool.step? action = some next →
      test pool action next = false ∧ Law next)
    (hpool : Law pool) (actions : List (Action ε)) : pool.tally test actions = 0 := by
  induction actions generalizing pool with
  | nil => rfl
  | cons action actions ih =>
    cases hs : pool.step? action with
    | none => rw [tally, hs, Option.elim_none]
    | some next =>
      obtain ⟨ht, hnext⟩ := hstep hpool hs
      rw [tally_cons hs, ht, ih hnext, Bool.toNat_false]

/-- A measure that some steps raise by one and some lower by one tells the two kinds apart in a
whole run. -/
theorem Reachable.tally_add {raises lowers : Pool ε → Action ε → Pool ε → Bool}
    (measure : Pool ε → Nat)
    (hstep : ∀ {pool next action}, Reachable pool → pool.step? action = some next →
      measure next + (lowers pool action next).toNat =
        measure pool + (raises pool action next).toNat)
    (h : Reachable pool) {actions : List (Action ε)} (hp : pool.play? actions = some next) :
    measure next + pool.tally lowers actions = measure pool + pool.tally raises actions := by
  induction actions generalizing pool with
  | nil =>
    cases Option.some.inj hp
    rfl
  | cons action actions ih =>
    obtain ⟨between, hs, hrest⟩ := after?_cons_eq_some_iff.mp hp
    have hfirst := hstep h hs
    have hlater := ih (h.step action hs) hrest
    rw [tally_cons hs, tally_cons hs]
    omega

/-- What only a certain kind of step can break, a run keeps if it has no such step. -/
theorem Reachable.tally_pos_or {Law : Pool ε → Prop} {allows : Action ε → Prop}
    {test : Pool ε → Action ε → Pool ε → Bool} (h : Reachable pool) (hpool : Law pool)
    (hstep : ∀ {pool next action}, Reachable pool → allows action → Law pool →
      pool.step? action = some next → test pool action next = true ∨ Law next)
    {actions : List (Action ε)} (ha : ∀ action ∈ actions, allows action)
    (hp : pool.play? actions = some next) : 0 < pool.tally test actions ∨ Law next := by
  induction actions generalizing pool with
  | nil => exact .inr (Option.some.inj hp ▸ hpool)
  | cons action actions ih =>
    obtain ⟨between, hs, hrest⟩ := after?_cons_eq_some_iff.mp hp
    have hlater : ∀ action ∈ actions, allows action := by
      intro action hm
      exact ha action (List.mem_cons_of_mem _ hm)
    rw [tally_cons hs]
    rcases hstep h (ha action List.mem_cons_self) hpool hs with ht | hbetween
    · rw [ht, Bool.toNat_true]
      exact .inl (by omega)
    · rcases ih (h.step action hs) hbetween hlater hrest with hpos | hnext
      · exact .inl (by omega)
      · exact .inr hnext

end Pool
end TreePool
