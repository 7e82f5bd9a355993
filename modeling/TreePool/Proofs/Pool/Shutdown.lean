import TreePool.Proofs.Pool.Balance
import TreePool.Proofs.Pool.Evacuation

/-! # The last tasks of a pool

Once the shutdown flag is up, hardly any task is started. A worker pulls only if it found the flag
unset after it got through the gate, and nobody finds it so any more. So the workers that were
committed to a pull when the flag went up pull once each, and nobody else does: neither those in a
body nor those that get through the gate later. What is started comes off the front of the queue.
-/

namespace TreePool

variable {ε : Type}

namespace Phase

def isPassed : Phase ε → Bool
  | .passed => true
  | _ => false

/-- Whether the worker found the flag unset after it got through the gate, and has yet to pull. -/
def isCommitted : Phase ε → Bool
  | .entering | .pulling => true
  | _ => false

theorem not_isCommitted_of_isAtGate {phase : Phase ε} (h : phase.isAtGate) :
    phase.isCommitted = false := by
  cases phase with
  | atGate => rfl
  | _ => cases h

theorem not_isCommitted_of_current? {phase : Phase ε} {ticket : Ticket}
    (h : phase.current? = some ticket) : phase.isCommitted = false := by
  cases phase with
  | running | pushing => rfl
  | _ => cases h

end Phase

namespace Pool

variable {pool next after raised : Pool ε} {action : Action ε} {actions before : List (Action ε)}
variable {id worker : Nat} {phase phase' : Phase ε} {signals : Bool} {woken : Option Nat}
variable {f : Phase ε → Bool}

/-! ## Into phases of a kind and out of them -/

def enters (f : Phase ε → Bool) (worker : Nat) (before : Pool ε) (action : Action ε)
    (after : Pool ε) : Bool :=
  action.isBy worker && (!before.workers[worker]?.any f && after.workers[worker]?.any f)

def exits (f : Phase ε → Bool) (worker : Nat) (before : Pool ε) (action : Action ε)
    (after : Pool ε) : Bool :=
  action.isBy worker && (before.workers[worker]?.any f && !after.workers[worker]?.any f)

theorem mark_add_exits (hspawned : f .spawned = false)
    (hawake : f (.atGate .awake) = f (.atGate .asleep)) (worker : Nat)
    (hs : pool.step? action = some next) :
    mark f worker next + (exits f worker pool action next).toNat =
      mark f worker pool + (enters f worker pool action next).toNat := by
  cases hb : action.isBy worker with
  | true =>
    unfold mark enters exits
    rw [hb]
    cases pool.workers[worker]?.any f <;> cases next.workers[worker]?.any f <;> rfl
  | false => rw [mark_of_not_isBy hspawned hawake hb hs, enters, exits, hb, Bool.false_and,
      Bool.false_and]

/-! ## From the gate to the queue -/

def passes (worker : Nat) : Pool ε → Action ε → Pool ε → Bool := exits Phase.isAtGate worker

def clears (worker : Nat) : Pool ε → Action ε → Pool ε → Bool := enters Phase.isCommitted worker

def pulls (worker : Nat) : Pool ε → Action ε → Pool ε → Bool := exits Phase.isCommitted worker

theorem exists_workerStep_of_isBy (hb : action.isBy worker = true)
    (hs : pool.step? action = some next) :
    ∃ phase phase' signals after woken, pool.workers[worker]? = some phase ∧
      WorkerStep pool worker phase phase' signals after ∧
      Signal signals (pool.workers.set worker phase') woken next.workers := by
  cases transition_of_step? hs with
  | owner ht => cases ht <;> cases hb
  | worker hp ht hw =>
    obtain rfl := beq_iff_eq.mp hb
    exact ⟨_, _, _, _, _, hp, ht, hw⟩
  | _ => cases hb

theorem exits_eq_of_workerStep (hawake : f (.atGate .awake) = f (.atGate .asleep))
    (hb : action.isBy worker = true) (hp : pool.workers[worker]? = some phase)
    (hw : Signal signals (pool.workers.set worker phase') woken next.workers) :
    exits f worker pool action next = (f phase && !f phase') ∧
      enters f worker pool action next = (!f phase && f phase') := by
  have hlt := (List.getElem?_eq_some_iff.mp hp).1
  have hafter : next.workers[worker]?.any f = f phase' := by
    rw [hw.any_getElem? hawake, List.getElem?_set_self hlt]
    rfl
  rw [exits, enters, hb, hp, hafter]
  exact ⟨rfl, rfl⟩

theorem WorkerStep.isPassed_eq (h : WorkerStep pool id phase phase' signals after) :
    (!phase.isPassed && phase'.isPassed) = (phase.isAtGate && !phase'.isAtGate) := by
  cases h with
  | part => cases pool.fragile <;> rfl
  | _ => rfl

theorem WorkerStep.isCommitted_eq (h : WorkerStep pool id phase phase' signals after)
    (hf : pool.shutdown = false) :
    (phase.isPassed && !phase'.isPassed) = (!phase.isCommitted && phase'.isCommitted) := by
  cases h with
  | retreat hs => rw [hf] at hs; cases hs
  | part => cases pool.fragile <;> rfl
  | _ => rfl

theorem WorkerStep.not_enters (h : WorkerStep pool id phase phase' signals after)
    (hf : pool.shutdown = true) :
    (!phase.isCommitted && phase'.isCommitted) = false ∧
      (!phase.isAtGate && phase'.isAtGate) = false := by
  cases h with
  | approach hs | proceed hs => rw [hf] at hs; cases hs
  | part => cases pool.fragile <;> exact ⟨rfl, rfl⟩
  | _ => exact ⟨rfl, rfl⟩

theorem not_enters_of_shutdown (hf : pool.shutdown = true) (worker : Nat)
    (hs : pool.step? action = some next) :
    clears worker pool action next = false ∧
      enters Phase.isAtGate worker pool action next = false := by
  cases hb : action.isBy worker with
  | true =>
    obtain ⟨phase, phase', _, _, _, hp, ht, hw⟩ := exists_workerStep_of_isBy hb hs
    rw [clears, (exits_eq_of_workerStep rfl hb hp hw).2, (exits_eq_of_workerStep rfl hb hp hw).2]
    exact ht.not_enters hf
  | false => simp [clears, enters, hb]

/-- Once the flag is up, a worker goes out of phases that only lead to a pull or to the gate at most
once, and only if it is in one of them. -/
theorem Reachable.tally_exits_le (h : Reachable pool) (hf : pool.shutdown = true)
    (hp : pool.play? actions = some next) (worker : Nat) :
    pool.tally (pulls worker) actions ≤ mark Phase.isCommitted worker pool ∧
      pool.tally (passes worker) actions ≤ mark Phase.isAtGate worker pool := by
  have hstep {pool next : Pool ε} {action : Action ε} (hf : pool.shutdown = true)
      (hs : pool.step? action = some next) :
      (clears worker pool action next = false ∧ next.shutdown = true) ∧
        enters Phase.isAtGate worker pool action next = false ∧ next.shutdown = true := by
    obtain ⟨hclears, hcomes⟩ := not_enters_of_shutdown hf worker hs
    have hnext := shutdown_of_step? hs hf
    exact ⟨⟨hclears, hnext⟩, hcomes, hnext⟩
  have hclears : pool.tally (clears worker) actions = 0 :=
    tally_eq_zero (fun hf hs => (hstep hf hs).1) hf actions
  have hcomes : pool.tally (enters Phase.isAtGate worker) actions = 0 :=
    tally_eq_zero (fun hf hs => (hstep hf hs).2) hf actions
  have hpulls := h.tally_add (mark Phase.isCommitted worker)
    (fun _ hs => mark_add_exits rfl rfl worker hs) hp
  have hpasses := h.tally_add (mark Phase.isAtGate worker)
    (fun _ hs => mark_add_exits rfl rfl worker hs) hp
  change _ + pool.tally (pulls worker) actions = _ + pool.tally (clears worker) actions at hpulls
  change _ + pool.tally (passes worker) actions =
    _ + pool.tally (enters Phase.isAtGate worker) actions at hpasses
  omega

/-- Until the flag is up, a worker that gets through the gate finds the flag unset next, and pulls
after that. -/
theorem tally_passes (hf : next.shutdown = false) (hp : pool.play? actions = some next)
    (worker : Nat) :
    mark Phase.isPassed worker next + pool.tally (clears worker) actions =
      mark Phase.isPassed worker pool + pool.tally (passes worker) actions := by
  induction actions generalizing pool with
  | nil =>
    cases Option.some.inj hp
    rfl
  | cons action actions ih =>
    obtain ⟨between, hs, hrest⟩ := after?_cons_eq_some_iff.mp hp
    have hflag : pool.shutdown = false := by
      by_contra hup
      rw [shutdown_of_play? hp (by simpa using hup)] at hf
      cases hf
    have hstep : mark Phase.isPassed worker between + (clears worker pool action between).toNat =
        mark Phase.isPassed worker pool + (passes worker pool action between).toNat := by
      have hmark := mark_add_exits (f := Phase.isPassed) rfl rfl worker hs
      cases hb : action.isBy worker with
      | true =>
        obtain ⟨phase, phase', _, _, _, hphase, ht, hw⟩ := exists_workerStep_of_isBy hb hs
        rw [(exits_eq_of_workerStep rfl hb hphase hw).1,
          (exits_eq_of_workerStep rfl hb hphase hw).2, ht.isCommitted_eq hflag,
          ht.isPassed_eq] at hmark
        rw [clears, passes, (exits_eq_of_workerStep rfl hb hphase hw).1,
          (exits_eq_of_workerStep rfl hb hphase hw).2]
        exact hmark
      | false => simpa [clears, passes, exits, enters, hb] using hmark
    rw [tally_cons hs, tally_cons hs]
    have hlater := ih hrest
    omega

/-! ## What is started -/

theorem WorkerStep.length_taken_add (h : WorkerStep pool id phase phase' signals after) :
    ((phase.events id pool.queue.tasks).filterMap Event.taken?).length ≤
      (phase.isCommitted && !phase'.isCommitted).toNat := by
  cases h with
  | pull ht | miss ht => simp [Phase.events, Phase.isCommitted, ht, Event.taken?]
  | complete | panic | act | refuse | offer | push => exact Nat.le_refl 0
  | _ => exact Nat.zero_le _

theorem length_takenBy_events_le (worker : Nat) (hs : pool.step? action = some next) :
    (takenBy worker (pool.events action)).length ≤ (pulls worker pool action next).toNat := by
  cases transition_of_step? hs with
  | owner ht =>
    rw [events_of_ownerStep ht]
    exact Nat.zero_le _
  | @worker id phase phase' _ _ woken _ hp ht hw =>
    rw [events_worker hp]
    by_cases hn : id = worker
    · subst hn
      have hby : (Action.worker id woken : Action ε).isBy id = true := beq_self_eq_true id
      rw [pulls, (exits_eq_of_workerStep rfl hby hp hw).1]
      exact Nat.le_trans (List.filter_sublist.filterMap _).length_le ht.length_taken_add
    · rw [takenBy, filter_isBy_events hn]
      exact Nat.zero_le _
  | caller hc =>
    rw [events_caller hc, takenBy, Caller.filter_isBy_events]
    exact Nat.zero_le _
  | _ => exact Nat.zero_le _

theorem takenBy_append (worker : Nat) (first second : List (Event ε)) :
    takenBy worker (first ++ second) = takenBy worker first ++ takenBy worker second := by
  rw [takenBy, List.filter_append, List.filterMap_append]
  rfl

theorem length_takenBy_record_le (worker : Nat) (hp : pool.play? actions = some next) :
    (takenBy worker (pool.record actions)).length ≤ pool.tally (pulls worker) actions := by
  induction actions generalizing pool with
  | nil => exact Nat.le_refl 0
  | cons action actions ih =>
    obtain ⟨between, hs, hrest⟩ := after?_cons_eq_some_iff.mp hp
    rw [record, hs, tally_cons hs, takenBy_append, List.length_append]
    exact Nat.add_le_add (length_takenBy_events_le worker hs) (ih hrest)

/-- Once the flag is up, each task that is taken leaves one worker fewer that is about to pull. -/
theorem length_taken_events_add_le (hf : pool.shutdown = true)
    (hs : pool.step? action = some next) :
    ((pool.events action).filterMap Event.taken?).length + next.workers.countP Phase.isCommitted ≤
      pool.workers.countP Phase.isCommitted := by
  cases transition_of_step? hs with
  | owner ht =>
    rw [events_of_ownerStep ht, List.filterMap_nil, List.length_nil, Nat.zero_add]
    cases ht with
    | spawn => rw [countP_concat]; exact Nat.le_refl _
    | broadcast => exact Nat.le_of_eq (countP_rouse rfl _)
    | _ => exact Nat.le_refl _
  | @worker id phase phase' _ _ _ _ hp ht hw =>
    have hcount := hw.countP_add hp (f := Phase.isCommitted) rfl
    have htaken := ht.length_taken_add
    have hnot := (ht.not_enters hf).1
    rw [events_worker hp]
    cases hc : phase.isCommitted <;> cases hc' : phase'.isCommitted <;>
      simp only [hc, hc', Bool.toNat_true, Bool.toNat_false, Bool.not_true, Bool.not_false,
        Bool.and_self, Bool.and_true, Bool.and_false, reduceCtorEq] at hcount htaken hnot ⊢ <;>
      omega
  | caller hc _ hw =>
    rw [events_caller hc, Caller.filterMap_taken?_events, List.length_nil, Nat.zero_add]
    exact Nat.le_of_eq (hw.countP_eq rfl)
  | stir hp =>
    have hcount := (Signal.wakes hp).countP_eq (f := Phase.isCommitted) rfl
    exact Nat.le_of_eq ((Nat.zero_add _).trans hcount)
  | _ => exact Nat.le_of_eq (Nat.zero_add _)

def started (pool : Pool ε) (actions : List (Action ε)) : List (Task ε) :=
  (pool.record actions).filterMap Event.taken?

def admitted (pool : Pool ε) (actions : List (Action ε)) : List (Task ε) :=
  (pool.record actions).filterMap Event.accepted?

theorem length_started_add_le (hf : pool.shutdown = true)
    (hp : pool.play? actions = some next) :
    (pool.started actions).length + next.workers.countP Phase.isCommitted ≤
      pool.workers.countP Phase.isCommitted := by
  induction actions generalizing pool with
  | nil =>
    cases Option.some.inj hp
    exact Nat.le_of_eq (Nat.zero_add _)
  | cons action actions ih =>
    obtain ⟨between, hs, hrest⟩ := after?_cons_eq_some_iff.mp hp
    have hfirst := length_taken_events_add_le hf hs
    have hlater := ih (shutdown_of_step? hs hf) hrest
    rw [started] at hlater
    rw [started, record, hs, List.filterMap_append, List.length_append, Option.elim_some]
    omega

variable {history : List (Event ε)}

/-- In any stretch of a history a worker first does the rest of what it owes, and then performs the
tasks that it takes. -/
theorem Run.filter_isBy_record (h : Run history pool) (hp : pool.play? actions = some next)
    (worker : Nat) :
    (pool.record actions).filter (Event.isBy worker) ++ owed next.workers worker =
      owed pool.workers worker ++
        (takenBy worker (pool.record actions)).flatMap (Task.performance worker) := by
  have hlater := (h.play? hp).filter_isBy_append_owed worker
  rw [takenBy_append, List.flatMap_append, ← h.filter_isBy_append_owed worker, List.filter_append,
    List.append_assoc, List.append_assoc] at hlater
  exact List.append_cancel_left hlater

/-- What is taken in a stretch of a history that starts before the queue is cleared comes off the
front of the queue, as it is extended on the way. -/
theorem Run.started_isPrefix (h : Run history pool) (hp : pool.play? actions = some next)
    (hc : pool.owner.hasCleared = false) :
    pool.started actions <+: pool.queue.tasks ++ pool.admitted actions := by
  obtain ⟨dropped, -, ha⟩ := (h.play? hp).exists_accepted_eq
  rw [List.filterMap_append, List.filterMap_append, h.accepted_eq hc] at ha
  simp only [List.append_assoc] at ha
  exact ⟨_, (List.append_cancel_left ha).symm⟩

theorem Run.pulled_eq (h : Run history pool) (hp : pool.play? actions = some next) :
    next.pulled = pool.pulled ++ (pool.started actions).map Task.ticket := by
  rw [started, ← (h.play? hp).recorded.taken, List.filterMap_append, List.map_append,
    h.recorded.taken]

theorem isFor_of_mem_owed {event : Event ε} {ticket : Ticket} (hp : pool.workers[id]? = some phase)
    (hc : phase.current? = some ticket) (he : event ∈ owed pool.workers id) :
    event.isFor ticket := by
  rw [owed_of_getElem? hp] at he
  cases phase with
  | running held body | pushing held _ body =>
    obtain ⟨deed, _, rfl⟩ := List.mem_map.mp he
    exact beq_iff_eq.mpr (Option.some.inj hc)
  | _ => cases hc

/-! ## All that is started -/

/-- What one worker still pulls in a run that starts when the flag has gone up. The counts over the
run before say where it stands at this moment: how often it got through the gate, how often it found
the flag unset after that, and how often it pulled. -/
structure LastPull (first raised : Pool ε) (before actions : List (Action ε)) (worker : Nat) :
    Prop where
  passes : first.tally (passes worker) before =
    first.tally (clears worker) before + mark Phase.isPassed worker raised
  clears : first.tally (clears worker) before =
    first.tally (pulls worker) before + mark Phase.isCommitted worker raised
  pulls_le : raised.tally (pulls worker) actions ≤ mark Phase.isCommitted worker raised
  taken_le : (takenBy worker (raised.record actions)).length ≤ raised.tally (pulls worker) actions
  latecomer : 0 < raised.tally (Pool.passes worker) actions →
    raised.tally (pulls worker) actions = 0
  inBody : ∀ phase ticket, raised.workers[worker]? = some phase → phase.current? = some ticket →
    raised.tally (pulls worker) actions = 0 ∧
      ∀ event ∈ raised.record actions, event.isBy worker → event.isFor ticket

/-- What all workers together still start in a run that starts when the flag has gone up. -/
structure LastTasks (raised : Pool ε) (actions : List (Action ε)) (next : Pool ε) : Prop where
  pulled : next.pulled = raised.pulled ++ (raised.started actions).map Task.ticket
  fromFront : raised.started actions <+: raised.queue.tasks ++ raised.admitted actions
  length_le : (raised.started actions).length ≤ raised.workers.countP Phase.isCommitted
  allInBodies : (∀ phase ∈ raised.workers, phase.current?.isSome) → raised.started actions = []

variable {size : Nat} {fragile : Bool} {lifted : Pool ε}

theorem mark_eq_zero (hp : pool.workers[worker]? = some phase) (hf : f phase = false) :
    mark f worker pool = 0 := by
  rw [mark, hp, Option.any_some, hf, Bool.toNat_false]

theorem mark_isCommitted_of_isAtGate (h : 0 < mark Phase.isAtGate worker pool) :
    mark Phase.isCommitted worker pool = 0 := by
  cases hp : pool.workers[worker]? with
  | none =>
    rw [mark, hp]
    rfl
  | some phase =>
    apply mark_eq_zero hp
    apply Phase.not_isCommitted_of_isAtGate
    by_contra hn
    rw [mark_eq_zero hp (by simpa using hn)] at h
    exact Nat.lt_irrefl 0 h

theorem raised_eq (ho : lifted.owner = .raising) (hs : lifted.step? .owner = some raised) :
    raised = { lifted with shutdown := true, owner := .watching } := by
  rw [step?, owner?, ho] at hs
  exact (Option.some.inj hs).symm

theorem lastPull_of_play? (hsize : 1 ≤ size) (hb : (start size fragile).play? before = some lifted)
    (ho : lifted.owner = .raising) (hs : lifted.step? .owner = some raised)
    (hp : raised.play? actions = some next) (worker : Nat) :
    LastPull (start size fragile) raised before actions worker := by
  have hlifted : Reachable lifted := (Reachable.start fragile hsize).play? hb
  have hraised : Reachable raised := hlifted.step _ hs
  have hflag : lifted.shutdown = false := by rw [hlifted.shutdown_eq, ho]; rfl
  have hworkers : raised.workers = lifted.workers := by rw [raised_eq ho hs]
  have hup : raised.shutdown = true := by rw [raised_eq ho hs]
  obtain ⟨hpulls, hpasses⟩ := hraised.tally_exits_le hup hp worker
  have htaken := length_takenBy_record_le worker hp
  refine ⟨?_, ?_, hpulls, htaken, ?_, ?_⟩
  · have hrun := tally_passes hflag hb worker
    rw [mark, ← hworkers] at hrun
    change _ = 0 + Pool.tally (Pool.passes worker) _ before at hrun
    rw [Nat.zero_add, Nat.add_comm] at hrun
    exact hrun.symm
  · have hrun := (Reachable.start (ε := ε) fragile hsize).tally_add (mark Phase.isCommitted worker)
      (fun _ hs => mark_add_exits rfl rfl worker hs) hb
    rw [mark, ← hworkers] at hrun
    change _ + Pool.tally (pulls worker) _ before =
      0 + Pool.tally (Pool.clears worker) _ before at hrun
    rw [Nat.zero_add, Nat.add_comm] at hrun
    exact hrun.symm
  · intro hpass
    have hzero := mark_isCommitted_of_isAtGate (Nat.lt_of_lt_of_le hpass hpasses)
    omega
  · intro phase ticket hphase hc
    have hzero := mark_eq_zero hphase (Phase.not_isCommitted_of_current? hc)
    have hnone : raised.tally (pulls worker) actions = 0 := by omega
    refine ⟨hnone, ?_⟩
    intro event he hby
    obtain ⟨history, hrun⟩ := hraised.exists_run
    have hwork := hrun.filter_isBy_record hp worker
    have hnil : takenBy worker (raised.record actions) = [] := by
      apply List.length_eq_zero_iff.mp
      omega
    rw [hnil, List.flatMap_nil, List.append_nil] at hwork
    apply isFor_of_mem_owed hphase hc
    rw [← hwork]
    exact List.mem_append_left _ (List.mem_filter.mpr ⟨he, hby⟩)

theorem lastTasks_of_play? (hr : Reachable raised) (ho : raised.owner = .watching)
    (hp : raised.play? actions = some next) : LastTasks raised actions next := by
  obtain ⟨history, hrun⟩ := hr.exists_run
  have hup : raised.shutdown = true := by rw [hr.shutdown_eq, ho]; rfl
  have hcount := length_started_add_le hup hp
  have hle : (raised.started actions).length ≤ raised.workers.countP Phase.isCommitted := by omega
  refine ⟨hrun.pulled_eq hp, hrun.started_isPrefix hp (by rw [ho]; rfl), hle, ?_⟩
  intro hall
  have hnone : raised.workers.countP Phase.isCommitted = 0 := by
    apply List.countP_eq_zero.mpr
    intro phase hm
    obtain ⟨ticket, hc⟩ := Option.isSome_iff_exists.mp (hall phase hm)
    rw [Phase.not_isCommitted_of_current? hc]
    exact Bool.false_ne_true
  apply List.length_eq_zero_iff.mp
  omega

/-- However a pool got to the moment when its flag goes up, and however it goes on from there: each
worker pulls at most once, if it is just about to, and what is started is taken off the front of the
queue. -/
theorem lastTasks_of_raise (hsize : 1 ≤ size)
    (hb : (start size fragile).play? before = some lifted) (ho : lifted.owner = .raising)
    (hs : lifted.step? .owner = some raised) (hp : raised.play? actions = some next) :
    (∀ worker, LastPull (start size fragile) raised before actions worker) ∧
      LastTasks raised actions next := by
  constructor
  · exact lastPull_of_play? hsize hb ho hs hp
  · apply lastTasks_of_play? _ _ hp
    · exact ((Reachable.start fragile hsize).play? hb).step _ hs
    · rw [raised_eq ho hs]

/-- Three workers, and a task of which another one is about to be pushed. Worker 0 has found the
flag unset after the gate, and worker 2 is at the gate, when the pool is given up; two tasks are
queued. -/
def busyMoment : List (Action Nat) :=
  List.flatten [List.replicate 3 (.spawn none), [.owner], List.replicate 3 (.worker 0 none),
    List.replicate 3 (.worker 1 none), List.replicate 3 (.worker 2 none), [.owner, .owner],
    [.worker 0 none, .worker 1 none, .worker 1 none, .worker 2 none],
    [.call (.submit (.submit .done .done)), .caller 0 none, .caller 0 (some 1)],
    List.replicate 5 (.worker 1 none),
    [.call (.submit .done), .caller 1 none, .caller 1 none, .worker 0 none, .worker 0 none],
    [.call (.submit .done), .caller 2 none, .caller 2 none, .destroy]]

/-- Worker 0 takes one of the queued tasks, worker 1 pushes another one and ends its body, and
worker 2 gets through the gate and leaves. -/
def lastMoves : List (Action Nat) :=
  List.flatten [[.worker 2 none, .worker 2 none], List.replicate 5 (.worker 1 none),
    List.replicate 6 (.worker 0 none)]

theorem lastTasks_busyMoment :
    ∃ lifted raised next : Pool Nat, 1 ≤ 3 ∧ (start 3 false).play? busyMoment = some lifted ∧
      lifted.owner = .raising ∧ lifted.step? .owner = some raised ∧
      raised.play? lastMoves = some next ∧
      raised.workers = [.entering, .pushing 0 ⟨1, .done⟩ .done, .atGate .arriving] ∧
      raised.queue.tasks = [⟨2, .done⟩, ⟨3, .done⟩] ∧
      raised.started lastMoves = [⟨2, .done⟩] ∧ raised.admitted lastMoves = [⟨1, .done⟩] ∧
      (∀ worker, LastPull (start 3 false) raised busyMoment lastMoves worker) ∧
        LastTasks raised lastMoves next := by
  have htest : ((start 3 false : Pool Nat).play? busyMoment).any (fun lifted =>
      lifted.owner = .raising ∧ (lifted.step? .owner).any fun raised =>
        (raised.play? lastMoves).isSome ∧
        raised.workers = [.entering, .pushing 0 ⟨1, .done⟩ .done, .atGate .arriving] ∧
        raised.queue.tasks = [⟨2, .done⟩, ⟨3, .done⟩] ∧
        raised.started lastMoves = [⟨2, .done⟩] ∧
        raised.admitted lastMoves = [⟨1, .done⟩]) = true := by
    decide +kernel
  obtain ⟨lifted, hb, ht⟩ := (Option.any_eq_true _ _).mp htest
  obtain ⟨ho, ht⟩ := of_decide_eq_true ht
  obtain ⟨raised, hs, ht⟩ := (Option.any_eq_true _ _).mp ht
  obtain ⟨hsome, hworkers, hqueue, hstarted, hadmitted⟩ := of_decide_eq_true ht
  obtain ⟨next, hp⟩ := Option.isSome_iff_exists.mp hsome
  exact ⟨lifted, raised, next, by decide, hb, ho, hs, hp, hworkers, hqueue, hstarted, hadmitted,
    lastTasks_of_raise (by decide) hb ho hs hp⟩

end Pool
end TreePool
