import TreePool.Proofs.Pool.Balance
import TreePool.Proofs.Pool.Construction
import TreePool.Proofs.Pool.History

/-! # Who wrote what into the log

Each record of the log has its cause in the run. What a worker wrote about itself follows from its
phase, and what it wrote about its tasks from the history: one record for each body that ended by a
panic, as soon as the worker gets to it. What the owner wrote follows from how far it has come, but
for one complaint about workers that are alive for too long, which belongs to the first of those
looks at them that come late.
-/

namespace TreePool

variable {ε : Type}

namespace Notice

def isBy (worker : Nat) : Notice → Bool
  | .workerStarted id | .workerStopped id | .taskPanicked id _ => id == worker
  | _ => false

def isReport : Notice → Bool
  | .workerStarted _ | .workerStopped _ | .taskPanicked _ _ => true
  | _ => false

def isMilestone : Notice → Bool
  | .cannotSpawn _ _ | .poolReady _ | .workerPanicked _ | .poolDestroyed _ => true
  | _ => false

def isComplaint : Notice → Bool
  | .stillBusy _ _ => true
  | _ => false

end Notice

/-- The record that is due for an event: a body has ended by a panic. -/
def Event.alarm? : Event ε → Option Notice
  | .did worker _ (.finish (.panicked cause)) => some (.taskPanicked worker cause)
  | _ => none

namespace Phase

def hasGreeted : Phase ε → Bool
  | .spawned | .counted | .greeting => false
  | _ => true

def hasStopped : Phase ε → Bool
  | .ended | .crashed => true
  | _ => false

def isCrashed : Phase ε → Bool
  | .crashed | .lost => true
  | _ => false

/-- Whether a worker has written a record about itself. -/
def shows (phase : Phase ε) : Notice → Bool
  | .workerStarted _ => phase.hasGreeted
  | .workerStopped _ => phase.hasStopped
  | _ => false

/-- Whether a worker has still to write a record about a task. -/
def withholds : Phase ε → Notice → Bool
  | .caught _ held, .taskPanicked _ cause => held == cause
  | _, _ => false

def alarms (worker : Nat) : Phase ε → List Notice
  | .running _ (.panic cause) => [.taskPanicked worker cause]
  | _ => []

end Phase

namespace Pool

variable {pool next after : Pool ε} {action : Action ε} {actions : List (Action ε)}
variable {history : List (Event ε)} {notice : Notice} {id worker : Nat} {phase phase' : Phase ε}
variable {signals : Bool} {woken : Option Nat} {workers workers' : List (Phase ε)}
variable {caller caller' : Caller ε} {error : IoError}

/-! ## What workers wrote -/

def alarms (history : List (Event ε)) : List Notice := history.filterMap Event.alarm?

theorem alarms_append (first second : List (Event ε)) :
    alarms (first ++ second) = alarms first ++ alarms second :=
  List.filterMap_append

theorem CallerStep.log_eq (h : CallerStep pool caller caller' signals after) :
    after.log = pool.log := by
  cases h <;> rfl

theorem Caller.alarms_events : alarms caller.events = [] := by
  cases caller <;> rfl

theorem Phase.alarms_events (worker : Nat) (tasks : List (Task ε)) :
    Pool.alarms (phase.events worker tasks) = phase.alarms worker := by
  cases phase with
  | running ticket body => cases body <;> rfl
  | pulling => cases tasks <;> rfl
  | _ => rfl

theorem filter_isBy_of_not_isBy (hb : action.isBy worker = false)
    (hs : pool.step? action = some next) :
    next.log.filter (Notice.isBy worker) = pool.log.filter (Notice.isBy worker) ∧
      (alarms (pool.events action)).filter (Notice.isBy worker) = [] := by
  cases transition_of_step? hs with
  | owner ht =>
    rw [events_of_ownerStep ht]
    refine ⟨?_, rfl⟩
    cases ht with
    | broadcast =>
      dsimp only
      split_ifs <;> simp [Notice.isBy]
    | _ => simp [Notice.isBy]
  | @worker id phase phase' _ _ _ _ hp ht =>
    have hne : id ≠ worker := by simpa [Action.isBy] using hb
    rw [events_worker hp, Phase.alarms_events]
    constructor
    · cases ht <;> simp [Notice.isBy, hne]
    · cases phase with
      | running ticket body => cases body <;> simp [Phase.alarms, Notice.isBy, hne]
      | _ => rfl
  | caller hc ht =>
    rw [events_caller hc, Caller.alarms_events]
    exact ⟨congrArg _ ht.log_eq, rfl⟩
  | _ => exact ⟨rfl, rfl⟩

theorem toNat_beq (cause cause' : Cause) :
    (cause == cause').toNat = if cause = cause' then 1 else 0 := by
  by_cases he : cause = cause' <;> simp [he]

/-- A step of a worker makes up for what it changes in its phase, and for the panic that it
catches. -/
theorem WorkerStep.count_log_add (h : WorkerStep pool id phase phase' signals after)
    (hn : notice.isBy id) :
    after.log.count notice + (phase'.withholds notice).toNat + (phase.shows notice).toNat =
      pool.log.count notice + (phase.withholds notice).toNat + (phase'.shows notice).toNat +
        (phase.alarms id).count notice := by
  cases notice with
  | workerStarted i | workerStopped i | taskPanicked i cause =>
    obtain rfl : i = id := beq_iff_eq.mp hn
    cases h with
    | part =>
      cases pool.fragile <;>
        simp [Phase.withholds, Phase.shows, Phase.alarms, Phase.hasGreeted, Phase.hasStopped]
    | greet | panic | logPanic =>
      simp [Phase.withholds, Phase.shows, Phase.alarms, Phase.hasGreeted, Phase.hasStopped,
        List.count_singleton, toNat_beq]
    | _ => rfl
  | _ => cases hn

theorem mark_of_getElem? {f : Phase ε → Bool} (hp : pool.workers[worker]? = some phase) :
    mark f worker pool = (f phase).toNat := by
  rw [mark, hp]
  rfl

theorem Phase.shows_spawned (notice : Notice) : (.spawned : Phase ε).shows notice = false := by
  cases notice <;> rfl

theorem Phase.shows_awake (notice : Notice) :
    (.atGate .awake : Phase ε).shows notice = (.atGate .asleep : Phase ε).shows notice := by
  cases notice <;> rfl

/-- What a worker wrote, together with what it is about to write, is what its phase shows and the
panics that it caught. -/
theorem Run.count_log (h : Run history pool) (hn : notice.isBy worker) :
    pool.log.count notice + mark (·.withholds notice) worker pool =
      mark (·.shows notice) worker pool + (alarms history).count notice := by
  induction h with
  | start => rfl
  | @step history pool next action _ hs ih =>
    rw [alarms_append, List.count_append]
    by_cases hb : action.isBy worker = true
    · cases transition_of_step? hs with
      | owner ht => cases ht <;> cases hb
      | @worker id phase phase' _ after _ workers hp ht hw =>
        obtain rfl : id = worker := beq_iff_eq.mp hb
        have hphase : workers[id]?.any (·.withholds notice) = phase'.withholds notice ∧
            workers[id]?.any (·.shows notice) = phase'.shows notice := by
          have hset := List.getElem?_set_self (a := phase') (List.getElem?_eq_some_iff.mp hp).1
          rw [hw.any_getElem? rfl, hw.any_getElem? (Phase.shows_awake notice), hset]
          exact ⟨rfl, rfl⟩
        have hstep := ht.count_log_add hn
        rw [mark_of_getElem? hp, mark_of_getElem? hp] at ih
        rw [events_worker hp, Phase.alarms_events, mark, mark, hphase.1, hphase.2]
        change after.log.count notice + _ = _
        omega
      | _ => cases hb
    · have hb : action.isBy worker = false := by simpa using hb
      obtain ⟨hlog, halarms⟩ := filter_isBy_of_not_isBy hb hs
      have hsame : next.log.count notice = pool.log.count notice := by
        rw [← List.count_filter hn, hlog, List.count_filter hn]
      have hnone : (alarms (pool.events action)).count notice = 0 := by
        rw [← List.count_filter hn, halarms]
        rfl
      rw [mark_of_not_isBy rfl rfl hb hs,
        mark_of_not_isBy (Phase.shows_spawned notice) (Phase.shows_awake notice) hb hs, hsame,
        hnone]
      exact ih

/-! ## What the owner wrote on its way -/

def opening (pool : Pool ε) : Notice :=
  match pool.failure with
  | none => .poolReady pool.size
  | some error => .cannotSpawn pool.workers.length error

def crashes (workers : List (Phase ε)) (count : Nat) : List Notice :=
  ((List.range count).filter fun id => workers[id]?.any Phase.isCrashed).map .workerPanicked

def milestones (pool : Pool ε) : List Notice :=
  match pool.owner with
  | .spawning | .gathering | .announcing | .lamenting => []
  | .idle | .raising | .watching | .sleeping _ => [pool.opening]
  | .joining worker => pool.opening :: crashes pool.workers worker
  | .clearing | .closing | .unwound => pool.opening :: crashes pool.workers pool.workers.length
  | .closed =>
    pool.opening :: (crashes pool.workers pool.workers.length ++ [.poolDestroyed pool.size])

theorem crashes_succ (worker : Nat) : crashes workers (worker + 1) =
    crashes workers worker ++
      if workers[worker]?.any Phase.isCrashed then [.workerPanicked worker] else [] := by
  rw [crashes, List.range_succ, List.filter_append, List.map_append, List.filter_singleton]
  cases workers[worker]?.any Phase.isCrashed <;> rfl

theorem crashes_of_length_le (h : workers.length ≤ worker) :
    crashes workers worker = crashes workers workers.length := by
  induction h with
  | refl => rfl
  | step h ih =>
    rw [crashes_succ, List.getElem?_eq_none h, ih]
    simp

theorem crashes_congr {count : Nat} (h : ∀ id < count,
    workers'[id]?.any Phase.isCrashed = workers[id]?.any Phase.isCrashed) :
    crashes workers' count = crashes workers count := by
  rw [crashes, List.filter_congr fun id hid => h id (List.mem_range.mp hid), crashes]

theorem isBy_eq_false_of_isOver (ho : ∀ phase, pool.workers[id]? = some phase → phase.isOver)
    (hs : pool.step? action = some next) : action.isBy id = false := by
  by_contra hb
  cases transition_of_step? hs with
  | owner ht => cases ht <;> exact hb rfl
  | worker hp ht =>
    obtain rfl := beq_iff_eq.mp (Bool.not_eq_false _ ▸ hb)
    have hover := ho _ hp
    rw [ht.isOver_eq] at hover
    cases hover
  | _ => exact hb rfl

theorem Reachable.any_isCrashed_of_step? (h : Reachable pool) (hj : pool.owner.hasJoined id)
    (hs : pool.step? action = some next) :
    next.workers[id]?.any Phase.isCrashed = pool.workers[id]?.any Phase.isCrashed := by
  have hb := isBy_eq_false_of_isOver (fun _ hp => h.isOver hj hp) hs
  have hmark := mark_of_not_isBy (f := Phase.isCrashed) rfl rfl hb hs
  rw [mark, mark] at hmark
  cases hn : next.workers[id]?.any Phase.isCrashed <;>
    cases hp : pool.workers[id]?.any Phase.isCrashed <;> simp [hn, hp] at hmark ⊢

/-- A step that is not the owner's adds nothing to what the owner wrote. -/
theorem milestones_congr (ho : next.owner = pool.owner ∨ next.owner = pool.owner.rouse)
    (hf : next.failure = pool.failure) (hsize : next.size = pool.size)
    (hl : next.workers.length = pool.workers.length)
    (hc : ∀ id, pool.owner.hasJoined id → next.workers[id]?.any Phase.isCrashed =
      pool.workers[id]?.any Phase.isCrashed) : next.milestones = pool.milestones := by
  have hopening : next.opening = pool.opening := by
    rw [opening, opening, hf, hsize, hl]
  have hall (hj : ∀ id, pool.owner.hasJoined id) :
      crashes next.workers next.workers.length = crashes pool.workers pool.workers.length := by
    rw [hl]
    exact crashes_congr fun id _ => hc id (hj id)
  cases hp : pool.owner with
  | sleeping notified =>
    obtain ⟨notified', ho⟩ : ∃ notified', next.owner = .sleeping notified' := by
      rcases ho with ho | ho <;> rw [hp] at ho <;> exact ⟨_, ho⟩
    rw [milestones, milestones, hp, ho, hopening]
  | joining worker =>
    have ho : next.owner = .joining worker := by
      rcases ho with ho | ho <;> simp [ho, hp, Owner.rouse]
    rw [milestones, milestones, hp, ho, hopening]
    refine congrArg _ (crashes_congr fun id hid => hc id ?_)
    rw [hp]
    exact decide_eq_true hid
  | clearing | closing | closed | unwound =>
    have ho : next.owner = pool.owner := by
      rcases ho with ho | ho <;> simp [ho, hp, Owner.rouse]
    simp only [milestones, ho, hp, hopening, hsize, hall fun id => by rw [hp]; rfl]
  | _ =>
    have ho : next.owner = pool.owner := by
      rcases ho with ho | ho <;> simp [ho, hp, Owner.rouse]
    rw [milestones, milestones, ho, hp, hopening]

theorem WorkerStep.filter_isMilestone (h : WorkerStep pool id phase phase' signals after) :
    after.log.filter Notice.isMilestone = pool.log.filter Notice.isMilestone := by
  cases h <;> simp [Notice.isMilestone]

theorem Reachable.filter_isMilestone (h : Reachable pool) :
    pool.log.filter Notice.isMilestone = pool.milestones := by
  induction h with
  | start => rfl
  | @step pool next action hr hs ih =>
    have hcrashed (id : Nat) (hj : pool.owner.hasJoined id) :=
      hr.any_isCrashed_of_step? hj hs
    cases transition_of_step? hs with
    | owner ht =>
      cases ht with
      | spawn ho | balk ho | gather ho | gathered ho | giveUp ho | raise ho | deserted ho | wake ho
      | expire ho => simpa [milestones, ho, opening, crashes] using ih
      | broadcast ho =>
        simp only [milestones, ho, opening] at ih ⊢
        split_ifs <;> simpa [Notice.isMilestone] using ih
      | giveUpAgain => exact ih
      | announce ho =>
        have hf := hr.failure_eq (by rw [ho]; rfl)
        simp only [milestones, ho] at ih ⊢
        simp [ih, opening, hf, Notice.isMilestone]
      | lament ho hf =>
        simp only [milestones, ho] at ih ⊢
        simp [ih, opening, hf, Notice.isMilestone]
      | join ho hp =>
        simp only [milestones, ho, opening] at ih ⊢
        simp [crashes_succ, hp, Phase.isCrashed, ih]
      | joinCrashed ho hp hphase =>
        simp only [milestones, ho, opening] at ih ⊢
        rcases hphase with rfl | rfl <;>
          simp [crashes_succ, hp, Phase.isCrashed, ih, Notice.isMilestone]
      | joinedAll ho hp =>
        simp only [milestones, ho, opening] at ih ⊢
        rwa [crashes_of_length_le (List.getElem?_eq_none_iff.mp hp)] at ih
      | clear ho | unwind ho => simpa [milestones, ho, opening] using ih
      | close ho =>
        simp only [milestones, ho, opening] at ih ⊢
        simp [ih, Notice.isMilestone]
    | @worker id phase phase' _ after _ workers hp ht hw =>
      have hl : workers.length = pool.workers.length := by rw [hw.length_eq, List.length_set]
      have hsame := @milestones_congr _ pool { after with workers } ht.owner_eq ht.failure_eq
        ht.size_eq hl hcrashed
      exact ht.filter_isMilestone.trans (ih.trans hsame.symm)
    | stir =>
      refine ih.trans (Eq.symm ?_)
      exact milestones_congr (.inl rfl) rfl rfl List.length_set hcrashed
    | caller hc ht hw =>
      refine (congrArg (List.filter Notice.isMilestone) ht.log_eq).trans (ih.trans (Eq.symm ?_))
      exact milestones_congr (.inl ht.owner_eq) (by cases ht <;> rfl) (by cases ht <;> rfl)
        hw.length_eq hcrashed
    | _ => exact ih

/-! ## What the owner complains of -/

/-- What there is to complain of when the owner looks for workers after the grace period. -/
def complaint? (pool : Pool ε) : Action ε → Option Notice
  | .watch true => if pool.alive = 0 then none else some (.stillBusy pool.alive pool.working)
  | _ => none

def complaints (pool : Pool ε) : List (Action ε) → List Notice
  | [] => []
  | action :: rest =>
    (pool.complaint? action).toList ++ (pool.step? action).elim [] fun next => next.complaints rest

theorem WorkerStep.filter_isComplaint (h : WorkerStep pool id phase phase' signals after) :
    after.log.filter Notice.isComplaint = pool.log.filter Notice.isComplaint ∧
      after.warned = pool.warned := by
  cases h <;> simp [Notice.isComplaint]

theorem filter_isComplaint_of_step? (hs : pool.step? action = some next) :
    next.log.filter Notice.isComplaint = pool.log.filter Notice.isComplaint ++
        (if pool.warned then [] else (pool.complaint? action).toList) ∧
      next.warned = (pool.warned || (pool.complaint? action).isSome) := by
  cases transition_of_step? hs with
  | owner ht =>
    cases ht with
    | @broadcast late _ ha =>
      cases late <;> cases pool.warned <;> simp [complaint?, ha, Notice.isComplaint]
    | @deserted late _ ha => cases late <;> simp [complaint?, ha]
    | _ => simp [complaint?, Notice.isComplaint]
  | worker hp ht => simpa [complaint?] using ht.filter_isComplaint
  | caller hc ht => cases ht <;> simp [complaint?]
  | _ => simp [complaint?]

/-- The owner complains once, when it has cause to for the first time. -/
theorem filter_isComplaint_of_play? (hp : pool.play? actions = some next) :
    next.log.filter Notice.isComplaint = pool.log.filter Notice.isComplaint ++
      if pool.warned then [] else (pool.complaints actions).take 1 := by
  induction actions generalizing pool with
  | nil =>
    cases Option.some.inj hp
    simp [complaints]
  | cons action actions ih =>
    obtain ⟨between, hs, hrest⟩ := after?_cons_eq_some_iff.mp hp
    obtain ⟨hlog, hwarned⟩ := filter_isComplaint_of_step? hs
    rw [ih hrest, hlog, hwarned, complaints, hs]
    cases pool.warned <;> cases pool.complaint? action <;> simp

end Pool
end TreePool
