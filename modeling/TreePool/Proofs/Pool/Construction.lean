import TreePool.Proofs.Pool.Balance
import TreePool.Proofs.Pool.Evacuation

/-! # Building a pool

An attempt to build a pool comes to an end whatever the order of the steps. Either all threads can
be started, and then it ends with every worker alive and none at work; or one thread cannot, and
then it ends with an error, and the workers that were started before are all over. In between,
workers may still be on their way when the owner has stopped looking for them; they see the shutdown
flag before they come to the gate. -/

namespace TreePool

variable {ε : Type}

namespace Owner

def isBuilding : Owner → Bool
  | .spawning | .gathering | .announcing => true
  | _ => false

def hasGathered : Owner → Bool
  | .spawning | .gathering => false
  | _ => true

@[simp] theorem isBuilding_rouse (owner : Owner) : owner.rouse.isBuilding = owner.isBuilding := by
  cases owner <;> rfl

@[simp] theorem hasGathered_rouse (owner : Owner) :
    owner.rouse.hasGathered = owner.hasGathered := by
  cases owner <;> rfl

theorem hasRaised_of_isBuilding {owner : Owner} (h : owner.isBuilding) :
    owner.hasRaised = false := by
  cases owner <;> first | rfl | cases h

theorem not_isBuilding_of_isDone {owner : Owner} (h : owner.isDone) :
    owner.isBuilding = false := by
  cases owner <;> first | rfl | cases h

theorem admits_of_isBuilding {owner : Owner} (h : owner.isBuilding) (caller : Caller ε) :
    owner.admits caller = false := by
  cases owner <;> first | rfl | cases h

end Owner

namespace Phase

def isFresh : Phase ε → Bool
  | .spawned | .counted | .greeting | .looping | .atGate _ => true
  | _ => false

theorem not_isWorking_of_isFresh {phase : Phase ε} (h : phase.isFresh) : ¬ phase.isWorking := by
  cases phase with
  | spawned | counted | greeting | looping | atGate => exact Bool.false_ne_true
  | _ => cases h

theorem isAlive_of_hasReported {phase : Phase ε} (h : phase.hasReported) (hl : ¬ phase.hasLeft) :
    phase.isAlive := by
  cases phase with
  | spawned => cases h
  | parting | ended | crashed => exact absurd rfl hl
  | _ => rfl

end Phase

namespace Pool

variable {pool next after : Pool ε} {action : Action ε} {actions : List (Action ε)} {id : Nat}
variable {phase phase' : Phase ε} {signals : Bool} {woken : Option Nat}
variable {workers workers' : List (Phase ε)} {error : IoError}

/-- What the attempt to build a pool has come to, if it is over. -/
def built? (pool : Pool ε) : Option (Except Error Unit) :=
  match pool.failure with
  | some error => if pool.owner = .closed then some (.error (.io error)) else none
  | none => if pool.owner.isBuilding then none else some (.ok ())

theorem built?_of_failure (hf : pool.failure = some error) :
    pool.built? = if pool.owner = .closed then some (.error (.io error)) else none := by
  rw [built?, hf]

theorem built?_of_no_failure (hf : pool.failure = none) :
    pool.built? = if pool.owner.isBuilding then none else some (.ok ()) := by
  rw [built?, hf]

theorem not_isBuilding_of_isOpen (h : pool.IsOpen) : pool.owner.isBuilding = false := by
  rcases h with ho | ⟨ho, -⟩
  · rw [ho]
    rfl
  · exact Owner.not_isBuilding_of_isDone ho

/-! ## While a pool is built -/

theorem WorkerStep.isFresh (h : WorkerStep pool id phase phase' signals after)
    (hs : pool.shutdown = false) (ha : pool.queue.gate.armed = false) (hp : phase.isFresh) :
    after.queue = pool.queue ∧ phase'.isFresh := by
  cases h with
  | quit hf => rw [hs] at hf; cases hf
  | pass _ harmed => rw [ha] at harmed; cases harmed
  | count | report | greet | approach | doze => exact ⟨rfl, rfl⟩
  | _ => cases hp

/-- Until the pool is in use nothing is queued, the gate is closed, and nobody gets through. -/
theorem Reachable.isFresh (h : Reachable pool) (ho : pool.owner.isBuilding) :
    pool.queue.tasks = [] ∧ pool.queue.gate.armed = false ∧
      ∀ phase ∈ pool.workers, phase.isFresh := by
  induction h with
  | start => exact ⟨rfl, rfl, by simp [Pool.start]⟩
  | @step pool _ action hr hs ih =>
    cases transition_of_step? hs with
    | owner ht =>
      cases ht with
      | spawn =>
        obtain ⟨htasks, harmed, hfresh⟩ := ih ho
        refine ⟨htasks, harmed, fun phase hm => ?_⟩
        rcases List.mem_append.mp hm with hm | hm
        · exact hfresh phase hm
        · cases List.mem_singleton.mp hm
          rfl
      | gather hp | gathered hp => exact ih (by rw [hp]; rfl)
      | giveUpAgain => exact ih ho
      | _ => cases ho
    | @worker id phase phase' signals after _ workers hp ht hw =>
      have hbuilding : pool.owner.isBuilding :=
        (ht.test_owner_eq Owner.isBuilding_rouse).symm.trans ho
      have hflag : pool.shutdown = false :=
        hr.shutdown_eq.trans (Owner.hasRaised_of_isBuilding hbuilding)
      obtain ⟨htasks, harmed, hfresh⟩ := ih hbuilding
      obtain ⟨hqueue, hphase⟩ :=
        ht.isFresh hflag harmed (hfresh phase (List.mem_of_getElem? hp))
      change after.queue.tasks = [] ∧ after.queue.gate.armed = false ∧ _
      rw [hqueue]
      exact ⟨htasks, harmed, hw.forall_mem_of_set (fun _ => rfl) hfresh hphase⟩
    | stir hp =>
      obtain ⟨htasks, harmed, hfresh⟩ := ih ho
      exact ⟨htasks, harmed, (Signal.wakes hp).forall_mem (fun _ => rfl) hfresh⟩
    | callWait hopen | callSubmit hopen =>
      rw [not_isBuilding_of_isOpen hopen] at ho
      cases ho
    | caller hc ht =>
      have hadmits := hr.admits _ (List.mem_of_getElem? hc)
      rw [Owner.admits_of_isBuilding (ht.owner_eq ▸ ho)] at hadmits
      cases hadmits
    | _ => exact ih ho

theorem Reachable.working_of_isBuilding (h : Reachable pool) (ho : pool.owner.isBuilding) :
    pool.working = 0 := by
  rw [h.counted.working]
  refine List.countP_eq_zero.mpr fun phase hm => ?_
  exact Phase.not_isWorking_of_isFresh ((h.isFresh ho).2.2 phase hm)

/-! ## A pool that has been built -/

theorem WorkerStep.hasReported (h : WorkerStep pool id phase phase' signals after)
    (hp : phase.hasReported) : phase'.hasReported := by
  cases h with
  | count | report => cases hp
  | part => cases pool.fragile <;> rfl
  | _ => rfl

theorem Phase.hasReported_rouse (phase : Phase ε) :
    phase.rouse.hasReported = phase.hasReported := by
  cases phase with
  | atGate stance => cases stance <;> rfl
  | _ => rfl

theorem Reachable.hasReported (h : Reachable pool) (hf : pool.failure = none)
    (ho : pool.owner.hasGathered) : ∀ phase ∈ pool.workers, phase.hasReported := by
  induction h with
  | start => cases ho
  | @step pool _ action hr hs ih =>
    cases transition_of_step? hs with
    | owner ht =>
      cases ht with
      | spawn hp => simp [hp, Owner.hasGathered] at ho
      | balk => cases hf
      | gather => cases ho
      | gathered _ hreported => exact List.all_eq_true.mp hreported
      | broadcast hp =>
        intro phase hm
        obtain ⟨old, hold, rfl⟩ := List.mem_map.mp hm
        rw [Phase.hasReported_rouse]
        exact ih hf (by rw [hp]; rfl) old hold
      | giveUpAgain => exact ih hf ho
      | _ hp => exact ih hf (by rw [hp]; rfl)
    | @worker id phase phase' _ after _ workers hp ht hw =>
      have hgathered : pool.owner.hasGathered :=
        (ht.test_owner_eq Owner.hasGathered_rouse).symm.trans ho
      have hold := ih (ht.failure_eq.symm.trans hf) hgathered
      refine hw.forall_mem_of_set (fun _ => rfl) hold ?_
      exact ht.hasReported (hold phase (List.mem_of_getElem? hp))
    | stir hp => exact (Signal.wakes hp).forall_mem (fun _ => rfl) (ih hf ho)
    | caller hc ht hw =>
      refine hw.forall_mem (fun _ => rfl) ?_
      cases ht <;> exact ih hf ho
    | _ => exact ih hf ho

/-- From the time when a pool is in use until the flag is up, all its workers are alive. -/
theorem Reachable.alive_eq_size (h : Reachable pool) (hf : pool.failure = none)
    (ho : pool.owner.hasGathered) (hs : pool.shutdown = false) : pool.alive = pool.size := by
  have hlength : pool.workers.length = pool.size :=
    h.length_workers hf fun he => by rw [he] at ho; cases ho
  rw [h.counted.alive, ← hlength]
  refine List.countP_eq_length.mpr fun phase hm => ?_
  have hleft := List.countP_eq_zero.mp (h.countP_hasLeft hs) phase hm
  exact Phase.isAlive_of_hasReported (h.hasReported hf ho phase hm) hleft

/-! ## A pool that cannot be built -/

theorem Reachable.not_isContent (h : Reachable pool) (hf : pool.failure = some error) :
    pool.owner.isContent = false := by
  by_contra hc
  rw [h.failure_eq (by simpa using hc)] at hf
  cases hf

theorem Reachable.failure_of_step? (h : Reachable pool) (hf : pool.failure = some error)
    (hs : pool.step? action = some next) :
    next.failure = some error ∧ next.workers.length = pool.workers.length := by
  have hcontent := h.not_isContent hf
  cases transition_of_step? hs with
  | owner ht =>
    cases ht with
    | spawn hp | balk hp =>
      rw [hp] at hcontent
      cases hcontent
    | broadcast => exact ⟨hf, List.length_map _⟩
    | _ => exact ⟨hf, rfl⟩
  | worker hp ht hw => exact ⟨ht.failure_eq.trans hf, hw.length_eq.trans List.length_set⟩
  | stir => exact ⟨hf, List.length_set⟩
  | caller hc ht hw => cases ht <;> exact ⟨hf, hw.length_eq⟩
  | _ => exact ⟨hf, rfl⟩

theorem Reachable.failure_of_play? (h : Reachable pool) (hf : pool.failure = some error)
    (hp : pool.play? actions = some next) :
    next.failure = some error ∧ next.workers.length = pool.workers.length := by
  have hstep {between after : Pool ε} {action : Action ε}
      (hlaw : Reachable between ∧ between.failure = some error ∧
        between.workers.length = pool.workers.length) (hs : between.step? action = some after) :
      Reachable after ∧ after.failure = some error ∧
        after.workers.length = pool.workers.length := by
    obtain ⟨hr, hfailure, hlength⟩ := hlaw
    obtain ⟨hafter, hsame⟩ := hr.failure_of_step? hfailure hs
    exact ⟨hr.step action hs, hafter, hsame.trans hlength⟩
  have hnext : Reachable next ∧ next.failure = some error ∧
      next.workers.length = pool.workers.length := after?_induction hstep ⟨h, hf, rfl⟩ hp
  exact hnext.2

theorem Reachable.length_lt_size (h : Reachable pool) (hf : pool.failure = some error) :
    pool.workers.length < pool.size := by
  induction h generalizing error with
  | start => cases hf
  | @step pool _ action hr hs ih =>
    cases hold : pool.failure with
    | some cause =>
      rw [size_eq_of_step? hs, (hr.failure_of_step? hold hs).2]
      exact ih hold
    | none =>
      cases transition_of_step? hs with
      | owner ht =>
        cases ht with
        | balk _ hlt => exact hlt
        | _ => cases hold.symm.trans hf
      | worker hp ht => cases (ht.failure_eq.trans hold).symm.trans hf
      | caller hc ht => cases ht <;> cases hold.symm.trans hf
      | _ => cases hold.symm.trans hf

theorem Reachable.failure_of_isOpen (h : Reachable pool) (ho : pool.IsOpen) :
    pool.failure = none := by
  rcases ho with ho | ⟨-, hf⟩
  · exact h.failure_eq (by rw [ho]; rfl)
  · exact hf

theorem isBuilding_or_of_step? (hs : pool.step? action = some next)
    (h : next.owner.isBuilding = true ∨ next.failure ≠ none) :
    pool.owner.isBuilding = true ∨ pool.failure ≠ none := by
  cases transition_of_step? hs with
  | owner ht =>
    cases ht with
    | spawn | giveUpAgain => exact h
    | gather ho | gathered ho | balk ho => exact .inl (by rw [ho]; rfl)
    | _ => exact .inr (h.resolve_left Bool.false_ne_true)
  | worker hp ht =>
    rw [show Pool.failure _ = _ from ht.failure_eq] at h
    exact h.imp_left fun ho => (ht.test_owner_eq Owner.isBuilding_rouse).symm.trans ho
  | caller hc ht => cases ht <;> exact h
  | _ => exact h

theorem Reachable.offered_eq_zero (h : Reachable pool)
    (ho : pool.owner.isBuilding = true ∨ pool.failure ≠ none) : pool.offered = 0 := by
  induction h with
  | start => rfl
  | @step pool _ action hr hs ih =>
    have hzero := ih (isBuilding_or_of_step? hs ho)
    cases transition_of_step? hs with
    | owner ht => cases ht <;> exact hzero
    | @worker id phase _ _ _ _ _ hp ht =>
      have hempty {ticket : Ticket} (hh : phase.holds ticket) : False := by
        have hheld : 0 < pool.workers.countP (Phase.holds ticket) :=
          List.countP_pos_iff.mpr ⟨phase, List.mem_of_getElem? hp, hh⟩
        have hcount := hr.count_pulled ticket
        have hlt : ticket < pool.offered := hr.lt_offered_of_pulled (by omega)
        rw [hzero] at hlt
        exact Nat.not_lt_zero ticket hlt
      cases ht with
      | @refuse ticket | @offer ticket => exact (hempty (beq_self_eq_true ticket)).elim
      | _ => exact hzero
    | callSubmit hopen =>
      rcases isBuilding_or_of_step? hs ho with hb | hf
      · rw [not_isBuilding_of_isOpen hopen] at hb
        cases hb
      · exact absurd (hr.failure_of_isOpen hopen) hf
    | caller hc ht => cases ht <;> exact hzero
    | _ => exact hzero

theorem Reachable.lost_of_failure (h : Reachable pool) (hf : pool.failure ≠ none) :
    pool.lost = 0 := by
  have hoffered := h.offered_eq_zero (.inr hf)
  have hfinished : pool.finished = [] := by
    rw [List.eq_nil_iff_forall_not_mem]
    intro entry hm
    have hcount := h.count_pulled entry.1
    have hpos : 0 < (pool.finished.map Prod.fst).count entry.1 :=
      List.count_pos_iff.mpr (List.mem_map_of_mem hm)
    have hlt : entry.1 < pool.offered := h.lt_offered_of_pulled (by omega)
    rw [hoffered] at hlt
    exact Nat.not_lt_zero entry.1 hlt
  have hle := h.lost_le_explosions
  rw [explosions, hfinished] at hle
  exact Nat.le_zero.mp hle

theorem hasWatched_of_step? (hs : pool.step? action = some next) (ho : pool.owner.hasWatched) :
    next.owner.hasWatched := by
  cases transition_of_step? hs with
  | owner ht =>
    cases ht with
    | join | joinCrashed | joinedAll | clear | unwind | close => rfl
    | giveUpAgain => exact ho
    | _ hp => rw [hp] at ho; cases ho
  | worker hp ht => exact (ht.test_owner_eq Owner.hasWatched_rouse).trans ho
  | caller hc ht => exact ht.owner_eq ▸ ho
  | _ => exact ho

theorem hasWatched_of_play? (hp : pool.play? actions = some next) (ho : pool.owner.hasWatched) :
    next.owner.hasWatched :=
  after?_induction (fun ho hs => hasWatched_of_step? hs ho) ho hp

/-! ## All or nothing -/

/-- A thread could not be started. The attempt ends with that error and no other way; then the
workers that were started are all over. Once the owner has stopped looking for workers that are
alive, nobody comes to the gate. -/
structure Abandoned (error : IoError) (pool : Pool ε) : Prop where
  short : pool.workers.length < pool.size
  kept : ∀ actions next, pool.play? actions = some next →
    next.workers.length = pool.workers.length ∧
      (next.built? = none ∨ next.built? = some (.error (.io error)))
  ended : pool.built? = some (.error (.io error)) →
    pool.alive = 0 ∧ pool.working = 0 ∧ ∀ phase ∈ pool.workers, phase.isOver = true
  late : pool.owner.hasWatched = true → ∀ actions next, pool.play? actions = some next →
    next.shutdown = true ∧ ∀ phase ∈ next.workers, phase.isOutside = true

/-- All threads have been started so far. The attempt ends when every worker is alive and none is at
work, and until the flag is up all of them stay alive. -/
structure Established (pool : Pool ε) : Prop where
  complete : ∀ action next, pool.built? = none → pool.step? action = some next →
    next.built? = some (.ok ()) → next.alive = next.size ∧ next.working = 0
  stays : pool.built? = some (.ok ()) → pool.shutdown = false → pool.alive = pool.size

/-- An attempt to build a pool goes on by itself until it is over, which is soon, and then it has
succeeded or failed altogether. -/
structure Attempt (pool : Pool ε) : Prop where
  goesOn : pool.built? = none → pool.Acts
  bounded : ∀ actions next, pool.play? actions = some next →
    actions.countP Action.isOwn ≤ pool.energy + (actions.map (Action.cost pool.size)).sum
  ends : ∃ actions next, (∀ action ∈ actions, action.isOwn) ∧
    pool.play? actions = some next ∧ next.built?.isSome
  fails : ∀ error, pool.failure = some error → Abandoned error pool
  succeeds : pool.failure = none → Established pool

theorem Reachable.abandoned (h : Reachable pool) (hf : pool.failure = some error) :
    Abandoned error pool := by
  refine ⟨h.length_lt_size hf, ?_, ?_, ?_⟩
  · intro actions next hp
    obtain ⟨hnext, hlength⟩ := h.failure_of_play? hf hp
    refine ⟨hlength, ?_⟩
    rw [built?_of_failure hnext]
    split_ifs
    · exact .inr rfl
    · exact .inl rfl
  · intro hb
    have hc : pool.owner = .closed := by
      rw [built?_of_failure hf] at hb
      split_ifs at hb with hc
      exact hc
    exact ⟨h.alive_of_closed hc, h.working_of_closed hc,
      h.isOver_of_isDone (Owner.isDone_of_eq_closed hc)⟩
  · intro ho actions next hp
    have hnext := h.play? hp
    have hwatched := hasWatched_of_play? hp ho
    refine ⟨?_, hnext.isOutside hwatched⟩
    rw [hnext.shutdown_eq]
    exact Owner.hasRaised_of_hasWatched hwatched

theorem eq_idle_of_built? (hf : pool.failure = none) (hb : pool.built? = none)
    (hs : pool.step? action = some next) (hn : next.built? = some (.ok ())) :
    pool.owner = .announcing ∧ next.owner = .idle ∧ next.failure = none ∧
      next.working = pool.working := by
  have hbuilding : pool.owner.isBuilding := by
    rw [built?_of_no_failure hf] at hb
    split_ifs at hb with ho
    exact ho
  have hsame (hkept : next.failure = none) (ho : next.owner.isBuilding = pool.owner.isBuilding) :
      False := by
    rw [built?_of_no_failure hkept, ho, if_pos hbuilding] at hn
    cases hn
  cases transition_of_step? hs with
  | owner ht =>
    cases ht with
    | announce ho => exact ⟨ho, rfl, hf, rfl⟩
    | spawn | giveUpAgain => exact (hsame hf rfl).elim
    | gather ho | gathered ho => exact (hsame hf (by rw [ho]; rfl)).elim
    | balk => cases hn
    | _ ho => rw [ho] at hbuilding; cases hbuilding
  | @worker id phase phase' _ after _ workers hp ht hw =>
    exact (hsame (ht.failure_eq.trans hf) (ht.test_owner_eq Owner.isBuilding_rouse)).elim
  | caller hc ht hw => cases ht <;> exact (hsame hf rfl).elim
  | _ => exact (hsame hf rfl).elim

theorem Reachable.established (h : Reachable pool) (hf : pool.failure = none) :
    Established pool := by
  constructor
  · intro action next hb hs hn
    obtain ⟨ho, hidle, hkept, hworking⟩ := eq_idle_of_built? hf hb hs hn
    have hnext := h.step action hs
    have hflag : next.shutdown = false := by
      rw [hnext.shutdown_eq, hidle]
      rfl
    refine ⟨hnext.alive_eq_size hkept (by rw [hidle]; rfl) hflag, ?_⟩
    rw [hworking]
    exact h.working_of_isBuilding (by rw [ho]; rfl)
  · intro hb hs
    refine h.alive_eq_size hf ?_ hs
    rw [built?_of_no_failure hf] at hb
    cases ho : pool.owner with
    | spawning | gathering => rw [ho] at hb; cases hb
    | _ => rfl

/-- A pool that cannot be built is offered no task whose destructor might cut the owner off. -/
theorem Reachable.owner_ne_unwound (h : Reachable pool) (hf : pool.failure ≠ none) :
    pool.owner ≠ .unwound := by
  induction h with
  | start => exact absurd rfl hf
  | @step pool _ action hr hs ih =>
    cases transition_of_step? hs with
    | owner ht =>
      cases ht with
      | spawn | giveUpAgain => exact ih hf
      | unwind _ ht =>
        have hoffered := hr.offered_eq_zero (.inr hf)
        obtain ⟨task, hm⟩ := List.exists_mem_of_ne_nil _ ht
        have hcount := hr.count_tickets task.ticket
        have hpos := List.count_pos_iff.mpr (List.mem_map_of_mem (f := Task.ticket) hm)
        rw [hr.accepted_eq, List.count_append, hoffered] at hcount
        have hnot : (decide (task.ticket < 0)).toNat = 0 := rfl
        omega
      | _ => nofun
    | worker hp ht => exact ht.owner_ne_unwound (ih (ht.failure_eq ▸ hf))
    | caller hc ht => cases ht <;> exact ih hf
    | _ => exact ih hf

theorem Reachable.acts_of_built? (h : Reachable pool) (hb : pool.built? = none) : pool.Acts := by
  cases hf : pool.failure with
  | none =>
    rw [built?_of_no_failure hf] at hb
    have hbuilding : pool.owner.isBuilding := by
      split_ifs at hb with ho
      exact ho
    rcases h.acts_or with ha | ho | ho | ⟨ho, -⟩
    · exact ha
    · rw [ho] at hbuilding
      cases hbuilding
    · rw [Owner.not_isBuilding_of_isDone ho] at hbuilding
      cases hbuilding
    · rw [ho] at hbuilding
      cases hbuilding
  | some error =>
    rw [built?_of_failure hf] at hb
    have hopen : pool.owner ≠ .closed := by
      intro hc
      rw [if_pos hc] at hb
      cases hb
    have hfailed : pool.failure ≠ none := by
      rw [hf]
      nofun
    rcases h.acts_or with ha | ho | ho | ⟨ho, hl⟩
    · exact ha
    · exact absurd (h.failure_eq (by rw [ho]; rfl)) hfailed
    · rcases Owner.eq_closed_or_of_isDone ho with ho | ho
      · exact absurd ho hopen
      · exact absurd ho (h.owner_ne_unwound hfailed)
    · have hpos := h.alive_of_sleeping ho
      rw [hl, h.lost_of_failure hfailed] at hpos
      cases hpos

theorem Reachable.attempt (h : Reachable pool) : Attempt pool := by
  refine ⟨h.acts_of_built?, ?_, ?_, ?_, ?_⟩
  · intro actions next hp
    exact h.countP_isOwn_le hp
  · obtain ⟨actions, next, hown, hp, hn⟩ := h.exists_play?_not_acts
    refine ⟨actions, next, hown, hp, Option.isSome_iff_ne_none.mpr fun hb => ?_⟩
    exact hn ((h.play? hp).acts_of_built? hb)
  · intro error hf
    exact h.abandoned hf
  · intro hf
    exact h.established hf

/-- Two of three threads can be started. The owner finds one worker, which leaves, and stops looking
for workers; then the other one counts itself and finds the flag. -/
def lateCount : List (Action Nat) :=
  List.flatten [[.spawn none, .spawn none, .spawn (some SystemError.tryAgain)],
    List.replicate 5 (.worker 0 none), [.owner, .owner, .watch false],
    List.replicate 3 (.worker 0 none), [.owner, .watch false],
    List.replicate 4 (.worker 1 none)]

theorem attempt_lateCount :
    ∃ pool : Pool Nat, Reachable pool ∧ pool.failure = some SystemError.tryAgain ∧
      pool.owner = .joining 0 ∧ pool.workers = [.parting, .leaving] ∧ pool.alive = 1 ∧
      Attempt pool := by
  have hstart : Reachable (start 3 false : Pool Nat) := .start false (by decide)
  obtain ⟨pool, hr, ht⟩ := hstart.exists_of_play? lateCount
    (fun pool => pool.failure = some SystemError.tryAgain ∧ pool.owner = .joining 0 ∧
      pool.workers = [.parting, .leaving] ∧ pool.alive = 1)
    (by decide +kernel)
  obtain ⟨hf, ho, hw, ha⟩ := of_decide_eq_true ht
  exact ⟨pool, hr, hf, ho, hw, ha, hr.attempt⟩

end Pool
end TreePool
