import TreePool.Proofs.Pool.Lifecycle

/-! # When no worker is alive

The owner joins the workers when it has found none of them alive. From then on nobody comes to the
gate: who counts itself later sees the flag first. So a worker that the owner has joined is over,
and has counted itself out, and nothing comes into the queue after the owner has cleared it.
-/

namespace TreePool

variable {ε : Type}

namespace Phase

/-- Whether the worker has not been at the gate yet or is done with it. -/
def isOutside : Phase ε → Bool
  | .spawned | .counted | .greeting | .looping | .leaving | .parting | .ended | .crashed => true
  | _ => false

theorem isAsleep_of_isOutside {phase : Phase ε} (h : phase.isOutside) : phase.isAsleep = false := by
  cases phase with
  | atGate => cases h
  | _ => rfl

theorem isOutside_of_not_isAlive {phase : Phase ε} (h : phase.isAlive = false) :
    phase.isOutside := by
  cases phase with
  | spawned | parting | ended | crashed => rfl
  | _ => cases h

theorem not_isWorking_of_isOutside {phase : Phase ε} (h : phase.isOutside) :
    phase.isWorking = false := by
  cases phase <;> first | rfl | cases h

theorem not_isAlive_of_isOver {phase : Phase ε} (h : phase.isOutside) (ho : phase.isOver) :
    phase.isAlive = false := by
  cases phase with
  | ended | crashed => rfl
  | lost => cases h
  | _ => cases ho

theorem not_isLost_of_isOutside {phase : Phase ε} (h : phase.isOutside) :
    phase.isLost = false := by
  cases phase with
  | lost => cases h
  | _ => rfl

end Phase

theorem Owner.hasJoined_of_ne {owner : Owner} {worker id : Nat} (ho : owner = .joining worker)
    (hj : (Owner.joining (worker + 1)).hasJoined id) (hn : id ≠ worker) : owner.hasJoined id := by
  subst ho
  simp only [hasJoined, decide_eq_true_eq] at hj ⊢
  omega

namespace Pool

variable {pool next after : Pool ε} {action : Action ε} {id : Nat} {phase phase' : Phase ε}
variable {signals : Bool} {woken : Option Nat} {workers workers' : List (Phase ε)}
variable {caller caller' : Caller ε}

/-! ## Workers that come too late -/

theorem WorkerStep.isOutside (h : WorkerStep pool id phase phase' signals after)
    (hs : pool.shutdown = true) (hp : phase.isOutside) : phase'.isOutside := by
  cases h with
  | approach hf => rw [hs] at hf; cases hf
  | part => cases pool.fragile <;> rfl
  | count | report | greet | quit | leave => rfl
  | _ => cases hp

theorem Signal.forall_mem (h : Signal signals workers woken workers') {test : Phase ε → Bool}
    (ht : test (.atGate .asleep) → test (.atGate .awake)) (ho : ∀ phase ∈ workers, test phase) :
    ∀ phase ∈ workers', test phase := by
  cases h with
  | silent | unheard => exact ho
  | wakes hp =>
    intro phase hm
    rcases List.mem_or_eq_of_mem_set hm with hm | rfl
    · exact ho phase hm
    · exact ht (ho _ (List.mem_of_getElem? hp))

theorem Signal.forall_mem_of_set (h : Signal signals (workers.set id phase') woken workers')
    {test : Phase ε → Bool} (ht : test (.atGate .asleep) → test (.atGate .awake))
    (ho : ∀ phase ∈ workers, test phase) (hphase : test phase') :
    ∀ phase ∈ workers', test phase := by
  apply h.forall_mem ht
  intro phase hm
  rcases List.mem_or_eq_of_mem_set hm with hm | rfl
  · exact ho phase hm
  · exact hphase

/-- Once the owner has found no worker alive, nobody comes to the gate any more: who counts itself
later sees the flag first. -/
theorem Reachable.isOutside (h : Reachable pool) (ho : pool.owner.hasWatched) :
    ∀ phase ∈ pool.workers, phase.isOutside := by
  induction h with
  | start => cases ho
  | @step pool _ action hr hs ih =>
    cases transition_of_step? hs with
    | owner ht =>
      cases ht with
      | deserted _ ha =>
        intro phase hm
        rw [hr.counted.alive] at ha
        exact Phase.isOutside_of_not_isAlive (by simpa using List.countP_eq_zero.mp ha phase hm)
      | spawn hp => simp [hp, Owner.hasWatched] at ho
      | giveUpAgain => exact ih ho
      | join hp | joinCrashed hp | joinedAll hp | clear hp | unwind hp | close hp =>
        exact ih (by rw [hp]; rfl)
      | _ => cases ho
    | @worker id phase phase' _ after _ workers hp ht hw =>
      have hwatched : pool.owner.hasWatched :=
        (ht.test_owner_eq Owner.hasWatched_rouse).symm.trans ho
      have hshutdown : pool.shutdown = true := by
        rw [hr.shutdown_eq]
        exact Owner.hasRaised_of_hasWatched hwatched
      have hold := ih hwatched
      refine hw.forall_mem_of_set (fun hf => hf) hold ?_
      exact ht.isOutside hshutdown (hold phase (List.mem_of_getElem? hp))
    | stir hp => exact (Signal.wakes hp).forall_mem (fun hf => hf) (ih ho)
    | caller hc ht hw => exact hw.forall_mem (fun hf => hf) (ih (ht.owner_eq ▸ ho))
    | _ => exact ih ho

/-- Nobody works any more then. -/
theorem Reachable.working_of_hasWatched (h : Reachable pool) (ho : pool.owner.hasWatched) :
    pool.working = 0 := by
  rw [h.counted.working]
  refine List.countP_eq_zero.mpr fun phase hm => ?_
  rw [Phase.not_isWorking_of_isOutside (h.isOutside ho phase hm)]
  exact Bool.false_ne_true

/-- The owner does not get past the watch as long as a worker is lost. -/
theorem Reachable.lost_of_hasWatched (h : Reachable pool) (ho : pool.owner.hasWatched) :
    pool.lost = 0 :=
  lost_eq_zero_iff.mpr fun phase hm => Phase.not_isLost_of_isOutside (h.isOutside ho phase hm)

/-! ## Workers that are over -/

theorem WorkerStep.isOver_eq (h : WorkerStep pool id phase phase' signals after) :
    phase.isOver = false := by
  cases h <;> rfl

theorem Signal.eq_or_asleep (h : Signal signals workers woken workers')
    (hp : workers'[id]? = some phase) :
    workers[id]? = some phase ∨ workers[id]? = some (.atGate .asleep) := by
  cases h with
  | silent | unheard => exact .inl hp
  | @wakes _ sleeper ha =>
    by_cases hi : sleeper = id
    · subst hi
      exact .inr ha
    · rw [List.getElem?_set_ne hi] at hp
      exact .inl hp

/-- A worker whose thread the owner has joined is over. -/
theorem Reachable.isOver (h : Reachable pool) :
    ∀ {id phase}, pool.owner.hasJoined id → pool.workers[id]? = some phase → phase.isOver := by
  induction h with
  | start => intro _ _ hj; cases hj
  | @step pool _ action _ hs ih =>
    intro i phase hj hi
    cases transition_of_step? hs with
    | owner ht =>
      cases ht with
      | spawn ho => simp [ho, Owner.hasJoined] at hj
      | @join worker ho hp =>
        by_cases he : i = worker
        · subst he
          cases hp.symm.trans hi
          rfl
        · exact ih (Owner.hasJoined_of_ne ho hj he) hi
      | @joinCrashed worker last ho hp hover =>
        by_cases he : i = worker
        · subst he
          cases hp.symm.trans hi
          rcases hover with rfl | rfl <;> rfl
        · exact ih (Owner.hasJoined_of_ne ho hj he) hi
      | @joinedAll worker ho hp =>
        refine ih ?_ hi
        have hlt : i < pool.workers.length := (List.getElem?_eq_some_iff.mp hi).1
        have hge := List.getElem?_eq_none_iff.mp hp
        simp only [ho, Owner.hasJoined, decide_eq_true_eq]
        omega
      | clear ho | unwind ho | close ho => exact ih (by rw [ho]; rfl) hi
      | giveUpAgain => exact ih hj hi
      | _ => simp [Owner.hasJoined] at hj
    | @worker id phase phase' _ after _ workers hp ht hw =>
      have hj : pool.owner.hasJoined i := by
        change after.owner.hasJoined i = true at hj
        rcases ht.owner_eq with ho | ho <;> simpa [ho] using hj
      by_cases he : id = i
      · subst he
        have := ih hj hp
        rw [ht.isOver_eq] at this
        cases this
      · rcases hw.eq_or_asleep hi with hi | hi <;> rw [List.getElem?_set_ne he] at hi
        · exact ih hj hi
        · cases ih hj hi
    | @stir id hp =>
      by_cases he : id = i
      · subst he
        cases ih hj hp
      · rw [List.getElem?_set_ne he] at hi
        exact ih hj hi
    | caller hc ht hw =>
      have hj := ht.owner_eq ▸ hj
      rcases hw.eq_or_asleep hi with hi | hi
      · exact ih hj hi
      · cases ih hj hi
    | _ => exact ih hj hi

/-! ## The queue after it has been cleared -/

theorem CallerStep.queue_eq (h : CallerStep pool caller caller' signals after)
    (hp : caller.isPushing = false) : after.queue = pool.queue := by
  cases h with
  | push => cases hp
  | _ => rfl

theorem Reachable.hasCleared_eq_false (h : Reachable pool) (hp : pool.workers[id]? = some phase)
    (ho : phase.isOver = false) : pool.owner.hasCleared = false := by
  by_contra hc
  rw [h.isOver (Owner.hasJoined_of_hasCleared (by simpa using hc) id) hp] at ho
  cases ho

theorem Reachable.cleared (h : Reachable pool) (hc : pool.owner.hasCleared) :
    pool.queue.tasks = [] ∧ (pool.owner ≠ .unwound → pool.queue.gate.armed = false) := by
  induction h with
  | start => cases hc
  | @step pool _ action hr hs ih =>
    cases transition_of_step? hs with
    | owner ht =>
      cases ht with
      | clear => exact ⟨rfl, fun _ => rfl⟩
      | unwind => exact ⟨rfl, fun hn => absurd rfl hn⟩
      | close ho =>
        obtain ⟨ht, ha⟩ := ih (by rw [ho]; rfl)
        exact ⟨ht, fun _ => ha (by rw [ho]; nofun)⟩
      | giveUpAgain => exact ih hc
      | spawn ho => simp [ho, Owner.hasCleared] at hc
      | _ => cases hc
    | @worker id phase phase' _ after _ workers hp ht hw =>
      have hc : pool.owner.hasCleared := by
        change after.owner.hasCleared = true at hc
        rcases ht.owner_eq with ho | ho <;> simpa [ho] using hc
      rw [hr.hasCleared_eq_false hp ht.isOver_eq] at hc
      cases hc
    | @caller id caller caller' _ after _ workers hw ht =>
      have hc : pool.owner.hasCleared := by
        change after.owner.hasCleared = true at hc
        rwa [ht.owner_eq] at hc
      have hp := Owner.isPushing_of_admits (Owner.hasRaised_of_hasCleared hc)
        (hr.admits caller (List.mem_of_getElem? hw))
      change after.queue.tasks = [] ∧ (after.owner ≠ .unwound → after.queue.gate.armed = false)
      rw [ht.queue_eq hp, ht.owner_eq]
      exact ih hc
    | _ => exact ih hc

theorem WorkerStep.dropped_eq (h : WorkerStep pool id phase phase' signals after) :
    after.dropped = pool.dropped := by
  cases h <;> rfl

theorem CallerStep.dropped_eq (h : CallerStep pool caller caller' signals after) :
    after.dropped = pool.dropped := by
  cases h <;> rfl

theorem hasCleared_of_step? (hs : pool.step? action = some next)
    (hc : next.owner.hasCleared = false) : pool.owner.hasCleared = false := by
  cases transition_of_step? hs with
  | owner ht =>
    cases ht with
    | clear | unwind | close => cases hc
    | spawn | giveUpAgain => exact hc
    | _ ho => rw [ho]; rfl
  | @worker id phase phase' _ after _ workers hp ht hw =>
    change after.owner.hasCleared = false at hc
    rcases ht.owner_eq with ho | ho <;> simpa [ho] using hc
  | caller hw ht => rwa [← ht.owner_eq]
  | _ => exact hc

theorem Reachable.dropped_eq (h : Reachable pool) (hc : pool.owner.hasCleared = false) :
    pool.dropped = [] := by
  induction h with
  | start => rfl
  | step action _ hs ih =>
    have hold := hasCleared_of_step? hs hc
    cases transition_of_step? hs with
    | owner ht =>
      cases ht with
      | clear | unwind => cases hc
      | _ => exact ih hold
    | worker hp ht hw => exact ht.dropped_eq.trans (ih hold)
    | caller hw ht => exact ht.dropped_eq.trans (ih hold)
    | _ => exact ih hold

end Pool
end TreePool
