import TreePool.Proofs.Pool.Budget

/-! # No wake-up is lost

The gate remembers one signal for any number of tasks. Still no task is forgotten: while tasks are
queued, the gate is armed or a worker is on its way from the gate to the queue, and it will arm the
gate again for what it leaves there. While the gate is armed, somebody is awake before it or nobody
sleeps. So workers that are left to themselves go on until the queue is empty and nobody works, but
for those whose threads ended at work: the others go on without them.
-/

namespace TreePool

variable {ε : Type}

def Phase.isBetween : Phase ε → Bool
  | .passed | .entering | .pulling => true
  | _ => false

namespace Pool

variable {pool next after : Pool ε} {action : Action ε} {id : Nat} {phase phase' : Phase ε}
variable {signals : Bool} {woken : Option Nat} {workers workers' : List (Phase ε)}
variable {caller caller' : Caller ε}

/-! ## The gate and the queue -/

/-- A worker that leaves tasks in the queue arms the gate, or is on its way to the queue, or has
nothing to do with either. -/
theorem WorkerStep.covers (h : WorkerStep pool id phase phase' signals after)
    (hs : pool.shutdown = false) (ht : after.queue.tasks ≠ []) :
    after.queue.gate.armed = true ∨ phase'.isBetween = true ∨
      (after.queue = pool.queue ∧ phase.isBetween = false) := by
  cases h with
  | pull => exact .inl (GatedQueue.armed_pull _ ht)
  | push => exact .inl rfl
  | miss hq => exact absurd hq ht
  | retreat hr => rw [hs] at hr; cases hr
  | pass | proceed | enter => exact .inr (.inl rfl)
  | _ => exact .inr (.inr ⟨rfl, rfl⟩)

/-- While tasks are queued, the gate is armed or somebody is on the way from it to the queue. -/
theorem Reachable.covered (h : Reachable pool) (hs : pool.shutdown = false)
    (ht : pool.queue.tasks ≠ []) :
    pool.queue.gate.armed = true ∨ 0 < pool.workers.countP Phase.isBetween := by
  induction h with
  | start => exact absurd rfl ht
  | step _ _ hstep ih =>
    cases transition_of_step? hstep with
    | owner ho =>
      cases ho with
      | spawn => simpa [Phase.isBetween] using ih hs ht
      | raise => cases hs
      | broadcast => exact .inl rfl
      | clear | unwind => exact absurd rfl ht
      | _ => exact ih hs ht
    | @worker id phase phase' _ after _ workers hp hw hsignal =>
      have hs := hw.shutdown_eq.symm.trans hs
      have hcount := hsignal.countP_add hp (f := Phase.isBetween) rfl
      change after.queue.gate.armed = true ∨ 0 < workers.countP Phase.isBetween
      -- In the last case the worker was not on its way, and those who were still are.
      rcases hw.covers hs ht with ha | hb | ⟨hq, hb⟩
      · exact .inl ha
      · have hmem := List.mem_set (List.getElem?_eq_some_iff.mp hp).1 phase'
        have hpos := List.countP_pos_iff.mpr ⟨phase', hmem, hb⟩
        rw [← hsignal.countP_eq (f := Phase.isBetween) rfl] at hpos
        exact .inr hpos
      · rw [hb, Bool.toNat_false, Nat.add_zero] at hcount
        change after.queue.tasks ≠ [] at ht
        rw [hq] at ht ⊢
        rcases ih hs ht with ha | hpos
        · exact .inl ha
        · exact .inr (hcount ▸ Nat.lt_of_lt_of_le hpos (Nat.le_add_right _ _))
    | stir hp =>
      rw [(Signal.wakes hp).countP_eq rfl]
      exact ih hs ht
    | @caller id caller caller' _ after _ workers hc hw hsignal =>
      have hs := hw.shutdown_eq.symm.trans hs
      change after.queue.gate.armed = true ∨ 0 < workers.countP Phase.isBetween
      cases hw with
      | push => exact .inl rfl
      | _ =>
        rw [hsignal.countP_eq rfl]
        exact ih hs ht
    | _ => exact ih hs ht

/-! ## The gate and the sleepers -/

def Watched (workers : List (Phase ε)) : Prop :=
  (∃ stance ≠ .asleep, .atGate stance ∈ workers) ∨ ∀ phase ∈ workers, phase.isAsleep = false

theorem Signal.watched (h : Signal true workers woken workers') : Watched workers' := by
  cases h with
  | unheard hn => exact .inr fun phase hm => by simpa using List.any_eq_false.mp hn phase hm
  | wakes hp =>
    exact .inl ⟨.awake, nofun, List.mem_set (List.getElem?_eq_some_iff.mp hp).1 _⟩

theorem Watched.concat (h : Watched workers) (ha : phase.isAsleep = false) :
    Watched (workers ++ [phase]) := by
  rcases h with ⟨stance, hn, hm⟩ | hall
  · exact .inl ⟨stance, hn, List.mem_append_left _ hm⟩
  · refine .inr fun other hm => ?_
    rcases List.mem_append.mp hm with hm | hm
    · exact hall other hm
    · exact List.mem_singleton.mp hm ▸ ha

/-- A worker that is not at the gate and does not go to sleep there changes nothing for others. -/
theorem Watched.set (h : Watched workers) (hp : workers[id]? = some phase)
    (hg : ∀ stance, phase ≠ .atGate stance) (ha : phase'.isAsleep = false) :
    Watched (workers.set id phase') := by
  rcases h with ⟨stance, hn, hm⟩ | hall
  · obtain ⟨i, hi⟩ := List.mem_iff_getElem?.mp hm
    have hne : id ≠ i := by
      rintro rfl
      exact hg stance (Option.some.inj (hp.symm.trans hi))
    exact .inl ⟨stance, hn, List.mem_of_getElem? ((List.getElem?_set_ne hne).trans hi)⟩
  · refine .inr fun other hm => ?_
    rcases List.mem_or_eq_of_mem_set hm with hm | rfl
    · exact hall other hm
    · exact ha

/-- A step of a worker after which the gate is armed does not happen at the gate, and sends nobody
to sleep; and if it is the one that arms the gate, it gives a signal. -/
theorem WorkerStep.armed (h : WorkerStep pool id phase phase' signals after)
    (ha : after.queue.gate.armed = true) :
    (∀ stance, phase ≠ .atGate stance) ∧ phase'.isAsleep = false ∧
      (signals = false → pool.queue.gate.armed = true) := by
  cases h with
  | pass => cases ha
  | doze _ hc => rw [hc] at ha; cases ha
  | @pull task rest ht =>
    refine ⟨by simp, rfl, fun hs => ?_⟩
    cases rest with
    | nil => simpa [GatedQueue.pull, ht] using ha
    | cons => cases hs
  | push => exact ⟨by simp, rfl, by simp⟩
  | part => exact ⟨by simp, by cases pool.fragile <;> rfl, fun _ => ha⟩
  | _ => exact ⟨by simp, rfl, fun _ => ha⟩

/-- While the gate is armed, somebody is awake before it or nobody sleeps. -/
theorem Reachable.watched (h : Reachable pool) (ha : pool.queue.gate.armed = true) :
    Watched pool.workers := by
  induction h with
  | start => cases ha
  | @step pool _ action _ hs ih =>
    cases transition_of_step? hs with
    | owner ht =>
      cases ht with
      | spawn => exact (ih ha).concat rfl
      | broadcast =>
        refine .inr fun phase hm => ?_
        obtain ⟨old, _, rfl⟩ := List.mem_map.mp hm
        cases old with
        | atGate stance => cases stance <;> rfl
        | _ => rfl
      | clear => cases ha
      | _ => exact ih ha
    | @worker id phase phase' signals after _ workers hp ht hsignal =>
      obtain ⟨hgate, hawake, hsame⟩ := ht.armed ha
      cases signals with
      | true => exact hsignal.watched
      | false =>
        cases hsignal
        exact (ih (hsame rfl)).set hp hgate hawake
    | stir hp => exact (Signal.wakes hp).watched
    | @caller id caller caller' signals after _ workers hc ht hsignal =>
      cases ht with
      | push => exact hsignal.watched
      | _ =>
        cases hsignal
        exact ih ha
    | _ => exact ih ha

/-! ## Somebody to do the work -/

theorem length_le_of_step? (hs : pool.step? action = some next) :
    pool.workers.length ≤ next.workers.length := by
  cases transition_of_step? hs with
  | owner ht => cases ht <;> simp
  | worker hp ht hw =>
    exact Nat.le_of_eq (hw.length_eq.trans List.length_set).symm
  | caller hc ht hw => exact Nat.le_of_eq hw.length_eq.symm
  | _ => simp

theorem Reachable.length_workers_pos (h : Reachable pool)
    (ht : pool.queue.tasks ≠ [] ∨ pool.callers ≠ []) : 0 < pool.workers.length := by
  induction h with
  | start => simp [Pool.start, GatedQueue.empty] at ht
  | @step pool _ action hr hs ih =>
    have hle := length_le_of_step? hs
    cases transition_of_step? hs with
    | owner ho =>
      cases ho with
      | clear | unwind => exact ih (.inr (ht.resolve_left (fun hn => hn rfl)))
      | _ => exact Nat.lt_of_lt_of_le (ih ht) hle
    | worker hp =>
      exact Nat.lt_of_lt_of_le (Nat.zero_lt_of_lt (List.getElem?_eq_some_iff.mp hp).1) hle
    | callWait ho | callSubmit ho =>
      rw [hr.length_workers_of_isOpen ho]
      exact hr.one_le_size
    | caller hc | stirCaller hc =>
      refine Nat.lt_of_lt_of_le (ih (.inr fun hn => ?_)) hle
      rw [hn] at hc
      cases hc
    | _ => exact Nat.lt_of_lt_of_le (ih ht) hle

/-! ## Workers come to rest only when all is done -/

theorem Signal.exists_of_findIdx? (workers : List (Phase ε)) :
    ∃ workers', Signal true workers (workers.findIdx? Phase.isAsleep) workers' := by
  cases hi : workers.findIdx? Phase.isAsleep with
  | none => exact ⟨workers, .unheard (by simpa using hi)⟩
  | some i =>
    obtain ⟨hlt, hasleep, -⟩ := List.findIdx?_eq_some_iff_getElem.mp hi
    refine ⟨_, .wakes (List.getElem?_eq_some_iff.mpr ⟨hlt, ?_⟩)⟩
    unfold Phase.isAsleep at hasleep
    split at hasleep
    · assumption
    · cases hasleep

theorem exists_signal (signals : Bool) (workers : List (Phase ε)) :
    ∃ woken workers', Signal signals workers woken workers' := by
  cases signals with
  | false => exact ⟨none, workers, .silent⟩
  | true => exact ⟨_, Signal.exists_of_findIdx? workers⟩

theorem exists_workerStep (pool : Pool ε) (id : Nat) (ha : phase.isAsleep = false)
    (ho : phase.isOver = false) :
    ∃ phase' signals after, WorkerStep pool id phase phase' signals after := by
  cases phase with
  | spawned => exact ⟨_, _, _, .count⟩
  | counted => exact ⟨_, _, _, .report⟩
  | greeting => exact ⟨_, _, _, .greet⟩
  | looping =>
    cases hs : pool.shutdown with
    | false => exact ⟨_, _, _, .approach hs⟩
    | true => exact ⟨_, _, _, .quit hs⟩
  | atGate stance =>
    have hn : stance ≠ .asleep := by rintro rfl; cases ha
    cases hg : pool.queue.gate.armed with
    | false => exact ⟨_, _, _, .doze hn hg⟩
    | true => exact ⟨_, _, _, .pass hn hg⟩
  | passed =>
    cases hs : pool.shutdown with
    | false => exact ⟨_, _, _, .proceed hs⟩
    | true => exact ⟨_, _, _, .retreat hs⟩
  | entering => exact ⟨_, _, _, .enter⟩
  | pulling =>
    cases ht : pool.queue.tasks with
    | nil => exact ⟨_, _, _, .miss ht⟩
    | cons task rest => exact ⟨_, _, _, .pull ht⟩
  | running ticket body =>
    cases body with
    | done => exact ⟨_, _, _, .complete⟩
    | panic => exact ⟨_, _, _, .panic⟩
    | act => exact ⟨_, _, _, .act⟩
    | submit =>
      cases hs : pool.shutdown with
      | false => exact ⟨_, _, _, .offer hs⟩
      | true => exact ⟨_, _, _, .refuse hs⟩
  | pushing => exact ⟨_, _, _, .push⟩
  | caught => exact ⟨_, _, _, .logPanic⟩
  | failing ticket cause =>
    cases hc : cause.isExplosive with
    | false => exact ⟨_, _, _, .markPanic hc⟩
    | true => exact ⟨_, _, _, .perish hc⟩
  | resting => exact ⟨_, _, _, .rest⟩
  | leaving => exact ⟨_, _, _, .leave⟩
  | parting => exact ⟨_, _, _, .part⟩
  | ended | crashed | lost => cases ho

theorem moves_of_getElem? (hp : pool.workers[id]? = some phase) (ha : phase.isAsleep = false)
    (ho : phase.isOver = false) : pool.Moves := by
  obtain ⟨phase', signals, after, hs⟩ := exists_workerStep pool id ha ho
  obtain ⟨woken, workers, hw⟩ := exists_signal signals (pool.workers.set id phase')
  exact ⟨id, woken, _, step?_eq_some_iff.mpr (.worker hp hs hw)⟩

/-! ## Workers that are lost -/

theorem Reachable.isLost_of_isOver (h : Reachable pool) (hs : pool.shutdown = false)
    (hm : phase ∈ pool.workers) (ho : phase.isOver = true) : phase.isLost = true := by
  have hleft := List.countP_eq_zero.mp (h.countP_hasLeft hs) phase hm
  cases phase with
  | ended | crashed => exact absurd rfl hleft
  | lost => rfl
  | _ => cases ho

theorem Reachable.exists_awake (h : Reachable pool) (hs : pool.shutdown = false)
    (ht : pool.queue.tasks ≠ []) :
    (∃ phase ∈ pool.workers, phase.isAsleep = false ∧ phase.isLost = false) ∨
      pool.lost = pool.workers.length := by
  rcases h.covered hs ht with ha | hpos
  · rcases h.watched ha with ⟨stance, hn, hm⟩ | hall
    · refine .inl ⟨_, hm, ?_, rfl⟩
      cases stance with
      | asleep => exact absurd rfl hn
      | arriving | awake => rfl
    · by_cases hlost : ∀ phase ∈ pool.workers, phase.isLost = true
      · exact .inr (lost_eq_length_iff.mpr hlost)
      · push Not at hlost
        obtain ⟨phase, hm, hl⟩ := hlost
        exact .inl ⟨phase, hm, hall phase hm, by simpa using hl⟩
  · obtain ⟨phase, hp, hb⟩ := List.countP_pos_iff.mp hpos
    refine .inl ⟨phase, hp, ?_⟩
    cases phase with
    | passed | entering | pulling => exact ⟨rfl, rfl⟩
    | _ => cases hb

def IsStalled (pool : Pool ε) : Prop :=
  0 < pool.lost ∧ (pool.queue.tasks = [] ∨ pool.lost = pool.workers.length)

/-- Before the flag is up, workers stop only in an idle pool, unless some are lost; even then tasks
are left only if all are. -/
theorem Reachable.moves_or (h : Reachable pool) (hs : pool.shutdown = false) :
    pool.Moves ∨ pool.isIdle = true ∨ pool.IsStalled := by
  by_cases hm : pool.Moves
  · exact .inl hm
  -- Nobody has left yet, so a worker that cannot move is asleep or lost.
  have hstuck : ∀ phase ∈ pool.workers, phase.isAsleep = false → phase.isLost = true := by
    intro phase hp ha
    obtain ⟨id, hi⟩ := List.mem_iff_getElem?.mp hp
    by_contra hl
    refine hm (moves_of_getElem? hi ha ?_)
    by_contra ho
    exact hl (h.isLost_of_isOver hs hp (by simpa using ho))
  have htasks : pool.queue.tasks = [] ∨ pool.lost = pool.workers.length := by
    by_contra hn
    obtain ⟨ht, hl⟩ := not_or.mp hn
    obtain ⟨phase, hp, ha, hnot⟩ := (h.exists_awake hs ht).resolve_right hl
    rw [hstuck phase hp ha] at hnot
    cases hnot
  rcases Nat.eq_zero_or_pos pool.lost with hz | hpos
  · refine .inr (.inl (isIdle_iff.mpr ⟨?_, ?_⟩))
    · refine htasks.elim id fun hl => ?_
      by_contra ht
      have := h.length_workers_pos (.inl ht)
      omega
    · rw [h.counted.working]
      refine List.countP_eq_zero.mpr fun phase hp hw => ?_
      have hlost := List.countP_eq_zero.mp hz phase hp
      have ha : phase.isAsleep = false := by
        cases phase with
        | atGate => cases hw
        | _ => rfl
      exact hlost (hstuck phase hp ha)
  · exact .inr (.inr ⟨hpos, htasks⟩)

theorem shutdown_eq_of_play? {actions : List (Action ε)} (hw : ∀ action ∈ actions, action.isWorker)
    (hp : pool.play? actions = some next) : next.shutdown = pool.shutdown := by
  refine after?_induction_of_mem (fun {before _} action hm hlaw hs => ?_) rfl hp
  have hact := hw action hm
  rw [← show before.shutdown = pool.shutdown from hlaw]
  cases transition_of_step? hs with
  | worker _ ht => exact ht.shutdown_eq
  | owner ht => cases ht <;> cases hact
  | _ => cases hact

/-- No queued task is forgotten: the gate is armed for it or a worker is on its way, somebody is
awake, and whatever the workers do, they go on until the pool is idle, which is soon. A worker that
is lost keeps the pool from being idle, but the others go on without it; and none is lost unless a
task panics with something whose destructor panics. -/
structure Attended (pool : Pool ε) : Prop where
  covered : pool.queue.tasks ≠ [] →
    pool.queue.gate.armed = true ∨ ∃ phase ∈ pool.workers, phase.isBetween = true
  awake : pool.queue.tasks ≠ [] →
    (∃ phase ∈ pool.workers, phase.isAsleep = false ∧ phase.isLost = false) ∨
      pool.lost = pool.workers.length
  proceeds : ∀ actions next, (∀ action ∈ actions, action.isWorker) →
    pool.play? actions = some next →
    actions.length ≤ pool.budget ∧ (next.Moves ∨ next.isIdle = true ∨ next.IsStalled)
  drains : ∃ actions next, (∀ action ∈ actions, action.isWorker) ∧
    pool.play? actions = some next ∧ (next.isIdle = true ∨ next.IsStalled)
  losses : ∀ actions next, pool.play? actions = some next → next.lost ≤ next.explosions

theorem Reachable.attended (h : Reachable pool) (hs : pool.shutdown = false) : Attended pool := by
  have hrest {actions : List (Action ε)} {next : Pool ε}
      (hw : ∀ action ∈ actions, action.isWorker) (hp : pool.play? actions = some next) :
      next.Moves ∨ next.isIdle = true ∨ next.IsStalled :=
    (h.play? hp).moves_or ((shutdown_eq_of_play? hw hp).trans hs)
  refine ⟨fun ht => ?_, h.exists_awake hs, fun actions next hw hp => ?_, ?_, fun _ _ hp => ?_⟩
  · exact (h.covered hs ht).imp_right List.countP_pos_iff.mp
  · have hle := budget_add_length_le hw hp
    exact ⟨by omega, hrest hw hp⟩
  · obtain ⟨actions, next, hw, hp, hn⟩ := pool.exists_play?_not_moves
    exact ⟨actions, next, hw, hp, (hrest hw hp).resolve_left hn⟩
  · exact (h.play? hp).lost_le_explosions

/-- Two workers and three tasks, which are submitted while the workers sleep; one worker takes the
first task, the other one is through the gate. -/
def burst : List (Action Nat) :=
  List.flatten [[.spawn none, .spawn none, .owner],
    List.replicate 5 (.worker 0 none), List.replicate 5 (.worker 1 none), [.owner, .owner],
    [.call (.submit .done), .caller 0 none, .caller 0 (some 1),
      .call (.submit .done), .caller 1 none, .caller 1 (some 0),
      .call (.submit .done), .caller 2 none, .caller 2 none],
    List.replicate 4 (.worker 1 none), [.worker 0 none]]

theorem attended_burst :
    ∃ pool : Pool Nat, Reachable pool ∧ pool.shutdown = false ∧ pool.queue.tasks.length = 2 ∧
      pool.queue.gate.armed = false ∧ pool.workers = [.passed, .running 0 .done] ∧
      Attended pool := by
  have hstart : Reachable (start 2 false : Pool Nat) := .start false (by decide)
  obtain ⟨pool, hr, ht⟩ := hstart.exists_of_play? burst
    (fun pool => pool.shutdown = false ∧ pool.queue.tasks.length = 2 ∧
      pool.queue.gate.armed = false ∧ pool.workers = [.passed, .running 0 .done])
    (by decide +kernel)
  obtain ⟨hs, hl, ha, hw⟩ := of_decide_eq_true ht
  exact ⟨pool, hr, hs, hl, ha, hw, hr.attended hs⟩

end Pool
end TreePool
