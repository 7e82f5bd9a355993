import TreePool.Proofs.Pool.Evacuation

/-! # The sleep of those who wait

A caller that waits for a pool goes to sleep when it finds the pool at work. It is notified when the
number of working workers falls to zero, and not when the queue runs empty. That is enough: a worker
counts as working before it pulls, so whoever empties the queue still counts, and as long as a
caller sleeps without notification the pool is not idle. A pool that is not idle goes on until the
last worker stops working, and that one notifies everybody: `Reachable.awaits_or`. A worker that is
lost counts as working for good, and nobody is notified any more.
-/

namespace TreePool

variable {ε : Type}

namespace Caller

/-- Whether the call waits for the pool. Each step of such a call needs the lock of the counters. -/
def isWaiting : Caller ε → Bool
  | .checking | .sleeping _ => true
  | _ => false

def isParked : Caller ε → Bool
  | .sleeping false => true
  | _ => false

@[simp] theorem isWaiting_notify (caller : Caller ε) :
    caller.notify.isWaiting = caller.isWaiting := by
  cases caller <;> rfl

@[simp] theorem isParked_notify (caller : Caller ε) : caller.notify.isParked = false := by
  cases caller <;> rfl

theorem isWaiting_of_isParked {caller : Caller ε} (h : caller.isParked) : caller.isWaiting := by
  cases caller with
  | sleeping => rfl
  | _ => cases h

theorem isFinished_of_isWaiting {caller : Caller ε} (h : caller.isWaiting) :
    caller.isFinished = false := by
  cases caller with
  | finished => cases h
  | _ => rfl

end Caller

def Phase.locksCounters : Phase ε → Bool
  | .spawned | .entering | .resting | .leaving => true
  | _ => false

namespace Pool

variable {pool next after : Pool ε} {action : Action ε} {actions : List (Action ε)} {id : Nat}
variable {phase phase' : Phase ε} {signals : Bool} {caller caller' : Caller ε}

/-- Whether a step needs the lock of the counters. A caller that waits holds it from its look at the
pool until it sleeps. -/
def locksCounters (before : Pool ε) (action : Action ε) (_ : Pool ε) : Bool :=
  match action with
  | .worker id _ => before.workers[id]?.any Phase.locksCounters
  | .caller id _ => before.callers[id]?.any Caller.isWaiting
  | .owner => before.owner == .sleeping true
  | .watch _ | .expire => true
  | _ => false

/-- Whether the number of working workers falls to zero, which is when sleepers are notified. -/
def settles (before : Pool ε) (_ : Action ε) (after : Pool ε) : Bool :=
  before.working != 0 && after.working == 0

def relieves (before : Pool ε) (action : Action ε) (after : Pool ε) : Bool :=
  settles before action after && !after.callers.any Caller.isParked

def Awaits (pool : Pool ε) (id : Nat) : Prop :=
  pool.isIdle = false ∧ ∃ caller, pool.callers[id]? = some caller ∧ caller.isWaiting = true

theorem isIdle_eq_false_iff :
    pool.isIdle = false ↔ 0 < pool.working ∨ pool.queue.tasks ≠ [] := by
  rw [← Bool.not_eq_true, isIdle_iff, not_and_or, or_comm, Nat.pos_iff_ne_zero]

/-! ## What a step does to those who wait -/

/-- A step that a worker takes leaves the pool at work, unless it is the last one that stops
working. -/
theorem WorkerStep.relieves_or (h : WorkerStep pool id phase phase' signals after)
    (hw : phase.isWorking → 0 < pool.working) (hi : pool.isIdle = false) (action : Action ε) :
    relieves pool action after = true ∨ after.isIdle = false := by
  cases h with
  | rest =>
    have hpos := hw rfl
    by_cases hlast : pool.working - 1 = 0
    · left
      simp [relieves, settles, hlast, Nat.ne_of_gt hpos]
    · right
      exact isIdle_eq_false_iff.mpr (.inl (Nat.pos_of_ne_zero hlast))
  | enter => exact .inr (isIdle_eq_false_iff.mpr (.inl (Nat.succ_pos _)))
  | pull | push => exact .inr (isIdle_eq_false_iff.mpr (.inl (hw rfl)))
  | _ => exact .inr hi

/-- The owner does not interfere while somebody waits for a pool at work. -/
theorem Reachable.owner_of_isWaiting (h : Reachable pool) (hi : pool.isIdle = false)
    (hm : caller ∈ pool.callers) (hw : caller.isWaiting) : pool.owner = .idle := by
  have hadmits := h.admits caller hm
  cases ho : pool.owner with
  | idle => rfl
  | closed | unwound =>
    have ht := (h.cleared (by rw [ho]; rfl)).1
    have hidle := isIdle_iff.mpr ⟨ht, h.working_of_hasWatched (by rw [ho]; rfl)⟩
    rw [hi] at hidle
    cases hidle
  | spawning | gathering | announcing | lamenting =>
    rw [ho] at hadmits
    cases hadmits
  | raising | watching | sleeping | joining | clearing | closing =>
    have hfinished : caller.isFinished = true := by rwa [ho] at hadmits
    rw [Caller.isFinished_of_isWaiting hw] at hfinished
    cases hfinished

theorem Reachable.not_ownerStep (h : Reachable pool) (hi : pool.isIdle = false)
    (hm : caller ∈ pool.callers) (hw : caller.isWaiting) : ¬ OwnerStep pool action next := by
  intro ht
  have howner := h.owner_of_isWaiting hi hm hw
  cases ht with
  | giveUp _ hq =>
    have hfinished := List.all_eq_true.mp hq caller hm
    rw [Caller.isFinished_of_isWaiting hw] at hfinished
    cases hfinished
  | _ ho =>
    rw [howner] at ho
    cases ho

/-- While somebody waits, a pool at work becomes idle only by a step that notifies all sleepers. -/
theorem Reachable.relieves_or (h : Reachable pool) (hi : pool.isIdle = false)
    (hm : caller ∈ pool.callers) (hw : caller.isWaiting) (hs : pool.step? action = some next) :
    relieves pool action next = true ∨ next.isIdle = false := by
  cases transition_of_step? hs with
  | owner ht => exact absurd ht (h.not_ownerStep hi hm hw)
  | @worker id phase _ _ _ woken _ hp ht =>
    have hcounts : phase.isWorking → 0 < pool.working := by
      intro hworking
      rw [h.counted.working]
      exact List.countP_pos_iff.mpr ⟨phase, List.mem_of_getElem? hp, hworking⟩
    exact ht.relieves_or hcounts hi (.worker id woken)
  | caller hc ht =>
    cases ht with
    | push => exact .inr (isIdle_eq_false_iff.mpr (.inr (by simp)))
    | _ => exact .inr hi
  | _ => exact .inr hi

theorem exists_caller_of_step? (hc : pool.callers[id]? = some caller)
    (hs : pool.step? action = some next) :
    ∃ caller', next.callers[id]? = some caller' ∧ (caller' = caller ∨ caller' = caller.notify ∨
      ∃ woken signals after, action = .caller id woken ∧
        CallerStep pool caller caller' signals after) := by
  have hlt := (List.getElem?_eq_some_iff.mp hc).1
  cases transition_of_step? hs with
  | owner ht => cases ht <;> exact ⟨caller, hc, .inl rfl⟩
  | worker hp ht =>
    cases ht with
    | rest =>
      by_cases hlast : pool.working - 1 = 0
      · refine ⟨caller.notify, ?_, .inr (.inl rfl)⟩
        simp [hlast, hc]
      · refine ⟨caller, ?_, .inl rfl⟩
        simp [hlast, hc]
    | _ => exact ⟨caller, hc, .inl rfl⟩
  | callWait | callSubmit => exact ⟨caller, (List.getElem?_append_left hlt).trans hc, .inl rfl⟩
  | @caller other old caller' signals after woken _ hold ht =>
    by_cases he : other = id
    · subst he
      cases hold.symm.trans hc
      exact ⟨caller', List.getElem?_set_self hlt, .inr (.inr ⟨woken, signals, after, rfl, ht⟩)⟩
    · exact ⟨caller, (List.getElem?_set_ne he).trans hc, .inl rfl⟩
  | @stirCaller other notified hold =>
    by_cases he : other = id
    · subst he
      cases hold.symm.trans hc
      exact ⟨.sleeping true, List.getElem?_set_self hlt, .inr (.inl rfl)⟩
    · exact ⟨caller, (List.getElem?_set_ne he).trans hc, .inl rfl⟩
  | _ => exact ⟨caller, hc, .inl rfl⟩

/-- Who waits for a pool at work goes on waiting for it until everybody is notified. -/
theorem Reachable.awaits_or (h : Reachable pool) (ha : pool.Awaits id)
    (hs : pool.step? action = some next) :
    relieves pool action next = true ∨ next.Awaits id := by
  obtain ⟨hi, caller, hc, hw⟩ := ha
  rcases h.relieves_or hi (List.mem_of_getElem? hc) hw hs with hr | hi'
  · exact .inl hr
  obtain ⟨caller', hc', hturn⟩ := exists_caller_of_step? hc hs
  refine .inr ⟨hi', caller', hc', ?_⟩
  rcases hturn with rfl | rfl | ⟨_, _, _, _, ht⟩
  · exact hw
  · rwa [Caller.isWaiting_notify]
  · cases ht with
    | drain hidle => rw [hi] at hidle; cases hidle
    | park | recheck => rfl
    | _ => cases hw

/-! ## Who sleeps, sleeps while the pool is at work -/

theorem exists_of_isParked (hs : pool.step? action = some next) (hm : caller ∈ next.callers)
    (hp : caller.isParked) : ∃ old ∈ pool.callers, old.isWaiting = true ∧
      (old.isParked = true ∨ pool.isIdle = false) := by
  have hkept (hold : caller ∈ pool.callers) : ∃ old ∈ pool.callers, old.isWaiting = true ∧
      (old.isParked = true ∨ pool.isIdle = false) :=
    ⟨caller, hold, Caller.isWaiting_of_isParked hp, .inl hp⟩
  cases transition_of_step? hs with
  | owner ht => cases ht <;> exact hkept hm
  | worker _ ht =>
    cases ht with
    | rest =>
      dsimp only at hm
      split_ifs at hm
      · obtain ⟨old, _, rfl⟩ := List.mem_map.mp hm
        rw [Caller.isParked_notify] at hp
        cases hp
      · exact hkept hm
    | _ => exact hkept hm
  | callWait | callSubmit =>
    rcases List.mem_append.mp hm with hm | hm
    · exact hkept hm
    · cases List.mem_singleton.mp hm
      cases hp
  | caller hc ht =>
    rcases List.mem_or_eq_of_mem_set hm with hm | rfl
    · exact hkept hm
    · cases ht with
      | park hi => exact ⟨.checking, List.mem_of_getElem? hc, rfl, .inr hi⟩
      | _ => cases hp
  | stirCaller =>
    rcases List.mem_or_eq_of_mem_set hm with hm | rfl
    · exact hkept hm
    · cases hp
  | _ => exact hkept hm

theorem Reachable.isIdle_of_isParked (h : Reachable pool) (hm : caller ∈ pool.callers)
    (hp : caller.isParked) : pool.isIdle = false := by
  induction h generalizing caller with
  | start => cases hm
  | @step pool next action hr hs ih =>
    obtain ⟨old, hold, hw, hbusy⟩ := exists_of_isParked hs hm hp
    have hi : pool.isIdle = false := by
      rcases hbusy with hparked | hi
      · exact ih hold hparked
      · exact hi
    rcases hr.relieves_or hi hold hw hs with hrelief | hnext
    -- A step that made the pool idle would have notified the caller as well.
    · have hnone : next.callers.any Caller.isParked = false := by
        simpa using (Bool.and_eq_true_iff.mp hrelief).2
      exact absurd hp (List.any_eq_false.mp hnone caller hm)
    · exact hnext

theorem Reachable.awaits_of_sleeping (h : Reachable pool)
    (hc : pool.callers[id]? = some (.sleeping false)) : pool.Awaits id :=
  ⟨h.isIdle_of_isParked (List.mem_of_getElem? hc) rfl, _, hc, rfl⟩

theorem Reachable.moves_of_awaits (h : Reachable pool) (ha : pool.Awaits id) :
    pool.Moves ∨ 0 < pool.lost := by
  obtain ⟨hi, caller, hc, hw⟩ := ha
  have hs : pool.shutdown = false := by
    rw [h.shutdown_eq, h.owner_of_isWaiting hi (List.mem_of_getElem? hc) hw]
    rfl
  rcases h.moves_or hs with hm | hidle | ⟨hl, -⟩
  · exact .inl hm
  · rw [hi] at hidle
    cases hidle
  · exact .inr hl

/-! ## From the look to the sleep -/

theorem locksCounters_of_settles (hs : pool.step? action = some next)
    (ht : settles pool action next = true) : locksCounters pool action next = true := by
  obtain ⟨hbefore, hafter⟩ := Bool.and_eq_true_iff.mp ht
  have hsame (he : next.working = pool.working) : locksCounters pool action next = true := by
    rw [he] at hafter
    rw [beq_iff_eq.mp hafter] at hbefore
    cases hbefore
  cases transition_of_step? hs with
  | owner ho => cases ho <;> exact hsame rfl
  | worker hp hw =>
    cases hw with
    | rest | enter =>
      rw [locksCounters, hp]
      rfl
    | _ => exact hsame rfl
  | caller _ hc => cases hc <;> exact hsame rfl
  | _ => exact hsame rfl

theorem Reachable.locksCounters_or (h : Reachable pool)
    (hc : pool.callers[id]? = some .checking ∧ pool.isIdle = false)
    (hs : pool.step? action = some next) : locksCounters pool action next = true ∨
      (next.callers[id]? = some .checking ∧ next.isIdle = false) := by
  obtain ⟨hc, hi⟩ := hc
  rcases h.relieves_or hi (List.mem_of_getElem? hc) rfl hs with hr | hi'
  · exact .inl (locksCounters_of_settles hs (Bool.and_eq_true_iff.mp hr).1)
  obtain ⟨caller', hc', hturn⟩ := exists_caller_of_step? hc hs
  rcases hturn with rfl | rfl | ⟨woken, _, _, rfl, _⟩
  · exact .inr ⟨hc', hi'⟩
  · exact .inr ⟨hc', hi'⟩
  · left
    rw [locksCounters, hc]
    rfl

theorem step?_caller_of_checking (hc : pool.callers[id]? = some .checking)
    (hi : pool.isIdle = false) : ∃ next, pool.step? (.caller id none) = some next ∧
      next.callers[id]? = some (.sleeping false) := by
  refine ⟨_, step?_eq_some_iff.mpr (.caller hc (.park hi) .silent), ?_⟩
  exact List.getElem?_set_self (List.getElem?_eq_some_iff.mp hc).1

/-! ## Nobody is left asleep -/

/-- The call with a number is served: a body is in progress or a worker that is in none can take a
step, and whatever else happens, the call waits for a pool where workers have something to do, until
one of them stops working as the last and notifies everybody, or is lost. -/
structure WaiterServed (pool : Pool ε) (id : Nat) : Prop where
  awake : ∃ phase ∈ pool.workers, phase.isAsleep = false
  serves : (∃ phase ∈ pool.workers, phase.current?.isSome = true) ∨
    ∃ worker phase woken next, pool.workers[worker]? = some phase ∧ phase.current? = none ∧
      pool.step? (.worker worker woken) = some next
  proceeds : ∀ actions next, pool.play? actions = some next →
    0 < pool.tally relieves actions ∨ (next.Awaits id ∧ (next.Moves ∨ 0 < next.lost))
  bounded : ∀ actions next, pool.play? actions = some next →
    actions.countP Action.isOwn ≤ pool.energy + (actions.map (Action.cost pool.size)).sum
  relieved : ∃ actions next, (∀ action ∈ actions, action.isWorker) ∧
    pool.play? actions = some next ∧ (0 < pool.tally relieves actions ∨ 0 < next.lost)

/-- Nobody sleeps in vain as long as no worker is lost, and everybody does for ever once one is. And
nobody misses a notification while going to sleep: as long as the counters stay locked after a look
at the pool, none is given, the pool stays at work, and the caller falls asleep. -/
structure WaitersServed (pool : Pool ε) : Prop where
  busy : ∀ id : Nat, pool.callers[id]? = some (.sleeping false) →
    0 < pool.working ∨ pool.queue.tasks ≠ []
  served : pool.lost = 0 → ∀ id : Nat, pool.callers[id]? = some (.sleeping false) →
    WaiterServed pool id
  stranded : 0 < pool.lost → ∀ id : Nat, pool.callers[id]? = some (.sleeping false) →
    ∀ actions next, pool.play? actions = some next →
      pool.tally relieves actions = 0 ∧ next.Awaits id
  losses : ∀ actions next, pool.play? actions = some next → next.lost ≤ next.explosions
  parks : ∀ (id : Nat) actions next, pool.callers[id]? = some .checking → pool.isIdle = false →
    pool.play? actions = some next → pool.tally locksCounters actions = 0 →
    pool.tally settles actions = 0 ∧ next.isIdle = false ∧
      ∃ last, next.step? (.caller id none) = some last ∧
        last.callers[id]? = some (.sleeping false)

theorem Reachable.relieves_or_awaits (h : Reachable pool) (ha : pool.Awaits id)
    (hp : pool.play? actions = some next) :
    0 < pool.tally relieves actions ∨ (next.Awaits id ∧ (next.Moves ∨ 0 < next.lost)) := by
  have hstep {pool next : Pool ε} {action : Action ε} (hr : Reachable pool) (_ : True)
      (ha : pool.Awaits id) (hs : pool.step? action = some next) := hr.awaits_or ha hs
  rcases h.tally_pos_or ha hstep (fun _ _ => trivial) hp with hpos | hnext
  · exact .inl hpos
  · exact .inr ⟨hnext, (h.play? hp).moves_of_awaits hnext⟩

theorem Reachable.tally_relieves (h : Reachable pool) (hl : 0 < pool.lost)
    (actions : List (Action ε)) : pool.tally relieves actions = 0 := by
  have hstep {pool next : Pool ε} {action : Action ε} (hlaw : Reachable pool ∧ 0 < pool.lost)
      (hs : pool.step? action = some next) :
      relieves pool action next = false ∧ Reachable next ∧ 0 < next.lost := by
    have hnext := hlaw.1.step action hs
    have hlost := Nat.lt_of_lt_of_le hlaw.2 (lost_le_of_step? hs)
    have hworking := Nat.lt_of_lt_of_le hlost hnext.counted.lost_le.2
    refine ⟨?_, hnext, hlost⟩
    simp [relieves, settles, Nat.ne_of_gt hworking]
  exact tally_eq_zero hstep ⟨h, hl⟩ actions

theorem Moves.exists_worker (h : pool.Moves) : (∃ phase ∈ pool.workers, phase.isAsleep = false) ∧
    ((∃ phase ∈ pool.workers, phase.current?.isSome = true) ∨
      ∃ worker phase woken next, pool.workers[worker]? = some phase ∧ phase.current? = none ∧
        pool.step? (.worker worker woken) = some next) := by
  obtain ⟨worker, woken, next, hs⟩ := h
  cases transition_of_step? hs with
  | owner ht => cases ht
  | @worker _ phase _ _ _ _ _ hp ht =>
    have hm := List.mem_of_getElem? hp
    refine ⟨⟨phase, hm, ?_⟩, ?_⟩
    · cases ht with
      | @pass stance hn | @doze stance hn =>
        cases stance with
        | asleep => exact absurd rfl hn
        | arriving | awake => rfl
      | _ => rfl
    · cases hc : phase.current? with
      | some ticket => exact .inl ⟨phase, hm, by rw [hc]; rfl⟩
      | none => exact .inr ⟨worker, phase, woken, _, hp, hc, hs⟩

theorem Reachable.waiter_served (h : Reachable pool) (hl : pool.lost = 0)
    (hc : pool.callers[id]? = some (.sleeping false)) : WaiterServed pool id := by
  have hawaits := h.awaits_of_sleeping hc
  have hmoves := (h.moves_of_awaits hawaits).resolve_right (by omega)
  obtain ⟨hawake, hserves⟩ := hmoves.exists_worker
  refine ⟨hawake, hserves, ?_, ?_, ?_⟩
  · intro actions next hp
    exact h.relieves_or_awaits hawaits hp
  · intro actions next hp
    exact h.countP_isOwn_le hp
  · obtain ⟨actions, next, hw, hp, hn⟩ := pool.exists_play?_not_moves
    refine ⟨actions, next, hw, hp, ?_⟩
    rcases h.relieves_or_awaits hawaits hp with hpos | ⟨_, hm | hlost⟩
    · exact .inl hpos
    · exact absurd hm hn
    · exact .inr hlost

theorem Reachable.waiters_served (h : Reachable pool) : WaitersServed pool := by
  refine ⟨?_, fun hl id hc => h.waiter_served hl hc, ?_, ?_, ?_⟩
  · intro id hc
    exact isIdle_eq_false_iff.mp (h.awaits_of_sleeping hc).1
  · intro hl id hc actions next hp
    have hnone := h.tally_relieves hl actions
    rcases h.relieves_or_awaits (h.awaits_of_sleeping hc) hp with hpos | ⟨hawaits, -⟩
    · omega
    · exact ⟨hnone, hawaits⟩
  · intro actions next hp
    exact (h.play? hp).lost_le_explosions
  · intro id actions next hc hi hp hlocks
    have hstep {pool next : Pool ε} {action : Action ε} (hr : Reachable pool) (_ : True)
        (hc : pool.callers[id]? = some .checking ∧ pool.isIdle = false)
        (hs : pool.step? action = some next) := hr.locksCounters_or hc hs
    have hsettles := tally_le_tally locksCounters_of_settles pool actions
    rcases h.tally_pos_or ⟨hc, hi⟩ hstep (fun _ _ => trivial) hp with hpos | ⟨hc', hi'⟩
    · omega
    · exact ⟨by omega, hi', step?_caller_of_checking hc' hi'⟩

/-- Two workers, one of them in a body, the other one signalled for a second task. One call has
gone to sleep, and another one is about to look at the pool. -/
def longWait : List (Action Nat) :=
  List.flatten [[.spawn none, .spawn none, .owner],
    List.replicate 5 (.worker 0 none), List.replicate 5 (.worker 1 none), [.owner, .owner],
    [.call (.submit (.act 7 (.submit .done .done))), .caller 0 none, .caller 0 (some 0)],
    List.replicate 4 (.worker 0 none), [.call .wait, .caller 1 none],
    [.call (.submit .done), .caller 2 none, .caller 2 (some 1), .call .wait]]

theorem waiters_served_longWait :
    ∃ pool : Pool Nat, Reachable pool ∧
      pool.workers = [.running 0 (.act 7 (.submit .done .done)), .atGate .awake] ∧
      pool.queue.tasks.length = 1 ∧ pool.callers[1]? = some (.sleeping false) ∧
      pool.callers[3]? = some .checking ∧ pool.isIdle = false ∧ WaitersServed pool := by
  have hstart : Reachable (start 2 false : Pool Nat) := .start false (by decide)
  obtain ⟨pool, hr, ht⟩ := hstart.exists_of_play? longWait
    (fun pool => pool.workers = [.running 0 (.act 7 (.submit .done .done)), .atGate .awake] ∧
      pool.queue.tasks.length = 1 ∧ pool.callers[1]? = some (.sleeping false) ∧
      pool.callers[3]? = some .checking ∧ pool.isIdle = false)
    (by decide +kernel)
  obtain ⟨hw, ht, hparked, hchecking, hi⟩ := of_decide_eq_true ht
  exact ⟨pool, hr, hw, ht, hparked, hchecking, hi, hr.waiters_served⟩

/-- The one worker of a pool is dead and counts as working: nobody runs a body, no worker can take a
step, and a call that waits sleeps for ever. -/
theorem waiter_stranded_explosion :
    ∃ pool : Pool Nat, Reachable pool ∧ pool.shutdown = false ∧
      pool.callers[1]? = some (.sleeping false) ∧ pool.workers = [.lost] ∧ ¬ pool.Moves ∧
      ∀ actions next, pool.play? actions = some next →
        next.working ≠ 0 ∧ pool.tally relieves actions = 0 := by
  have hstart : Reachable (start 1 false : Pool Nat) := .start false (by decide)
  obtain ⟨pool, hr, ht⟩ := hstart.exists_of_play? (explosion ++ [.call .wait, .caller 1 none])
    (fun pool => pool.shutdown = false ∧ pool.callers[1]? = some (.sleeping false) ∧
      pool.workers = [.lost])
    (by decide +kernel)
  obtain ⟨hs, hc, hw⟩ := of_decide_eq_true ht
  have hlost := pos_lost_of_workers hw
  refine ⟨pool, hr, hs, hc, hw, not_moves_of_forall_lost (forall_lost_of_workers hw),
    fun actions next hp => ?_⟩
  have hnext := Nat.lt_of_lt_of_le hlost (lost_le_of_play? hp)
  have hworking := Nat.lt_of_lt_of_le hnext (hr.play? hp).counted.lost_le.2
  exact ⟨Nat.ne_of_gt hworking, hr.tally_relieves hlost actions⟩

end Pool
end TreePool
