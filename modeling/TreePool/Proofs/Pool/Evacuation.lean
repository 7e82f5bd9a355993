import TreePool.Proofs.Pool.Departure
import TreePool.Proofs.Pool.Energy
import TreePool.Proofs.Pool.WakeUp

/-! # The owner's last watch

An owner who destroys a pool signals everybody and sleeps until a worker leaves. The signal lets
only one worker through the gate, yet the owner does not depend on waking up by itself: as long as
nobody has left, somebody is on the way out, or the gate is still armed and nobody sleeps before it.
So a pool that is left to itself goes on until it is in use or closed, as long as no worker is lost:
a lost one counts as alive for good, and the owner waits for it for ever.
-/

namespace TreePool

variable {ε : Type}

namespace Phase

def isAtGate : Phase ε → Bool
  | .atGate _ => true
  | _ => false

/-- Whether a worker that got through the gate while the flag was up has yet to count itself out. -/
def isDeparting : Phase ε → Bool
  | .passed | .leaving => true
  | _ => false

theorem isAsleep_of_isDeparting {phase : Phase ε} (h : phase.isDeparting) :
    phase.isAsleep = false := by
  cases phase with
  | atGate => cases h
  | _ => rfl

end Phase

theorem Owner.rouse_ne (owner : Owner) : owner.rouse ≠ .sleeping false := by
  cases owner <;> simp [rouse]

namespace Pool

variable {pool next after : Pool ε} {action : Action ε} {actions : List (Action ε)} {id : Nat}
variable {phase phase' : Phase ε} {signals : Bool} {woken : Option Nat}
variable {workers workers' : List (Phase ε)} {caller caller' : Caller ε}

/-! ## Somebody is ready to leave -/

theorem Signal.mem (h : Signal signals workers woken workers') (hm : phase ∈ workers)
    (ha : phase.isAsleep = false) : phase ∈ workers' := by
  cases h with
  | silent | unheard => exact hm
  | @wakes _ sleeper hp =>
    obtain ⟨i, hi⟩ := List.mem_iff_getElem?.mp hm
    refine List.mem_iff_getElem?.mpr ⟨i, ?_⟩
    rw [List.getElem?_set_ne ?_]
    · exact hi
    · rintro rfl
      cases hp.symm.trans hi
      cases ha

theorem WorkerStep.of_sleeping (h : WorkerStep pool id phase phase' signals after)
    (ho : after.owner = .sleeping false) :
    pool.owner = .sleeping false ∧ pool.alive ≤ after.alive ∧ phase ≠ .leaving := by
  cases h with
  | leave => exact absurd ho pool.owner.rouse_ne
  | count => exact ⟨ho, Nat.le_succ _, nofun⟩
  | _ => exact ⟨ho, Nat.le_refl _, nofun⟩

theorem Reachable.alive_of_sleeping (h : Reachable pool) (ho : pool.owner = .sleeping false) :
    0 < pool.alive := by
  induction h with
  | start => cases ho
  | step action _ hs ih =>
    cases transition_of_step? hs with
    | owner ht =>
      cases ht with
      | broadcast _ ha => exact Nat.pos_of_ne_zero ha
      | spawn hp => rw [hp] at ho; cases ho
      | giveUpAgain => exact ih ho
      | _ => cases ho
    | worker hp ht =>
      obtain ⟨howner, hle, -⟩ := ht.of_sleeping ho
      exact Nat.lt_of_lt_of_le (ih howner) hle
    | caller hc ht => cases ht <;> exact ih ho
    | _ => exact ih ho

theorem WorkerStep.armed_or (h : WorkerStep pool id phase phase' signals after)
    (ha : pool.queue.gate.armed = true) :
    after.queue.gate.armed = true ∨ phase'.isDeparting = true := by
  cases h with
  | pass => exact .inr rfl
  | @pull task rest ht =>
    cases rest with
    | nil => simp [GatedQueue.pull, ht, ha]
    | cons => simp [GatedQueue.pull, ht]
  | push => exact .inl rfl
  | _ => exact .inl ha

theorem WorkerStep.isDeparting (h : WorkerStep pool id phase phase' signals after)
    (hs : pool.shutdown = true) (hl : phase ≠ .leaving) (hd : phase.isDeparting) :
    phase'.isDeparting := by
  cases h with
  | proceed hf => rw [hs] at hf; cases hf
  | retreat => rfl
  | leave => exact absurd rfl hl
  | _ => cases hd

/-- As long as nobody has left after the owner's last signal, somebody is on the way out, or the
gate is as the owner left it. -/
theorem Reachable.isDeparting_or (h : Reachable pool) (ho : pool.owner = .sleeping false) :
    (∃ phase ∈ pool.workers, phase.isDeparting = true) ∨
      (pool.queue.gate.armed = true ∧ ∀ phase ∈ pool.workers, !phase.isAsleep) := by
  induction h with
  | start => cases ho
  | @step pool _ action hr hs ih =>
    cases transition_of_step? hs with
    | owner ht =>
      cases ht with
      | broadcast =>
        refine .inr ⟨rfl, fun phase hm => ?_⟩
        obtain ⟨old, _, rfl⟩ := List.mem_map.mp hm
        cases old with
        | atGate stance => cases stance <;> rfl
        | _ => rfl
      | spawn hp => rw [hp] at ho; cases ho
      | giveUpAgain => exact ih ho
      | _ => cases ho
    | @worker id phase phase' _ after _ workers hp ht hw =>
      change (∃ phase ∈ workers, phase.isDeparting = true) ∨
        (after.queue.gate.armed = true ∧ ∀ phase ∈ workers, !phase.isAsleep)
      obtain ⟨howner, -, hleaving⟩ := ht.of_sleeping ho
      have hshutdown : pool.shutdown = true := by
        rw [hr.shutdown_eq, howner]
        rfl
      have hnew (hd : phase'.isDeparting = true) :
          ∃ phase ∈ workers, phase.isDeparting = true := by
        have hmem := List.mem_set (List.getElem?_eq_some_iff.mp hp).1 phase'
        exact ⟨phase', hw.mem hmem (Phase.isAsleep_of_isDeparting hd), hd⟩
      rcases ih howner with ⟨other, hm, hd⟩ | ⟨ha, hawake⟩
      · left
        obtain ⟨i, hi⟩ := List.mem_iff_getElem?.mp hm
        by_cases he : id = i
        · subst he
          cases hp.symm.trans hi
          exact hnew (ht.isDeparting hshutdown hleaving hd)
        · have hmem : other ∈ pool.workers.set id phase' :=
            List.mem_of_getElem? ((List.getElem?_set_ne he).trans hi)
          exact ⟨other, hw.mem hmem (Phase.isAsleep_of_isDeparting hd), hd⟩
      · rcases ht.armed_or ha with ha' | hd
        · refine .inr ⟨ha', hw.forall_mem_of_set (fun _ => rfl) hawake ?_⟩
          rw [(ht.armed ha').2.1]
          rfl
        · exact .inl (hnew hd)
    | stir hp =>
      rcases ih ho with ⟨phase, hm, hd⟩ | ⟨ha, hawake⟩
      · have hw := Signal.wakes hp
        exact .inl ⟨phase, hw.mem hm (Phase.isAsleep_of_isDeparting hd), hd⟩
      · exact .inr ⟨ha, (Signal.wakes hp).forall_mem (fun _ => rfl) hawake⟩
    | @caller id caller caller' _ after _ workers hc ht hw =>
      rcases ih (ht.owner_eq.symm.trans ho) with ⟨phase, hm, hd⟩ | ⟨ha, hawake⟩
      · exact .inl ⟨phase, hw.mem hm (Phase.isAsleep_of_isDeparting hd), hd⟩
      · refine .inr ⟨?_, hw.forall_mem (fun _ => rfl) hawake⟩
        cases ht with
        | push => rfl
        | _ => exact ha
    | _ => exact ih ho

theorem Reachable.exists_alive_of_lost_lt (h : Reachable pool) (hl : pool.lost < pool.alive) :
    ∃ phase ∈ pool.workers, phase.isAlive = true ∧ phase.isLost = false := by
  by_contra hn
  push Not at hn
  rw [h.counted.alive] at hl
  refine absurd hl (Nat.not_lt.mpr (List.countP_mono_left fun phase hm ha => ?_))
  simpa using hn phase hm ha

/-- The owner sleeps and has not been notified. Still a worker is awake before the armed gate, or
one that is alive is not at the gate, unless all that count as alive are lost. -/
theorem Reachable.ready_of_sleeping (h : Reachable pool) (ho : pool.owner = .sleeping false)
    (hl : pool.lost < pool.alive) :
    (pool.queue.gate.armed = true ∧ ∃ stance ≠ .asleep, .atGate stance ∈ pool.workers) ∨
      ∃ phase ∈ pool.workers, phase.isAlive = true ∧ phase.isAtGate = false ∧
        phase.isLost = false := by
  rcases h.isDeparting_or ho with ⟨phase, hm, hd⟩ | ⟨ha, hawake⟩
  · refine .inr ⟨phase, hm, ?_⟩
    cases phase with
    | passed | leaving => exact ⟨rfl, rfl, rfl⟩
    | _ => cases hd
  · obtain ⟨phase, hm, halive, hlost⟩ := h.exists_alive_of_lost_lt hl
    cases phase with
    | atGate stance =>
      refine .inl ⟨ha, stance, ?_, hm⟩
      rintro rfl
      cases hawake _ hm
    | _ => exact .inr ⟨_, hm, halive, rfl, hlost⟩

theorem Reachable.moves_of_sleeping (h : Reachable pool) (ho : pool.owner = .sleeping false)
    (hl : pool.lost < pool.alive) : pool.Moves := by
  rcases h.ready_of_sleeping ho hl with ⟨_, stance, hn, hm⟩ | ⟨phase, hm, halive, hgate, hlost⟩
  · obtain ⟨id, hi⟩ := List.mem_iff_getElem?.mp hm
    refine moves_of_getElem? hi ?_ rfl
    cases stance with
    | asleep => exact absurd rfl hn
    | arriving | awake => rfl
  · obtain ⟨id, hi⟩ := List.mem_iff_getElem?.mp hm
    refine moves_of_getElem? hi ?_ ?_
    · cases phase with
      | atGate => cases hgate
      | _ => rfl
    · cases phase with
      | ended | crashed => cases halive
      | lost => cases hlost
      | _ => rfl

/-! ## Who waits for the lost -/

theorem WorkerStep.isLost (h : WorkerStep pool id phase phase' signals after) :
    phase.isLost = false := by
  cases h <;> rfl

theorem lost_le_of_step? (hs : pool.step? action = some next) : pool.lost ≤ next.lost := by
  cases transition_of_step? hs with
  | owner ht =>
    cases ht with
    | spawn => exact (List.sublist_append_left _ _).countP_le
    | broadcast => exact Nat.le_of_eq (countP_rouse rfl _).symm
    | _ => exact Nat.le_refl _
  | worker hp ht hw =>
    have hcount := hw.countP_add hp (f := Phase.isLost) rfl
    rw [ht.isLost, Bool.toNat_false, Nat.add_zero] at hcount
    exact Nat.le_trans (Nat.le_add_right _ _) (Nat.le_of_eq hcount.symm)
  | stir hp => exact Nat.le_of_eq ((Signal.wakes hp).countP_eq rfl).symm
  | caller hc ht hw => exact Nat.le_of_eq (hw.countP_eq rfl).symm
  | _ => exact Nat.le_refl _

theorem lost_le_of_play? (hp : pool.play? actions = some next) : pool.lost ≤ next.lost :=
  after?_induction (fun hle hs => Nat.le_trans hle (lost_le_of_step? hs)) (Nat.le_refl _) hp

theorem not_moves_of_forall_lost (hw : ∀ phase ∈ pool.workers, phase = .lost) : ¬ pool.Moves := by
  rintro ⟨id, woken, next, hs⟩
  cases transition_of_step? hs with
  | owner ht => cases ht
  | worker hp ht =>
    cases hw _ (List.mem_of_getElem? hp)
    cases ht

structure SameWork (pool next : Pool ε) : Prop where
  workers : next.workers = pool.workers
  size : next.size = pool.size
  pulled : next.pulled = pool.pulled
  alive : next.alive = pool.alive
  working : next.working = pool.working

theorem sameWork_of_step? (hw : ∀ phase ∈ pool.workers, phase = .lost)
    (hl : pool.workers.length = pool.size) (hs : pool.step? action = some next) :
    SameWork pool next := by
  cases transition_of_step? hs with
  | owner ht =>
    cases ht with
    | spawn _ hlt => exact absurd hl (Nat.ne_of_lt hlt)
    | broadcast =>
      refine ⟨?_, rfl, rfl, rfl, rfl⟩
      refine (List.map_congr_left fun phase hm => ?_).trans (List.map_id _)
      rw [hw phase hm]
      rfl
    | _ => exact ⟨rfl, rfl, rfl, rfl, rfl⟩
  | worker => exact absurd ⟨_, _, _, hs⟩ (not_moves_of_forall_lost hw)
  | stir hp => cases hw _ (List.mem_of_getElem? hp)
  | @caller _ _ _ _ _ _ workers hc ht hsignal =>
    have hworkers : workers = pool.workers := by
      cases hsignal with
      | wakes hp => cases hw _ (List.mem_of_getElem? hp)
      | silent | unheard => rfl
    cases ht <;> exact ⟨hworkers, rfl, rfl, rfl, rfl⟩
  | _ => exact ⟨rfl, rfl, rfl, rfl, rfl⟩

theorem sameWork_of_play? (hw : ∀ phase ∈ pool.workers, phase = .lost)
    (hl : pool.workers.length = pool.size) (hp : pool.play? actions = some next) :
    SameWork pool next := by
  refine after?_induction (fun {between _ after} hsame hs => ?_) ⟨rfl, rfl, rfl, rfl, rfl⟩ hp
  have hsame : SameWork pool between := hsame
  have hstep : SameWork between after := by
    refine sameWork_of_step? ?_ ?_ hs
    · rwa [hsame.workers]
    · rwa [hsame.workers, hsame.size]
  exact ⟨hstep.workers.trans hsame.workers, hstep.size.trans hsame.size,
    hstep.pulled.trans hsame.pulled, hstep.alive.trans hsame.alive,
    hstep.working.trans hsame.working⟩

/-! ## A pool does not get stuck -/

def Acts (pool : Pool ε) : Prop :=
  ∃ action next, action.isOwn = true ∧ pool.step? action = some next

theorem Moves.acts (h : pool.Moves) : pool.Acts := by
  obtain ⟨id, woken, next, hs⟩ := h
  exact ⟨.worker id woken, next, rfl, hs⟩

theorem OwnerStep.acts (h : OwnerStep pool action next) (ha : action.isOwn = true) : pool.Acts :=
  ⟨action, next, ha, step?_of_ownerStep h⟩

theorem Reachable.exists_failure (h : Reachable pool) (ho : pool.owner = .lamenting) :
    ∃ error, pool.failure = some error := by
  induction h with
  | start => cases ho
  | @step pool _ action _ hs ih =>
    cases transition_of_step? hs with
    | owner ht =>
      cases ht with
      | balk => exact ⟨_, rfl⟩
      | spawn | giveUpAgain => exact ih ho
      | _ => cases ho
    | @worker id phase phase' _ after _ workers hp ht hw =>
      change after.owner = .lamenting at ho
      obtain ⟨error, hf⟩ := ih <| by
        rcases ht.owner_eq with he | he <;> rw [he] at ho
        · exact ho
        · cases hpool : pool.owner <;> rw [hpool] at ho <;> first | rfl | cases ho
      exact ⟨error, ht.failure_eq.trans hf⟩
    | caller hc ht hw => cases ht <;> exact ih ho
    | _ => exact ih ho

theorem Reachable.acts_of_joining (h : Reachable pool) {worker : Nat}
    (ho : pool.owner = .joining worker) : pool.Acts := by
  cases hp : pool.workers[worker]? with
  | none => exact (OwnerStep.joinedAll ho hp).acts rfl
  | some phase =>
    cases hover : phase.isOver with
    | true =>
      cases phase with
      | ended => exact (OwnerStep.join ho hp).acts rfl
      | crashed => exact (OwnerStep.joinCrashed ho hp (.inl rfl)).acts rfl
      | lost => exact (OwnerStep.joinCrashed ho hp (.inr rfl)).acts rfl
      | _ => cases hover
    | false =>
      have houtside := h.isOutside (by rw [ho]; rfl) phase (List.mem_of_getElem? hp)
      exact (moves_of_getElem? hp (Phase.isAsleep_of_isOutside houtside) hover).acts

/-- The owner waits for workers, and all that it waits for are lost. -/
def IsStranded (pool : Pool ε) : Prop := pool.owner = .sleeping false ∧ pool.alive = pool.lost

/-- A pool goes on by itself until it is in use or destroyed, or the owner waits for the lost. -/
theorem Reachable.acts_or (h : Reachable pool) :
    pool.Acts ∨ pool.owner = .idle ∨ pool.owner.isDone = true ∨ pool.IsStranded := by
  cases ho : pool.owner with
  | idle => exact .inr (.inl rfl)
  | closed | unwound => exact .inr (.inr (.inl rfl))
  | spawning =>
    rcases Nat.lt_or_eq_of_le h.length_le_size with hl | hl
    · exact .inl ((OwnerStep.spawn ho hl).acts rfl)
    · exact .inl ((OwnerStep.gather ho hl).acts rfl)
  | gathering =>
    cases hr : pool.workers.all Phase.hasReported with
    | true => exact .inl ((OwnerStep.gathered ho hr).acts rfl)
    | false =>
      obtain ⟨phase, hm, hn⟩ := List.all_eq_false.mp hr
      obtain ⟨id, hi⟩ := List.mem_iff_getElem?.mp hm
      refine .inl (moves_of_getElem? hi ?_ ?_).acts
      all_goals cases phase <;> first | rfl | exact absurd rfl hn
  | announcing => exact .inl ((OwnerStep.announce ho).acts rfl)
  | lamenting =>
    obtain ⟨error, hf⟩ := h.exists_failure ho
    exact .inl ((OwnerStep.lament ho hf).acts rfl)
  | raising => exact .inl ((OwnerStep.raise ho).acts rfl)
  | watching =>
    by_cases ha : pool.alive = 0
    · have hs : OwnerStep pool (.watch false) _ := .deserted ho ha
      exact .inl (hs.acts rfl)
    · have hs : OwnerStep pool (.watch false) _ := .broadcast ho ha
      exact .inl (hs.acts rfl)
  | sleeping notified =>
    cases notified with
    | false =>
      rcases Nat.lt_or_eq_of_le h.counted.lost_le.1 with hl | hl
      · exact .inl (h.moves_of_sleeping ho hl).acts
      · exact .inr (.inr (.inr ⟨ho, hl.symm⟩))
    | true => exact .inl ((OwnerStep.wake ho).acts rfl)
  | joining worker => exact .inl (h.acts_of_joining ho)
  | clearing => exact .inl ((OwnerStep.clear ho).acts rfl)
  | closing => exact .inl ((OwnerStep.close ho).acts rfl)

theorem Reachable.exists_play?_not_acts {pool : Pool ε} (h : Reachable pool) : ∃ actions next,
    (∀ action ∈ actions, action.isOwn) ∧ pool.play? actions = some next ∧ ¬ next.Acts := by
  by_cases ha : pool.Acts
  · obtain ⟨action, between, ho, hs⟩ := ha
    have hlt : between.energy < pool.energy := by
      have hstep := h.energy_add_of_step? hs
      have hcost : action.cost pool.size = 0 := by
        cases action <;> first | rfl | cases ho
      rw [ho, hcost, Bool.toNat_true] at hstep
      omega
    obtain ⟨actions, next, hown, hp, hn⟩ := (h.step action hs).exists_play?_not_acts
    refine ⟨action :: actions, next, ?_, ?_, hn⟩
    · simpa [ho] using hown
    · exact (after?_cons hs).trans hp
  · exact ⟨[], pool, by simp, rfl, ha⟩
termination_by pool.energy

/-! ## The owner is not left asleep -/

theorem shutdown_of_step? (hs : pool.step? action = some next) (hf : pool.shutdown = true) :
    next.shutdown = true := by
  cases transition_of_step? hs with
  | owner ht =>
    cases ht with
    | raise => rfl
    | _ => exact hf
  | worker hp ht => exact ht.shutdown_eq.trans hf
  | caller hc ht => exact ht.shutdown_eq.trans hf
  | _ => exact hf

theorem shutdown_of_play? (hp : pool.play? actions = some next) (hf : pool.shutdown = true) :
    next.shutdown = true :=
  after?_induction (fun hf hs => shutdown_of_step? hs hf) hf hp

theorem Reachable.not_isStranded (h : Reachable pool) (hl : pool.lost = 0) :
    ¬ pool.IsStranded := by
  rintro ⟨ho, ha⟩
  have hpos := h.alive_of_sleeping ho
  omega

theorem Reachable.owner_ne_idle (h : Reachable pool) (hf : pool.shutdown = true) :
    pool.owner ≠ .idle := by
  intro ho
  rw [h.shutdown_eq, ho] at hf
  cases hf

theorem Reachable.acts_or_isDone (h : Reachable pool) (hi : pool.owner ≠ .idle) :
    pool.Acts ∨ pool.owner.isDone = true ∨ pool.IsStranded :=
  h.acts_or.imp_right (Or.resolve_left · hi)

theorem owner_ne_unwound_of_step? (ha : action ≠ .unwind) (hs : pool.step? action = some next)
    (ho : pool.owner ≠ .unwound) : next.owner ≠ .unwound := by
  cases transition_of_step? hs with
  | owner ht =>
    cases ht with
    | spawn | giveUpAgain => exact ho
    | unwind => exact absurd rfl ha
    | _ => nofun
  | worker hp ht => exact ht.owner_ne_unwound ho
  | caller hc ht => cases ht <;> exact ho
  | _ => exact ho

/-- What the threads of a pool do by themselves does not cut the owner off. -/
theorem owner_ne_unwound_of_play? (ha : ∀ action ∈ actions, action.isOwn)
    (hp : pool.play? actions = some next) (ho : pool.owner ≠ .unwound) :
    next.owner ≠ .unwound := by
  refine after?_induction_of_mem (fun action hm ho hs => owner_ne_unwound_of_step? ?_ hs ho) ho hp
  rintro rfl
  cases ha _ hm

def losesWorker (before : Pool ε) (_ : Action ε) (after : Pool ε) : Bool :=
  after.alive + 1 == before.alive

/-- Without a timeout the owner sleeps on until a worker leaves. -/
theorem Reachable.losesWorker_or (h : Reachable pool) (ho : pool.owner = .sleeping false)
    (ha : action ≠ .expire) (hs : pool.step? action = some next) :
    losesWorker pool action next = true ∨ next.owner = .sleeping false := by
  cases transition_of_step? hs with
  | owner ht =>
    cases ht with
    | expire => exact absurd rfl ha
    | spawn hp => rw [hp] at ho; cases ho
    | giveUpAgain => exact .inr ho
    | _ hp => rw [hp] at ho; cases ho
  | worker hp ht =>
    cases ht with
    | leave =>
      have hpos : 0 < pool.alive := by
        rw [h.counted.alive]
        exact List.countP_pos_iff.mpr ⟨.leaving, List.mem_of_getElem? hp, rfl⟩
      exact .inl (beq_iff_eq.mpr (Nat.sub_add_cancel hpos))
    | _ => exact .inr ho
  | caller hc ht => exact .inr (ht.owner_eq.trans ho)
  | _ => exact .inr ho

theorem Reachable.losesWorker_or_sleeping (h : Reachable pool) (ho : pool.owner = .sleeping false)
    (ha : ∀ action ∈ actions, action ≠ .expire) (hp : pool.play? actions = some next) :
    0 < pool.tally losesWorker actions ∨ (next.owner = .sleeping false ∧
      (next.Moves ∨ next.alive = next.lost)) := by
  have hstep {pool next : Pool ε} {action : Action ε} (hr : Reachable pool)
      (ha : action ≠ .expire) (ho : pool.owner = .sleeping false)
      (hs : pool.step? action = some next) := hr.losesWorker_or ho ha hs
  rcases h.tally_pos_or ho hstep ha hp with hpos | hnext
  · exact .inl hpos
  · have hr := h.play? hp
    refine .inr ⟨hnext, ?_⟩
    rcases Nat.lt_or_eq_of_le hr.counted.lost_le.1 with hl | hl
    · exact .inl (hr.moves_of_sleeping hnext hl)
    · exact .inr hl.symm

/-- The owner sleeps and has not been notified. Still somebody is about to leave, unless all workers
that count as alive are lost: a worker is awake before the armed gate, or one that is alive is not
at the gate, as it is in a body, or reads the flag next, or is on its way out. Without a timeout,
workers go on until one of them leaves or all are lost, however the steps are ordered. In the end
the pool is closed, unless a worker is lost; then the owner sleeps for ever. -/
structure DestroyProceeds (pool : Pool ε) : Prop where
  alive : 0 < pool.alive
  ready : pool.lost < pool.alive →
    (pool.queue.gate.armed = true ∧ ∃ stance ≠ .asleep, .atGate stance ∈ pool.workers) ∨
      ∃ phase ∈ pool.workers, phase.isAlive = true ∧ phase.isAtGate = false ∧
        phase.isLost = false
  proceeds : ∀ actions next, (∀ action ∈ actions, action ≠ .expire) →
    pool.play? actions = some next →
    0 < pool.tally losesWorker actions ∨ (next.owner = .sleeping false ∧
      (next.Moves ∨ next.alive = next.lost))
  departs : ∃ actions next, (∀ action ∈ actions, action.isWorker) ∧
    pool.play? actions = some next ∧
      (0 < pool.tally losesWorker actions ∨ next.alive = next.lost)
  bounded : ∀ actions next, pool.play? actions = some next →
    actions.countP Action.isOwn ≤ pool.energy + (actions.map (Action.cost pool.size)).sum
  finishes : ∀ actions next, pool.play? actions = some next →
    next.Acts ∨ next.owner.isDone = true ∨ next.IsStranded
  closes : ∃ actions next, (∀ action ∈ actions, action.isOwn) ∧
    pool.play? actions = some next ∧ (next.owner = .closed ∨ next.IsStranded)
  hangs : 0 < pool.lost → ∀ actions next, pool.play? actions = some next →
    0 < next.alive ∧ next.owner.hasWatched = false
  losses : ∀ actions next, pool.play? actions = some next → next.lost ≤ next.explosions

theorem Reachable.hangs_of_lost (h : Reachable pool) (hl : 0 < pool.lost)
    (hp : pool.play? actions = some next) : 0 < next.alive ∧ next.owner.hasWatched = false := by
  have hr := h.play? hp
  have hlost := Nat.lt_of_lt_of_le hl (lost_le_of_play? hp)
  refine ⟨Nat.lt_of_lt_of_le hlost hr.counted.lost_le.1, ?_⟩
  by_contra ho
  rw [hr.lost_of_hasWatched (by simpa using ho)] at hlost
  exact Nat.lt_irrefl 0 hlost

theorem Reachable.destroy_proceeds (h : Reachable pool) (ho : pool.owner = .sleeping false) :
    DestroyProceeds pool := by
  have hflag : pool.shutdown = true := by
    rw [h.shutdown_eq, ho]
    rfl
  have hfinishes {actions : List (Action ε)} {next : Pool ε}
      (hp : pool.play? actions = some next) :
      next.Acts ∨ next.owner.isDone = true ∨ next.IsStranded :=
    (h.play? hp).acts_or_isDone ((h.play? hp).owner_ne_idle (shutdown_of_play? hp hflag))
  refine ⟨h.alive_of_sleeping ho, h.ready_of_sleeping ho, ?_, ?_, ?_, ?_, ?_, ?_, ?_⟩
  · intro actions next ha hp
    exact h.losesWorker_or_sleeping ho ha hp
  · obtain ⟨actions, next, hw, hp, hn⟩ := pool.exists_play?_not_moves
    have hnoTimeout : ∀ action ∈ actions, action ≠ .expire := by
      rintro action hm rfl
      cases hw _ hm
    refine ⟨actions, next, hw, hp, ?_⟩
    rcases h.losesWorker_or_sleeping ho hnoTimeout hp with hpos | ⟨_, hm | hl⟩
    · exact .inl hpos
    · exact absurd hm hn
    · exact .inr hl
  · intro actions next hp
    exact h.countP_isOwn_le hp
  · intro actions next hp
    exact hfinishes hp
  · obtain ⟨actions, next, hown, hp, hn⟩ := h.exists_play?_not_acts
    refine ⟨actions, next, hown, hp, ?_⟩
    rcases (hfinishes hp).resolve_left hn with hdone | hstranded
    · have hne := owner_ne_unwound_of_play? hown hp (by rw [ho]; nofun)
      exact .inl ((Owner.eq_closed_or_of_isDone hdone).resolve_right hne)
    · exact .inr hstranded
  · intro hl actions next hp
    exact h.hangs_of_lost hl hp
  · intro actions next hp
    exact (h.play? hp).lost_le_explosions

/-- Three workers; one is in a body when the pool is given up. The owner's signal wakes the other
two: one gets through the gate, and the other one finds it closed again and goes back to sleep. -/
def lastWatch : List (Action Nat) :=
  List.flatten [[.spawn none, .spawn none, .spawn none, .owner],
    List.replicate 3 (.worker 0 none), List.replicate 3 (.worker 1 none),
    List.replicate 3 (.worker 2 none), [.owner, .owner],
    List.replicate 2 (.worker 0 none), List.replicate 2 (.worker 1 none),
    List.replicate 2 (.worker 2 none),
    [.call (.submit (.act 7 .done)), .caller 0 none, .caller 0 (some 0)],
    List.replicate 4 (.worker 0 none), [.destroy, .owner, .watch false],
    [.worker 1 none, .worker 2 none]]

theorem destroy_proceeds_lastWatch :
    ∃ pool : Pool Nat, Reachable pool ∧ pool.owner = .sleeping false ∧
      pool.workers = [.running 0 (.act 7 .done), .passed, .atGate .asleep] ∧
      pool.queue.gate.armed = false ∧ pool.alive = 3 ∧ pool.lost = 0 ∧ DestroyProceeds pool := by
  have hstart : Reachable (start 3 false : Pool Nat) := .start false (by decide)
  obtain ⟨pool, hr, ht⟩ := hstart.exists_of_play? lastWatch
    (fun pool => pool.owner = .sleeping false ∧
      pool.workers = [.running 0 (.act 7 .done), .passed, .atGate .asleep] ∧
      pool.queue.gate.armed = false ∧ pool.alive = 3 ∧ pool.lost = 0)
    (by decide +kernel)
  obtain ⟨ho, hw, harmed, halive, hlost⟩ := of_decide_eq_true ht
  exact ⟨pool, hr, ho, hw, harmed, halive, hlost, hr.destroy_proceeds ho⟩

/-- The one worker of a pool runs a body that panics with something whose destructor panics. -/
def explosion : List (Action Nat) :=
  List.flatten [[.spawn none, .owner], List.replicate 5 (.worker 0 none), [.owner, .owner],
    [.call (.submit (.panic .explosive)), .caller 0 none, .caller 0 (some 0)],
    List.replicate 7 (.worker 0 none)]

theorem pos_lost_of_workers (hw : pool.workers = [.lost]) : 0 < pool.lost := by
  rw [lost, hw]
  exact Nat.one_pos

theorem forall_lost_of_workers (hw : pool.workers = [.lost]) :
    ∀ phase ∈ pool.workers, phase = .lost := by
  rw [hw]
  exact fun _ => List.mem_singleton.mp

/-- The worker of that pool is dead and counts as alive. Once the owner has gone to sleep no worker
can take a step, and the owner watches and sleeps for ever. -/
theorem destroy_hangs_explosion :
    ∃ pool : Pool Nat, Reachable pool ∧ pool.shutdown = true ∧ pool.owner = .sleeping false ∧
      pool.alive = 1 ∧ pool.workers = [.lost] ∧ ¬ pool.Moves ∧
      ∀ actions next, pool.play? actions = some next →
        next.alive ≠ 0 ∧ next.owner ≠ .closed := by
  have hstart : Reachable (start 1 false : Pool Nat) := .start false (by decide)
  obtain ⟨pool, hr, ht⟩ := hstart.exists_of_play? (explosion ++ [.destroy, .owner, .watch false])
    (fun pool => pool.shutdown = true ∧ pool.owner = .sleeping false ∧ pool.alive = 1 ∧
      pool.workers = [.lost])
    (by decide +kernel)
  obtain ⟨hs, ho, halive, hw⟩ := of_decide_eq_true ht
  refine ⟨pool, hr, hs, ho, halive, hw, not_moves_of_forall_lost (forall_lost_of_workers hw),
    fun actions next hp => ?_⟩
  obtain ⟨hpos, hwatched⟩ := hr.hangs_of_lost (pos_lost_of_workers hw) hp
  refine ⟨Nat.ne_of_gt hpos, fun hc => ?_⟩
  rw [hc] at hwatched
  cases hwatched

end Pool
end TreePool
