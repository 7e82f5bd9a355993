import TreePool.Proofs.Pool.Log
import TreePool.Proofs.Pool.Evacuation

/-! # The log at the end

When a pool is closed, its log holds what all threads wrote over its life and nothing else: that
every worker started and stopped, how building the pool ended, each panic of a task, each thread
that a panic ended, and that the pool is destroyed. No later step adds to it, and it comes to this
once the pool is given up, also if the logger panics. There are two exceptions, both due to a
destructor that panics: a worker that is lost never stops, and an owner that is cut off does not get
to the last record.
-/

namespace TreePool

variable {ε : Type}

/-- Whether a thread, if it has stopped, ended in the way that the logger makes threads end. -/
def Phase.endsAs (fragile : Bool) (phase : Phase ε) : Bool :=
  !phase.hasStopped || phase.isCrashed == fragile

def Notice.cause? : Notice → Option Cause
  | .taskPanicked _ cause => some cause
  | _ => none

def Ending.cause? : Ending → Option Cause
  | .panicked cause => some cause
  | .returned => none

theorem Owner.ne_idle_of_isContent_eq_false {owner : Owner} (ho : owner.isContent = false) :
    owner ≠ .idle := by
  rintro rfl
  cases ho

namespace Pool

variable {pool next after : Pool ε} {action : Action ε} {actions : List (Action ε)}
variable {history : List (Event ε)} {notice : Notice} {id worker : Nat} {phase phase' : Phase ε}
variable {signals : Bool} {error : IoError} {size : Nat} {fragile : Bool}

/-! ## How threads end -/

theorem WorkerStep.fragile_eq (h : WorkerStep pool id phase phase' signals after) :
    after.fragile = pool.fragile := by
  cases h <;> rfl

theorem fragile_eq_of_step? (hs : pool.step? action = some next) :
    next.fragile = pool.fragile := by
  cases transition_of_step? hs with
  | owner ht => cases ht <;> rfl
  | worker _ ht => exact ht.fragile_eq
  | caller _ ht => cases ht <;> rfl
  | _ => rfl

theorem WorkerStep.endsAs (h : WorkerStep pool id phase phase' signals after) :
    phase'.endsAs pool.fragile := by
  cases h with
  | part => cases pool.fragile <;> rfl
  | _ => rfl

theorem Reachable.endsAs (h : Reachable pool) :
    ∀ phase ∈ pool.workers, phase.endsAs pool.fragile := by
  induction h with
  | start => simp [Pool.start]
  | @step pool next action _ hs ih =>
    rw [fragile_eq_of_step? hs]
    cases transition_of_step? hs with
    | owner ht =>
      cases ht with
      | spawn =>
        intro phase hm
        rcases List.mem_append.mp hm with hm | hm
        · exact ih phase hm
        · cases List.mem_singleton.mp hm
          rfl
      | broadcast =>
        intro phase hm
        obtain ⟨old, hold, rfl⟩ := List.mem_map.mp hm
        cases old with
        | atGate stance => cases stance <;> rfl
        | _ => exact ih _ hold
      | _ => exact ih
    | worker hp ht hw => exact hw.forall_mem_of_set (fun _ => rfl) ih ht.endsAs
    | stir hp => exact (Signal.wakes hp).forall_mem (fun _ => rfl) ih
    | caller hc ht hw => exact hw.forall_mem (fun _ => rfl) ih
    | _ => exact ih

theorem Reachable.hasStopped_of_isDone (h : Reachable pool) (hd : pool.owner.isDone) :
    ∀ phase ∈ pool.workers, phase.hasStopped = true := by
  intro phase hm
  have hover := h.isOver_of_isDone hd phase hm
  have hlost := Phase.not_isLost_of_isOutside (h.isOutside_of_isDone hd phase hm)
  cases phase with
  | ended | crashed => rfl
  | lost => cases hlost
  | _ => cases hover

theorem Reachable.eq_of_isDone (h : Reachable pool) (hd : pool.owner.isDone) :
    ∀ phase ∈ pool.workers, phase = if pool.fragile then .crashed else .ended := by
  intro phase hm
  have hstopped := h.hasStopped_of_isDone hd phase hm
  have hends := h.endsAs phase hm
  cases phase with
  | ended | crashed => cases hf : pool.fragile <;> simp [hf, Phase.endsAs, Phase.hasStopped,
      Phase.isCrashed] at hends ⊢
  | _ => cases hstopped

/-! ## A pool that could not be built runs no task -/

theorem Reachable.not_holds (h : Reachable pool) (ho : pool.offered = 0) {ticket : Ticket}
    (hp : pool.workers[id]? = some phase) : phase.holds ticket = false := by
  have htickets := h.count_tickets ticket
  have hpulled := h.count_pulled ticket
  have haccepted := congrArg (List.count ticket) h.accepted_eq
  rw [List.count_append, List.count_append] at haccepted
  rw [ho] at htickets
  have hnone : pool.workers.countP (Phase.holds ticket) = 0 := by
    simp only [Nat.not_lt_zero, decide_false, Bool.toNat_false] at htickets
    omega
  simpa using List.countP_eq_zero.mp hnone phase (List.mem_of_getElem? hp)

theorem Run.events_of_step? (h : Run history pool) (ho : pool.offered = 0)
    (hs : pool.step? action = some next) : alarms (pool.events action) = [] := by
  cases transition_of_step? hs with
  | owner ht => rw [events_of_ownerStep ht]; rfl
  | @worker id phase phase' _ after _ workers hp ht =>
    rw [events_worker hp, Phase.alarms_events]
    cases phase with
    | @running ticket body =>
      have hholds : (Phase.running ticket body).holds ticket = false := h.reachable.not_holds ho hp
      simp [Phase.holds] at hholds
    | _ => rfl
  | caller hc ht => rw [events_caller hc, Caller.alarms_events]
  | _ => rfl

theorem offered_le_of_step? (hs : pool.step? action = some next) :
    pool.offered ≤ next.offered := by
  cases transition_of_step? hs with
  | owner ht => cases ht <;> exact Nat.le_refl _
  | worker _ ht =>
    cases ht with
    | refuse | offer => exact Nat.le_succ _
    | _ => exact Nat.le_refl _
  | callSubmit => exact Nat.le_succ _
  | caller _ ht => cases ht <;> exact Nat.le_refl _
  | _ => exact Nat.le_refl _

theorem Run.alarms_eq_nil (h : Run history pool) (ho : pool.offered = 0) : alarms history = [] := by
  induction h with
  | start => rfl
  | @step history pool next action hr hs ih =>
    have hbefore : pool.offered = 0 := Nat.le_zero.mp (ho ▸ offered_le_of_step? hs)
    rw [alarms_append, ih hbefore, hr.events_of_step? hbefore hs, List.append_nil]

/-! ## The whole log -/

theorem count_alarms_eq_zero (h : ∀ id cause, notice ≠ .taskPanicked id cause)
    (history : List (Event ε)) : (alarms history).count notice = 0 := by
  apply List.count_eq_zero_of_not_mem
  intro hm
  obtain ⟨event, -, he⟩ := List.mem_filterMap.mp hm
  cases event with
  | did worker ticket deed =>
    cases deed with
    | finish ending =>
      cases ending with
      | panicked cause => exact h worker cause (Option.some.inj he).symm
      | returned => cases he
    | _ => cases he
  | _ => cases he

theorem Reachable.mark_of_isDone (h : Reachable pool) (hd : pool.owner.isDone)
    {f : Phase ε → Bool} {value : Bool}
    (hf : ∀ phase : Phase ε, phase.hasStopped → f phase = value) (worker : Nat) :
    mark f worker pool = if worker < pool.workers.length then value.toNat else 0 := by
  split_ifs with hlt
  · have hp := List.getElem?_eq_getElem hlt
    rw [mark_of_getElem? hp, hf _ (h.hasStopped_of_isDone hd _ (List.mem_of_getElem? hp))]
  · rw [mark, List.getElem?_eq_none (Nat.le_of_not_lt hlt)]
    rfl

theorem Run.count_log_of_isDone (h : Run history pool) (hd : pool.owner.isDone) {value : Bool}
    (hn : notice.isBy worker)
    (hv : ∀ phase : Phase ε, phase.hasStopped → phase.shows notice = value) :
    pool.log.count notice =
      (if worker < pool.workers.length then value.toNat else 0) +
        (alarms history).count notice := by
  have hcount := h.count_log hn
  have hnothing (phase : Phase ε) (hs : phase.hasStopped) : phase.withholds notice = false := by
    cases phase with
    | ended | crashed => rfl
    | _ => cases hs
  rw [h.reachable.mark_of_isDone hd hnothing, h.reachable.mark_of_isDone hd hv] at hcount
  simpa using hcount

theorem Run.filter_isReport_perm (h : Run history pool) (hd : pool.owner.isDone) :
    (pool.log.filter Notice.isReport).Perm
      ((List.range pool.workers.length).map .workerStarted ++
        (List.range pool.workers.length).map .workerStopped ++ alarms history) := by
  apply List.perm_iff_count.mpr
  intro notice
  rw [List.count_append, List.count_append]
  have hgreeted (phase : Phase ε) (hs : phase.hasStopped) : phase.hasGreeted = true := by
    cases phase with
    | ended | crashed => rfl
    | _ => cases hs
  have hstarted : Function.Injective Notice.workerStarted := fun _ _ => Notice.workerStarted.inj
  have hstopped : Function.Injective Notice.workerStopped := fun _ _ => Notice.workerStopped.inj
  rw [(List.nodup_range.map hstarted).count, (List.nodup_range.map hstopped).count]
  cases notice with
  | workerStarted id =>
    have hby : (Notice.workerStarted id).isBy id := beq_self_eq_true id
    rw [List.count_filter rfl, h.count_log_of_isDone hd hby hgreeted]
    simp
  | workerStopped id =>
    have hby : (Notice.workerStopped id).isBy id := beq_self_eq_true id
    rw [List.count_filter rfl, h.count_log_of_isDone hd hby fun _ hs => hs]
    simp
  | taskPanicked id cause =>
    have hby : (Notice.taskPanicked id cause).isBy id := beq_self_eq_true id
    rw [List.count_filter rfl, h.count_log_of_isDone hd hby fun _ _ => rfl]
    simp
  | _ =>
    rw [count_alarms_eq_zero (by nofun)]
    simp [List.count_eq_zero, Notice.isReport]

theorem filter_kinds_perm (log : List Notice) :
    log.Perm (log.filter Notice.isReport ++ log.filter Notice.isComplaint ++
      log.filter Notice.isMilestone) := by
  apply List.perm_iff_count.mpr
  intro notice
  have hfilter (test : Notice → Bool) : (log.filter test).count notice =
      if test notice then log.count notice else 0 := by
    split_ifs with ht
    · exact List.count_filter ht
    · exact List.count_eq_zero_of_not_mem (by simp [ht])
  rw [List.count_append, List.count_append, hfilter, hfilter, hfilter]
  cases notice <;> simp [Notice.isReport, Notice.isComplaint, Notice.isMilestone]

theorem Reachable.crashes_of_isDone (h : Reachable pool) (hd : pool.owner.isDone) :
    crashes pool.workers pool.workers.length =
      if pool.fragile then (List.range pool.workers.length).map .workerPanicked else [] := by
  have hcrashed (id : Nat) (hid : id ∈ List.range pool.workers.length) :
      pool.workers[id]?.any Phase.isCrashed = pool.fragile := by
    have hp := List.getElem?_eq_getElem (List.mem_range.mp hid)
    rw [hp, h.eq_of_isDone hd _ (List.mem_of_getElem? hp)]
    cases pool.fragile <;> rfl
  rw [crashes, List.filter_congr hcrashed]
  cases pool.fragile <;> simp

theorem milestones_of_isDone (hd : pool.owner.isDone) : pool.milestones =
    pool.opening :: (crashes pool.workers pool.workers.length ++
      if pool.owner = .closed then [.poolDestroyed pool.size] else []) := by
  rcases Owner.eq_closed_or_of_isDone hd with ho | ho <;> simp [milestones, ho]

/-- All that is logged over the life of a pool with so many threads, but not in this order: how the
owner ended, how building the pool did, what its tasks panicked with, and what there was to complain
of are given. -/
def account (first : Pool ε) (owner : Owner) (threads : Nat) (opening : Notice)
    (panics complaints : List Notice) : List Notice :=
  (List.range threads).map .workerStarted ++ (List.range threads).map .workerStopped ++ panics ++
    complaints.take 1 ++
    opening :: ((if first.fragile then (List.range threads).map .workerPanicked else []) ++
      if owner = .closed then [.poolDestroyed first.size] else [])

/-- What is known of a destroyed pool and its log. -/
structure Reconciled (first : Pool ε) (actions : List (Action ε)) (pool : Pool ε) : Prop where
  built : pool.failure = none → pool.workers.length = first.size ∧
    pool.log.Perm (first.account pool.owner first.size (.poolReady first.size)
      (alarms (first.record actions)) (first.complaints actions))
  unbuilt : ∀ error, pool.failure = some error → pool.workers.length < first.size ∧
    pool.log.Perm (first.account pool.owner pool.workers.length
      (.cannotSpawn pool.workers.length error) [] (first.complaints actions))
  panics : (alarms (first.record actions)).filterMap Notice.cause? =
    pool.finished.filterMap (·.2.cause?)
  threads : ∀ phase ∈ pool.workers, phase = if first.fragile then .crashed else .ended
  kept : ∀ later next, pool.play? later = some next → next.log = pool.log

theorem size_eq_of_play? (hp : pool.play? actions = some next) : next.size = pool.size :=
  after?_induction (fun (h : _ = pool.size) hs => (size_eq_of_step? hs).trans h) rfl hp

theorem fragile_eq_of_play? (hp : pool.play? actions = some next) : next.fragile = pool.fragile :=
  after?_induction (fun (h : _ = pool.fragile) hs => (fragile_eq_of_step? hs).trans h) rfl hp

/-- Each panic in the history belongs to a task that ended by it. -/
theorem Run.filterMap_cause?_alarms (h : Run history pool) :
    (alarms history).filterMap Notice.cause? = pool.finished.filterMap (·.2.cause?) := by
  rw [← h.recorded.ended, alarms, List.filterMap_filterMap, List.filterMap_filterMap]
  apply List.filterMap_congr
  intro event _
  cases event with
  | did worker ticket deed =>
    cases deed with
    | finish ending => cases ending <;> rfl
    | _ => rfl
  | _ => rfl

theorem log_perm_of_isDone (hsize : 1 ≤ size)
    (hp : (start size fragile).play? actions = some pool) (hd : pool.owner.isDone) :
    pool.log.Perm ((start size fragile : Pool ε).account pool.owner pool.workers.length pool.opening
      (alarms ((start size fragile).record actions))
      ((start size fragile).complaints actions)) := by
  have hrun : Run ((start size fragile).record actions) pool := by
    simpa using (Run.start fragile hsize).play? hp
  have hcomplaints : pool.log.filter Notice.isComplaint =
      ((start size fragile).complaints actions).take 1 := filter_isComplaint_of_play? hp
  have hmilestones := hrun.reachable.filter_isMilestone
  rw [milestones_of_isDone hd, hrun.reachable.crashes_of_isDone hd, size_eq_of_play? hp,
    fragile_eq_of_play? hp] at hmilestones
  refine (filter_kinds_perm pool.log).trans ?_
  rw [hcomplaints, hmilestones]
  exact ((hrun.filter_isReport_perm hd).append_right _).append_right _

theorem reconciled_of_isDone (hsize : 1 ≤ size)
    (hp : (start size fragile).play? actions = some pool) (hd : pool.owner.isDone) :
    Reconciled (start size fragile) actions pool := by
  have hrun : Run ((start size fragile).record actions) pool := by
    simpa using (Run.start fragile hsize).play? hp
  have hr := hrun.reachable
  have hlog := log_perm_of_isDone hsize hp hd
  have hpoolSize := size_eq_of_play? hp
  refine ⟨?_, ?_, hrun.filterMap_cause?_alarms, ?_, ?_⟩
  · intro hf
    have hl := (hr.length_workers_of_isOpen (.inr ⟨hd, hf⟩)).trans hpoolSize
    rw [opening, hf, hl, hpoolSize] at hlog
    exact ⟨hl, hlog⟩
  · intro error hf
    have ho := hr.offered_eq_zero (.inr (by simp [hf]))
    rw [opening, hf, hrun.alarms_eq_nil ho] at hlog
    exact ⟨hpoolSize ▸ hr.length_lt_size hf, hlog⟩
  · rw [← fragile_eq_of_play? hp]
    exact hr.eq_of_isDone hd
  · intro later next hlater
    obtain ⟨-, -, hsame⟩ := hr.play_of_isDone hd hlater
    have hlast : next.withoutCalls.log = pool.withoutCalls.log := congrArg Pool.log hsame
    exact hlast

/-! ## What comes of giving the pool up -/

theorem not_isContent_of_step? (hs : pool.step? action = some next)
    (ho : pool.owner.isContent = false) : next.owner.isContent = false := by
  cases transition_of_step? hs with
  | owner ht =>
    cases ht with
    | spawn hp | gather hp | gathered hp | announce hp => rw [hp] at ho; cases ho
    | giveUpAgain hp => exact ho
    | _ => rfl
  | worker hp ht => exact (ht.test_owner_eq Owner.isContent_rouse).trans ho
  | caller hc ht => exact (congrArg Owner.isContent ht.owner_eq).trans ho
  | _ => exact ho

/-- The owner does not get beyond its watch for a worker that is lost. -/
theorem Reachable.poolDestroyed_not_mem (h : Reachable pool) (hl : 0 < pool.lost) (size : Nat) :
    .poolDestroyed size ∉ pool.log := by
  intro hm
  have hmilestone : .poolDestroyed size ∈ pool.log.filter Notice.isMilestone :=
    List.mem_filter.mpr ⟨hm, rfl⟩
  have hopening : pool.opening ≠ .poolDestroyed size := by
    unfold opening
    split <;> nofun
  rw [h.filter_isMilestone] at hmilestone
  cases ho : pool.owner with
  | joining | clearing | closing | closed | unwound =>
    rw [h.lost_of_hasWatched (by rw [ho]; rfl)] at hl
    exact Nat.lt_irrefl 0 hl
  | idle | raising | watching | sleeping =>
    simp only [milestones, ho, List.mem_singleton] at hmilestone
    exact hopening hmilestone.symm
  | _ =>
    simp only [milestones, ho] at hmilestone
    cases hmilestone

/-- A worker that is lost stays lost. -/
theorem getElem?_of_lost_of_step? (hp : pool.workers[id]? = some .lost)
    (hs : pool.step? action = some next) : next.workers[id]? = some .lost := by
  have hover : ∀ phase, pool.workers[id]? = some phase → phase.isOver := by
    intro phase hp'
    cases hp.symm.trans hp'
    rfl
  have hb := isBy_eq_false_of_isOver hover hs
  have hmark := mark_of_not_isBy (f := Phase.isLost) rfl rfl hb hs
  rw [mark_of_getElem? hp, mark] at hmark
  obtain ⟨phase, hphase, hlost⟩ := (Option.any_eq_true _ _).mp (Bool.toNat_eq_one.mp hmark)
  rw [hphase, isLost_iff.mp hlost]

theorem getElem?_of_lost_of_play? (hp : pool.workers[id]? = some .lost)
    (h : pool.play? actions = some next) : next.workers[id]? = some .lost :=
  after?_induction (fun hp hs => getElem?_of_lost_of_step? hp hs) hp h

theorem Run.workerStopped_not_mem (h : Run history pool) (hp : pool.workers[id]? = some .lost) :
    .workerStopped id ∉ pool.log := by
  have hby : (Notice.workerStopped id).isBy id = true := beq_self_eq_true id
  have hcount := h.count_log hby
  rw [mark_of_getElem? hp, mark_of_getElem? hp, count_alarms_eq_zero (by nofun)] at hcount
  exact List.count_eq_zero.mp (Nat.eq_zero_of_add_eq_zero_right hcount)

/-- What the threads of a pool that is given up come to by themselves. Unless a worker was lost, for
which a task has to panic with something whose destructor panics, and unless the owner has been cut
off, they come to a closed pool. -/
structure Concludes (pool next : Pool ε) : Prop where
  ends : next.owner.isDone = true ∨ next.IsStranded
  closes : next.lost = 0 → pool.owner ≠ .unwound → next.owner = .closed
  losses : next.lost ≤ next.explosions

theorem Reachable.exists_concludes (h : Reachable pool) (ho : pool.owner.isContent = false) :
    ∃ later next, (∀ action ∈ later, action.isOwn) ∧ pool.play? later = some next ∧
      Concludes pool next := by
  obtain ⟨later, next, hown, hp, hn⟩ := h.exists_play?_not_acts
  have hr := h.play? hp
  have hcontent : next.owner.isContent = false :=
    after?_induction (fun ho hs => not_isContent_of_step? hs ho) ho hp
  have hends := (hr.acts_or_isDone (Owner.ne_idle_of_isContent_eq_false hcontent)).resolve_left hn
  refine ⟨later, next, hown, hp, hends, fun hl hne => ?_, hr.lost_le_explosions⟩
  exact (Owner.eq_closed_or_of_isDone (hends.resolve_right (hr.not_isStranded hl))).resolve_right
    (owner_ne_unwound_of_play? hown hp hne)

/-- Once a pool is given up its threads go on until it is closed, if no destructor panics, and then
the log tells what happened, each thing once: whatever order the steps came in, and whether or not
the logger panics. -/
theorem reconciled_of_play? (hsize : 1 ≤ size)
    (hp : (start size fragile).play? actions = some pool) :
    (pool.owner.isContent = false →
      (pool.Acts ∨ pool.owner.isDone = true ∨ pool.IsStranded) ∧
      ∃ later next, (∀ action ∈ later, action.isOwn) ∧ pool.play? later = some next ∧
        Concludes pool next) ∧
    (pool.owner.isDone = true → Reconciled (start size fragile) actions pool) := by
  have hr : Reachable pool := (Reachable.start fragile hsize).play? hp
  constructor
  · intro ho
    exact ⟨hr.acts_or_isDone (Owner.ne_idle_of_isContent_eq_false ho), hr.exists_concludes ho⟩
  · intro hd
    exact reconciled_of_isDone hsize hp hd

/-- Two workers and a logger that panics when a worker stops. A task has panicked, and its worker is
still counted as working when the grace period is over. -/
def slowPanic : List (Action Nat) :=
  List.flatten [[.spawn none, .spawn none, .owner],
    List.replicate 3 (.worker 0 none), List.replicate 3 (.worker 1 none), [.owner, .owner],
    List.replicate 2 (.worker 0 none), List.replicate 2 (.worker 1 none),
    [.call (.submit (.panic .other)), .caller 0 none, .caller 0 (some 0)],
    List.replicate 7 (.worker 0 none), [.destroy, .owner, .watch false],
    List.replicate 4 (.worker 1 none), [.owner, .watch true],
    List.replicate 4 (.worker 0 none), [.owner, .watch true], List.replicate 5 .owner, [.destroy]]

theorem reconciled_slowPanic :
    ∃ pool : Pool Nat, 1 ≤ 2 ∧ (start 2 true).play? slowPanic = some pool ∧
      pool.owner = .closed ∧
      pool.log.Perm [.workerStarted 0, .workerStarted 1, .workerStopped 0, .workerStopped 1,
        .taskPanicked 0 .other, .stillBusy 1 1, .poolReady 2, .workerPanicked 0,
        .workerPanicked 1, .poolDestroyed 2] := by
  have htest : ((start 2 true : Pool Nat).play? slowPanic).any (fun pool =>
      pool.owner = .closed ∧ pool.failure = none) = true := by
    decide +kernel
  obtain ⟨pool, hp, ht⟩ := (Option.any_eq_true _ _).mp htest
  obtain ⟨hc, hf⟩ := of_decide_eq_true ht
  have halarms : alarms ((start 2 true).record slowPanic) = [.taskPanicked 0 .other] := by
    decide +kernel
  have hcomplaints : (start 2 true).complaints slowPanic = [.stillBusy 1 1] := by
    decide +kernel
  have hlog := (((reconciled_of_play? (by decide) hp).2 (Owner.isDone_of_eq_closed hc)).built hf).2
  rw [halarms, hcomplaints, hc] at hlog
  exact ⟨pool, by decide, hp, hc, hlog⟩

/-- The one worker is about to read the flag when the pool is given up, and leaves a task in the
queue. The destructor of that task panics. -/
def cutOff : List (Action Nat) :=
  List.flatten [[.spawn none, .owner], List.replicate 3 (.worker 0 none), [.owner, .owner],
    List.replicate 2 (.worker 0 none),
    [.call (.submit .done), .caller 0 none, .caller 0 (some 0), .destroy, .owner, .watch false],
    List.replicate 4 (.worker 0 none), [.owner, .watch false, .owner, .owner, .unwind]]

/-- When a task panics with something whose destructor does, then its worker never writes that it
stopped, and nobody that the pool is destroyed; nor is that written when the destructor of a task in
the queue panics. -/
theorem records_missing :
    (∃ pool : Pool Nat,
      (start 1 false).play? (explosion ++ [.destroy, .owner, .watch false]) = some pool ∧
      pool.owner = .sleeping false ∧ ¬ pool.Moves ∧ ∀ later next, pool.play? later = some next →
        .workerStopped 0 ∉ next.log ∧ .poolDestroyed 1 ∉ next.log) ∧
    ∃ pool : Pool Nat, (start 1 false).play? cutOff = some pool ∧ pool.owner = .unwound ∧
      ∀ later next, pool.play? later = some next → .poolDestroyed 1 ∉ next.log := by
  have hstart : Run [] (start 1 false : Pool Nat) := .start false (by decide)
  constructor
  · have htest : ((start 1 false : Pool Nat).play?
        (explosion ++ [.destroy, .owner, .watch false])).any
          (fun pool => pool.owner = .sleeping false ∧ pool.workers = [.lost]) = true := by
      decide +kernel
    obtain ⟨pool, hp, ht⟩ := (Option.any_eq_true _ _).mp htest
    obtain ⟨ho, hw⟩ := of_decide_eq_true ht
    have hrun := hstart.play? hp
    have hmoves := not_moves_of_forall_lost (forall_lost_of_workers hw)
    refine ⟨pool, hp, ho, hmoves, fun later next hlater => ⟨?_, ?_⟩⟩
    · have hlost : next.workers[0]? = some .lost :=
        getElem?_of_lost_of_play? (by rw [hw]; rfl) hlater
      exact (hrun.play? hlater).workerStopped_not_mem hlost
    · have hlost := Nat.lt_of_lt_of_le (pos_lost_of_workers hw) (lost_le_of_play? hlater)
      exact (hrun.play? hlater).reachable.poolDestroyed_not_mem hlost 1
  · have htest : ((start 1 false : Pool Nat).play? cutOff).any
        (fun pool => pool.owner = .unwound ∧ .poolDestroyed 1 ∉ pool.log) = true := by
      decide +kernel
    obtain ⟨pool, hp, ht⟩ := (Option.any_eq_true _ _).mp htest
    obtain ⟨ho, hlog⟩ := of_decide_eq_true ht
    have hr := hstart.reachable.play? hp
    refine ⟨pool, hp, ho, fun later next hlater => ?_⟩
    obtain ⟨-, -, hsame⟩ := hr.play_of_isDone (by rw [ho]; rfl) hlater
    have hlast : next.withoutCalls.log = pool.withoutCalls.log := congrArg Pool.log hsame
    rw [show next.log = pool.log from hlast]
    exact hlog

end Pool
end TreePool
