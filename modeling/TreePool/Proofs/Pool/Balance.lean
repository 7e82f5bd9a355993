import TreePool.Proofs.Pool.Destroy
import TreePool.Proofs.Pool.Drain

/-! # The counters balance

In every run a worker raises a counter and lowers it in turn, and at any time the counter is the
number of workers that have raised it and have yet to lower it: `Counts.eq_countP_range`. Workers in
a body are among those that work, those that work are among those alive, and nobody lowers a counter
that is zero. When the pool is closed both counters are zero.
-/

namespace TreePool

variable {ε : Type}

def Action.isBy (worker : Nat) : Action ε → Bool
  | .worker id _ => id == worker
  | _ => false

theorem Phase.isAlive_of_isWorking {phase : Phase ε} (h : phase.isWorking) : phase.isAlive := by
  cases phase with
  | spawned | parting | ended | crashed => cases h
  | _ => rfl

theorem Phase.isWorking_of_isSome_current? {phase : Phase ε} (h : phase.current?.isSome) :
    phase.isWorking := by
  obtain ⟨ticket, hc⟩ := Option.isSome_iff_exists.mp h
  exact Phase.isWorking_of_current? hc

theorem countP_eq_countP_range {α : Type} (f : α → Bool) {l : List α} {n : Nat}
    (h : l.length ≤ n) : l.countP f = (List.range n).countP fun i => l[i]?.any f := by
  induction l generalizing n with
  | nil => simp
  | cons a l ih =>
    obtain ⟨m, rfl⟩ : ∃ m, n = m + 1 := ⟨n - 1, by simp at h; omega⟩
    have hl : l.length ≤ m := Nat.le_of_succ_le_succ h
    rw [List.range_succ_eq_map, List.countP_cons, List.countP_cons, List.countP_map, ih hl]
    rfl

theorem toNat_add_decide_lt {m n : Nat} {a b : Bool} (h : m + a.toNat = n + b.toNat) :
    b.toNat + (decide (m < n)).toNat = a.toNat + (decide (n < m)).toNat := by
  rcases Nat.lt_trichotomy m n with hlt | rfl | hlt
  · rw [decide_eq_true hlt, decide_eq_false (Nat.lt_asymm hlt)]
    cases a <;> cases b <;> simp only [Bool.toNat_true, Bool.toNat_false] at h ⊢ <;> omega
  · rw [Nat.add_left_cancel h]
  · rw [decide_eq_true hlt, decide_eq_false (Nat.lt_asymm hlt)]
    cases a <;> cases b <;> simp only [Bool.toNat_true, Bool.toNat_false] at h ⊢ <;> omega

namespace Pool

variable {pool next after : Pool ε} {action : Action ε} {actions : List (Action ε)}
variable {id worker : Nat} {phase phase' : Phase ε} {signals : Bool} {woken : Option Nat}
variable {workers workers' : List (Phase ε)} {counter : Pool ε → Nat} {f : Phase ε → Bool}

def raises (counter : Pool ε → Nat) (worker : Nat) (before : Pool ε) (action : Action ε)
    (after : Pool ε) : Bool :=
  action.isBy worker && decide (counter before < counter after)

def lowers (counter : Pool ε → Nat) (worker : Nat) (before : Pool ε) (action : Action ε)
    (after : Pool ε) : Bool :=
  action.isBy worker && decide (counter after < counter before)

/-- Whether a worker raised a counter in a run and has yet to lower it. -/
def owes (counter : Pool ε → Nat) (pool : Pool ε) (actions : List (Action ε)) (worker : Nat) :
    Bool :=
  decide (pool.tally (lowers counter worker) actions < pool.tally (raises counter worker) actions)

/-- One if the worker is in a phase of a kind. -/
def mark (f : Phase ε → Bool) (worker : Nat) (pool : Pool ε) : Nat :=
  (pool.workers[worker]?.any f).toNat

/-- A counter that workers raise when they come into phases of a kind, and lower when they go out of
them. -/
structure Counts (counter : Pool ε → Nat) (f : Phase ε → Bool) : Prop where
  eq_countP : ∀ {pool}, Reachable pool → counter pool = pool.workers.countP f
  add : ∀ {pool id phase phase' signals after}, Reachable pool → pool.workers[id]? = some phase →
    WorkerStep pool id phase phase' signals after →
    ∀ workers, counter { after with workers } + (f phase).toNat = counter pool + (f phase').toNat
  spawned : f .spawned = false
  awake : f (.atGate .awake) = f (.atGate .asleep)

theorem counts_alive : Counts (ε := ε) Pool.alive Phase.isAlive where
  eq_countP hr := hr.counted.alive
  add hr hp ht _ := ht.alive_add fun ha => by
    rw [hr.counted.alive]
    exact List.countP_pos_iff.mpr ⟨_, List.mem_of_getElem? hp, ha⟩
  spawned := rfl
  awake := rfl

theorem counts_working : Counts (ε := ε) Pool.working Phase.isWorking where
  eq_countP hr := hr.counted.working
  add hr hp ht _ := ht.working_add fun hw => by
    rw [hr.counted.working]
    exact List.countP_pos_iff.mpr ⟨_, List.mem_of_getElem? hp, hw⟩
  spawned := rfl
  awake := rfl

/-! ## One worker -/

theorem Signal.any_getElem? (h : Signal signals workers woken workers')
    (hf : f (.atGate .awake) = f (.atGate .asleep)) (worker : Nat) :
    workers'[worker]?.any f = workers[worker]?.any f := by
  cases h with
  | silent | unheard => rfl
  | @wakes _ sleeper hp =>
    by_cases he : sleeper = worker
    · subst he
      rw [List.getElem?_set_self (List.getElem?_eq_some_iff.mp hp).1, hp]
      exact hf
    · rw [List.getElem?_set_ne he]

theorem any_getElem?_rouse (hf : f (.atGate .awake) = f (.atGate .asleep)) (worker : Nat) :
    (workers.map Phase.rouse)[worker]?.any f = workers[worker]?.any f := by
  rw [List.getElem?_map]
  cases workers[worker]? with
  | none => rfl
  | some phase =>
    cases phase with
    | atGate stance =>
      cases stance with
      | asleep => exact hf
      | arriving | awake => rfl
    | _ => rfl

theorem any_getElem?_concat (hf : f .spawned = false) (worker : Nat) :
    (workers ++ [.spawned])[worker]?.any f = workers[worker]?.any f := by
  rw [List.getElem?_append]
  split_ifs with hl
  · rfl
  · rw [List.getElem?_eq_none (Nat.le_of_not_lt hl), List.getElem?_singleton]
    split_ifs
    · exact hf
    · rfl

theorem not_raises_of_not_isBy (h : action.isBy worker = false) :
    raises counter worker pool action next = false := by
  rw [raises, h, Bool.false_and]

theorem not_lowers_of_not_isBy (h : action.isBy worker = false) :
    lowers counter worker pool action next = false := by
  rw [lowers, h, Bool.false_and]

/-- Nobody else moves a worker into phases of a kind or out of them. -/
theorem mark_of_not_isBy (hspawned : f .spawned = false)
    (hawake : f (.atGate .awake) = f (.atGate .asleep)) (hb : action.isBy worker = false)
    (hs : pool.step? action = some next) : mark f worker next = mark f worker pool := by
  apply congrArg Bool.toNat
  cases transition_of_step? hs with
  | owner ht =>
    cases ht with
    | spawn => exact any_getElem?_concat hspawned worker
    | broadcast => exact any_getElem?_rouse hawake worker
    | _ => rfl
  | worker hp ht hw =>
    rw [hw.any_getElem? hawake, List.getElem?_set_ne (by simpa [Action.isBy] using hb)]
  | stir hp => exact (Signal.wakes hp).any_getElem? hawake worker
  | caller hc ht hw => exact hw.any_getElem? hawake worker
  | _ => rfl

/-- A worker raises a counter exactly when it comes into phases of the kind, and lowers it exactly
when it goes out of them. -/
theorem Counts.mark_add (h : Counts counter f) (worker : Nat) (hr : Reachable pool)
    (hs : pool.step? action = some next) :
    mark f worker next + (lowers counter worker pool action next).toNat =
      mark f worker pool + (raises counter worker pool action next).toNat := by
  by_cases hb : action.isBy worker = true
  · cases transition_of_step? hs with
    | owner ht => cases ht <;> cases hb
    | @worker id phase phase' signals after _ workers hp ht hw =>
      obtain rfl : id = worker := beq_iff_eq.mp hb
      have hlt := (List.getElem?_eq_some_iff.mp hp).1
      have hadd := h.add hr hp ht workers
      have hbefore : mark f id pool = (f phase).toNat := by
        rw [mark, hp]
        rfl
      have hafter : mark f id { after with workers } = (f phase').toNat := by
        rw [mark, hw.any_getElem? h.awake, List.getElem?_set_self hlt]
        rfl
      rw [hbefore, hafter, raises, lowers, hb, Bool.true_and, Bool.true_and]
      exact toNat_add_decide_lt hadd
    | _ => cases hb
  · have hb : action.isBy worker = false := by simpa using hb
    rw [not_raises_of_not_isBy hb, not_lowers_of_not_isBy hb,
      mark_of_not_isBy h.spawned h.awake hb hs]

variable {size : Nat} {fragile : Bool}

/-- From the start on a worker raises a counter and lowers it in turn. -/
theorem Counts.tally_raises (h : Counts counter f) (worker : Nat) (hsize : 1 ≤ size)
    (hp : (start size fragile).play? actions = some pool) :
    (start size fragile).tally (raises counter worker) actions =
      (start size fragile).tally (lowers counter worker) actions +
        (pool.workers[worker]?.any f).toNat := by
  have hstep {pool next : Pool ε} {action : Action ε} (hr : Reachable pool)
      (hs : pool.step? action = some next) := h.mark_add worker hr hs
  have hrun := (Reachable.start fragile hsize).tally_add (mark f worker) hstep hp
  have hstart : mark f worker (start size fragile : Pool ε) = 0 := rfl
  rw [hstart, Nat.zero_add] at hrun
  rw [← hrun, mark, Nat.add_comm]

/-- A counter is the number of workers that have raised it and have yet to lower it. -/
theorem Counts.eq_countP_range (h : Counts counter f) (hsize : 1 ≤ size)
    (hp : (start size fragile).play? actions = some pool) :
    counter pool = (List.range pool.size).countP (owes counter (start size fragile) actions) := by
  have hr : Reachable pool := (Reachable.start fragile hsize).play? hp
  rw [h.eq_countP hr, countP_eq_countP_range f hr.length_le_size]
  refine List.countP_congr fun worker _ => ?_
  rw [owes, h.tally_raises worker hsize hp]
  cases pool.workers[worker]?.any f <;> simp

/-! ## All counters -/

/-- The counters of a pool after a run: each is the number of workers between raising and lowering
it, bodies are in the hands of those that work, and nobody lowers a counter below zero. -/
structure Balanced (first : Pool ε) (actions : List (Action ε)) (pool : Pool ε) : Prop where
  working : pool.working = (List.range pool.size).countP (owes Pool.working first actions)
  alive : pool.alive = (List.range pool.size).countP (owes Pool.alive first actions)
  inTurn : ∀ worker, ∀ counter ∈ [Pool.working, Pool.alive],
    first.tally (lowers counter worker) actions ≤ first.tally (raises counter worker) actions ∧
      first.tally (raises counter worker) actions ≤
        first.tally (lowers counter worker) actions + 1
  bodies_le : pool.workers.countP (·.current?.isSome) ≤ pool.working
  working_le : pool.working ≤ pool.alive
  alive_le : pool.alive ≤ pool.size
  rest : ∀ id woken next, pool.workers[id]? = some .resting →
    pool.step? (.worker id woken) = some next → next.working + 1 = pool.working
  leave : ∀ id woken next, pool.workers[id]? = some .leaving →
    pool.step? (.worker id woken) = some next → next.alive + 1 = pool.alive
  closed : pool.owner = .closed → pool.working = 0 ∧ pool.alive = 0

theorem Reachable.countP_current?_le (h : Reachable pool) :
    pool.workers.countP (·.current?.isSome) ≤ pool.working := by
  rw [h.counted.working]
  apply List.countP_mono_left
  intro phase _ hc
  exact Phase.isWorking_of_isSome_current? hc

theorem Reachable.working_le_alive (h : Reachable pool) : pool.working ≤ pool.alive := by
  rw [h.counted.working, h.counted.alive]
  apply List.countP_mono_left
  intro phase _ hw
  exact Phase.isAlive_of_isWorking hw

theorem Reachable.alive_le_size (h : Reachable pool) : pool.alive ≤ pool.size := by
  rw [h.counted.alive]
  exact Nat.le_trans List.countP_le_length h.length_le_size

theorem Counts.inTurn (h : Counts counter f) (worker : Nat) (hsize : 1 ≤ size)
    (hp : (start size fragile).play? actions = some pool) :
    (start size fragile).tally (lowers counter worker) actions ≤
        (start size fragile).tally (raises counter worker) actions ∧
      (start size fragile).tally (raises counter worker) actions ≤
        (start size fragile).tally (lowers counter worker) actions + 1 := by
  have hraises := h.tally_raises worker hsize hp
  have hle := Bool.toNat_le (pool.workers[worker]?.any f)
  constructor <;> omega

theorem Counts.succ_eq (h : Counts counter f) (hr : Reachable pool)
    (hp : pool.workers[id]? = some phase) (hs : pool.step? (.worker id woken) = some next)
    (hf : f phase = true)
    (hout : ∀ {phase' signals after}, WorkerStep pool id phase phase' signals after →
      f phase' = false) : counter next + 1 = counter pool := by
  cases transition_of_step? hs with
  | owner ht => cases ht
  | worker hfound ht hw =>
    cases hp.symm.trans hfound
    have hadd := h.add hr hp ht
    rw [hf, hout ht] at hadd
    exact hadd _

theorem balanced_of_play? (hsize : 1 ≤ size)
    (hp : (start size fragile).play? actions = some pool) :
    Balanced (start size fragile) actions pool := by
  have hr : Reachable pool := (Reachable.start fragile hsize).play? hp
  refine ⟨counts_working.eq_countP_range hsize hp, counts_alive.eq_countP_range hsize hp, ?_,
    hr.countP_current?_le, hr.working_le_alive, hr.alive_le_size, ?_, ?_, ?_⟩
  · intro worker counter hc
    rcases List.mem_pair.mp hc with rfl | rfl
    · exact counts_working.inTurn worker hsize hp
    · exact counts_alive.inTurn worker hsize hp
  · intro id woken next hphase hs
    exact counts_working.succ_eq hr hphase hs rfl fun ht => by cases ht; rfl
  · intro id woken next hphase hs
    exact counts_alive.succ_eq hr hphase hs rfl fun ht => by cases ht; rfl
  · intro hc
    exact ⟨hr.working_of_closed hc, hr.alive_of_closed hc⟩

/-- Two workers and a logger that panics when a worker stops. A task has panicked, the pool is given
up, and the idle worker is gone. -/
def brokenTask : List (Action Nat) :=
  List.flatten [[.spawn none, .spawn none, .owner],
    List.replicate 3 (.worker 0 none), List.replicate 3 (.worker 1 none), [.owner, .owner],
    List.replicate 2 (.worker 0 none), List.replicate 2 (.worker 1 none),
    [.call (.submit (.panic .other)), .caller 0 none, .caller 0 (some 0)],
    List.replicate 7 (.worker 0 none), [.destroy, .owner, .watch false],
    List.replicate 4 (.worker 1 none)]

theorem balanced_brokenTask :
    ∃ pool : Pool Nat, 1 ≤ 2 ∧ (start 2 true).play? brokenTask = some pool ∧
      pool.workers = [.resting, .crashed] ∧ pool.working = 1 ∧ pool.alive = 1 ∧
      Balanced (start 2 true) brokenTask pool := by
  have htest : ((start 2 true : Pool Nat).play? brokenTask).any (fun pool =>
      pool.workers = [.resting, .crashed] ∧ pool.working = 1 ∧ pool.alive = 1) = true := by
    decide +kernel
  obtain ⟨pool, hp, ht⟩ := (Option.any_eq_true _ _).mp htest
  obtain ⟨hw, hworking, halive⟩ := of_decide_eq_true ht
  exact ⟨pool, by decide, hp, hw, hworking, halive, balanced_of_play? (by decide) hp⟩

end Pool
end TreePool
