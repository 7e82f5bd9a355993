import TreePool.Proofs.Pool.Budget

/-! # How long a pool can go on

The threads of a pool, its owner among them, cannot go on for ever. Every state has an energy that
pays for all that workers and owner may still do by themselves: `energy_add_of_step?`. A worker that
leaves pays for one more round of the owner, who signals everybody once more. Only what happens from
outside adds to the energy, each time by a known cost: a submission, the start of the destruction, a
wait that times out, or a worker that wakes for no reason.
-/

namespace TreePool

variable {ε : Type}

def Phase.isGone : Phase ε → Bool
  | .parting | .ended | .crashed => true
  | _ => false

/-- The budget of a worker, and what it costs when the worker leaves and so wakes the owner. -/
def Phase.energy (size : Nat) (phase : Phase ε) : Nat :=
  phase.budget + bif phase.isGone then 0 else size + 9

def Caller.budget : Caller ε → Nat
  | .offering task | .pushing task => task.budget + 8
  | _ => 0

/-- What the owner of a pool may still do that has spawned so many workers. To watch costs as much
as the signal that arms the gate and wakes every worker. -/
def Owner.energy (size spawned : Nat) : Owner → Nat
  | .idle | .sleeping false | .closed | .unwound => 0
  | .announcing | .closing => 1
  | .gathering | .clearing => 2
  | .joining worker => size - worker + 3
  | .watching => size + 8
  | .sleeping true | .raising => size + 9
  | .lamenting => size + 10
  | .spawning => (size - spawned) * (size + 16) + size + 11

namespace Action

/-- Whether a thread of the pool takes this step by itself. -/
def isOwn : Action ε → Bool
  | .spawn _ | .owner | .watch _ | .worker _ _ => true
  | _ => false

def cost (size : Nat) : Action ε → Nat
  | .expire => size + 8
  | .stir _ => 1
  | .call (.submit body) => body.budget + 18
  | .destroy => size + 9
  | _ => 0

end Action

@[simp] theorem Caller.budget_notify (caller : Caller ε) :
    caller.notify.budget = caller.budget := by
  cases caller <;> rfl

theorem Owner.energy_rouse_le (owner : Owner) (size spawned : Nat) :
    owner.rouse.energy size spawned ≤ owner.energy size spawned + (size + 9) := by
  cases owner with
  | sleeping notified => cases notified <;> simp [rouse, energy]
  | _ => exact Nat.le_add_right _ _

theorem sum_energy_rouse_le (size : Nat) (workers : List (Phase ε)) :
    ((workers.map Phase.rouse).map (Phase.energy size)).sum ≤
      (workers.map (Phase.energy size)).sum + workers.length := by
  induction workers with
  | nil => exact Nat.le_refl _
  | cons phase workers ih =>
    have hrouse : phase.rouse.energy size ≤ phase.energy size + 1 := by
      cases phase with
      | atGate stance =>
        cases stance <;> simp only [Phase.rouse, Phase.energy, Phase.budget, Phase.isGone] <;> omega
      | _ => exact Nat.le_succ _
    simp only [List.map_cons, List.sum_cons, List.length_cons]
    omega

namespace Pool

variable {pool next after : Pool ε} {action : Action ε} {actions : List (Action ε)} {id : Nat}
variable {phase phase' : Phase ε} {signals : Bool} {woken : Option Nat}
variable {workers workers' : List (Phase ε)} {caller caller' : Caller ε}

/-- A bound on the number of steps that workers and owner can take if nothing happens from
outside. -/
def energy (pool : Pool ε) : Nat :=
  pool.queue.budget + (pool.workers.map (Phase.energy pool.size)).sum +
    (pool.callers.map Caller.budget).sum + pool.owner.energy pool.size pool.workers.length

theorem Signal.sum_energy_le (h : Signal signals workers woken workers') (size : Nat) :
    (workers'.map (Phase.energy size)).sum ≤
      (workers.map (Phase.energy size)).sum + signals.toNat := by
  cases h with
  | silent => exact Nat.le_refl _
  | unheard => exact Nat.le_add_right _ _
  | wakes hp =>
    have hset := sum_map_set_add (Phase.energy size) (b := .atGate .awake) hp
    simp only [Phase.energy, Phase.budget, Phase.isGone, cond_false, Bool.toNat_true] at hset ⊢
    omega

/-- Each step of a worker is paid for, also when it wakes the owner. -/
theorem WorkerStep.energy_lt (h : WorkerStep pool id phase phase' signals after)
    (size spawned : Nat) :
    after.queue.budget + phase'.energy size + signals.toNat +
        (after.callers.map Caller.budget).sum + after.owner.energy size spawned <
      pool.queue.budget + phase.energy size + (pool.callers.map Caller.budget).sum +
        pool.owner.energy size spawned := by
  have hstep := h.budget_lt
  cases h with
  | leave =>
    have hrouse := pool.owner.energy_rouse_le size spawned
    simp only [Phase.energy, Phase.isGone, Phase.budget, cond_false, cond_true,
      Bool.toNat_false] at hstep ⊢
    omega
  | rest =>
    have hcallers : ((if pool.working - 1 = 0 then pool.callers.map Caller.notify
        else pool.callers).map Caller.budget).sum = (pool.callers.map Caller.budget).sum := by
      split_ifs
      · simp [Function.comp_def]
      · rfl
    simp only [Phase.energy, Phase.isGone, cond_false, hcallers] at hstep ⊢
    omega
  | part =>
    have hover :
        (if pool.fragile then Phase.crashed else Phase.ended : Phase ε).energy size = 0 := by
      split_ifs <;> rfl
    rw [hover]
    simp only [Phase.energy, Phase.isGone, Phase.budget, cond_true, Bool.toNat_false]
    omega
  | _ =>
    simp only [Phase.energy, Phase.isGone, cond_false] at hstep ⊢
    omega

theorem CallerStep.budget_le (h : CallerStep pool caller caller' signals after) :
    after.queue.budget + caller'.budget + signals.toNat ≤ pool.queue.budget + caller.budget := by
  cases h with
  | push =>
    simp only [GatedQueue.budget, GatedQueue.tasks_push, GatedQueue.armed_push, Caller.budget,
      List.map_append, List.map_cons, List.map_nil, List.sum_append, List.sum_cons, List.sum_nil,
      Bool.toNat_true]
    omega
  | _ =>
    simp only [Caller.budget, Bool.toNat_false]
    omega

theorem OwnerStep.energy_add (h : OwnerStep pool action next)
    (hl : pool.workers.length ≤ pool.size) :
    next.energy + action.isOwn.toNat ≤ pool.energy + action.cost pool.size := by
  cases h with
  | spawn ho hlt =>
    obtain ⟨left, hleft⟩ := Nat.exists_eq_add_of_lt hlt
    have hbefore : pool.size - pool.workers.length = left + 1 := by omega
    have hafter : pool.size - (pool.workers.length + 1) = left := by omega
    simp only [energy, ho, Owner.energy, List.map_append, List.map_cons, List.map_nil,
      List.sum_append, List.sum_cons, List.sum_nil, List.length_append, List.length_cons,
      List.length_nil, Phase.energy, Phase.budget, Phase.isGone, Action.isOwn, Action.cost,
      Bool.toNat_true, hbefore, Nat.zero_add, hafter, Nat.add_mul, cond_false]
    omega
  | broadcast ho =>
    have hrouse := sum_energy_rouse_le pool.size pool.workers
    have harmed := Bool.toNat_le pool.queue.gate.armed
    simp only [energy, ho, Owner.energy, GatedQueue.budget, GatedQueue.tasks_post,
      GatedQueue.armed_post, Action.isOwn, Action.cost, Bool.toNat_true]
    omega
  | join ho hp | joinCrashed ho hp =>
    have hlt := (List.getElem?_eq_some_iff.mp hp).1
    simp only [energy, ho, Owner.energy, Action.isOwn, Action.cost, Bool.toNat_true]
    omega
  | clear ho =>
    simp only [energy, ho, Owner.energy, GatedQueue.budget, GatedQueue.tasks_clear,
      GatedQueue.armed_clear, Action.isOwn, Action.cost, Bool.toNat_true, Bool.toNat_false,
      List.map_nil, List.sum_nil]
    omega
  | unwind ho =>
    simp only [energy, ho, Owner.energy, GatedQueue.budget, Action.isOwn, Action.cost,
      Bool.toNat_false, List.map_nil, List.sum_nil]
    omega
  | giveUpAgain => exact Nat.le_add_right _ _
  | @expire notified ho =>
    cases notified <;>
      simp only [energy, ho, Owner.energy, Action.isOwn, Action.cost, Bool.toNat_false] <;> omega
  | balk ho | gather ho | gathered ho | announce ho | lament ho | giveUp ho | raise ho
  | deserted ho | wake ho | joinedAll ho | close ho =>
    simp only [energy, ho, Owner.energy, Action.isOwn, Action.cost, Bool.toNat_true,
      Bool.toNat_false]
    omega

/-- What workers and owner do by themselves is paid for; anything else adds its cost at most. -/
theorem Reachable.energy_add_of_step? (h : Reachable pool) (hs : pool.step? action = some next) :
    next.energy + action.isOwn.toNat ≤ pool.energy + action.cost pool.size := by
  cases transition_of_step? hs with
  | owner ht => exact ht.energy_add h.length_le_size
  | @worker id phase phase' signals after _ workers hp ht hw =>
    have hstep := ht.energy_lt pool.size pool.workers.length
    have hset := sum_map_set_add (Phase.energy pool.size) (b := phase') hp
    have hsignal := hw.sum_energy_le pool.size
    have hlength : workers.length = pool.workers.length := hw.length_eq.trans List.length_set
    change after.queue.budget + (workers.map (Phase.energy after.size)).sum +
        (after.callers.map Caller.budget).sum + after.owner.energy after.size workers.length + 1 ≤
      pool.queue.budget + (pool.workers.map (Phase.energy pool.size)).sum +
        (pool.callers.map Caller.budget).sum + pool.owner.energy pool.size pool.workers.length + 0
    rw [ht.size_eq, hlength]
    omega
  | stir hp =>
    have hset := sum_map_set_add (Phase.energy pool.size) (b := .atGate .awake) hp
    simp only [Phase.energy, Phase.budget, Phase.isGone, cond_false] at hset
    simp only [energy, Action.isOwn, Action.cost, List.length_set, Bool.toNat_false]
    omega
  | callWait => simp [energy, Action.isOwn, Action.cost, Caller.budget]
  | callSubmit =>
    simp only [energy, Action.isOwn, Action.cost, Caller.budget, Task.budget, List.map_append,
      List.map_cons, List.map_nil, List.sum_append, List.sum_cons, List.sum_nil, Bool.toNat_false]
    omega
  | @caller id caller caller' signals after _ workers hc ht hw =>
    have hstep := ht.budget_le
    have hset := sum_map_set_add Caller.budget (b := caller') hc
    have hsignal := hw.sum_energy_le pool.size
    have hsize : after.size = pool.size := by cases ht <;> rfl
    change after.queue.budget + (workers.map (Phase.energy after.size)).sum +
        ((pool.callers.set id caller').map Caller.budget).sum +
          after.owner.energy after.size workers.length + 0 ≤
      pool.queue.budget + (pool.workers.map (Phase.energy pool.size)).sum +
        (pool.callers.map Caller.budget).sum + pool.owner.energy pool.size pool.workers.length + 0
    rw [hsize, hw.length_eq, ht.owner_eq]
    omega
  | stirCaller hc =>
    have hset := sum_map_set_add Caller.budget (b := .sleeping true) hc
    simp only [Caller.budget] at hset
    simp only [energy, Action.isOwn, Action.cost, Bool.toNat_false]
    omega
  | fail => exact Nat.le_refl _

/-- Whatever happens in a run, workers and owner take no more steps by themselves than the energy
at the start and the costs of all interventions allow. -/
theorem Reachable.energy_add_of_play? (h : Reachable pool) (hp : pool.play? actions = some next) :
    next.energy + actions.countP Action.isOwn ≤
      pool.energy + (actions.map (Action.cost pool.size)).sum := by
  induction actions generalizing pool with
  | nil =>
    cases Option.some.inj hp
    exact Nat.le_refl _
  | cons action actions ih =>
    obtain ⟨between, hs, hrest⟩ := after?_cons_eq_some_iff.mp hp
    have hfirst := h.energy_add_of_step? hs
    have hlater := ih (h.step action hs) hrest
    rw [size_eq_of_step? hs] at hlater
    rw [List.countP_cons, List.map_cons, List.sum_cons]
    cases ho : action.isOwn <;> simp only [ho, Bool.toNat_true, Bool.toNat_false] at hfirst ⊢ <;>
      simp <;> omega

theorem Reachable.countP_isOwn_le (h : Reachable pool) (hp : pool.play? actions = some next) :
    actions.countP Action.isOwn ≤ pool.energy + (actions.map (Action.cost pool.size)).sum :=
  Nat.le_trans (Nat.le_add_left _ _) (h.energy_add_of_play? hp)

end Pool
end TreePool
