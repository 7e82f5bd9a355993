import TreePool.Proofs.Pool.ActsOnly
import TreePool.Proofs.Pool.Vigil
import TreePool.Workshop.Schedule
import Mathlib.Tactic.Linarith
import Mathlib.Tactic.Ring

/-! # Pools at rest

When threads take their steps one at a time, and no more than one call is open, each step brings
the pool nearer to a state in which nobody can take another: `turns_lt_of_step?`. The effort is
enough for that. A pool at rest is in use with all calls answered, or closed.
-/

namespace TreePool

variable {ε : Type}

/-- The number of steps that a caller may take before it has to be notified. -/
def Caller.turns : Caller ε → Nat
  | .offering _ => 2
  | .sleeping true => 2
  | .pushing _ => 1
  | .checking => 1
  | _ => 0

def Action.isTurn : Action ε → Bool
  | .caller _ _ => true
  | action => action.isOwn

theorem Caller.turns_notify_le (caller : Caller ε) :
    caller.notify.turns ≤ caller.turns + 2 * (!caller.isFinished).toNat := by
  cases caller with
  | sleeping notified => cases notified <;> simp [notify, turns, isFinished]
  | _ => exact Nat.le_add_right _ _

theorem sum_turns_notify_le (callers : List (Caller ε)) :
    ((callers.map Caller.notify).map Caller.turns).sum ≤
      (callers.map Caller.turns).sum + 2 * callers.countP fun caller => !caller.isFinished := by
  induction callers with
  | nil => exact Nat.le_refl _
  | cons caller callers ih =>
    have hfirst := caller.turns_notify_le
    rw [List.countP_cons, List.map_cons, List.map_cons, List.map_cons, List.sum_cons,
      List.sum_cons]
    cases hf : caller.isFinished <;> simp only [hf, Bool.not_true, Bool.not_false, Bool.toNat_true,
      Bool.toNat_false, Bool.false_eq_true, if_true, if_false] at hfirst ⊢ <;> omega

theorem mul_sum_map_le {α : Type} {l : List α} {f g : α → Nat} {a b c : Nat}
    (h : ∀ x ∈ l, a * f x ≤ b * g x + c) :
    a * (l.map f).sum ≤ b * (l.map g).sum + c * l.length := by
  induction l with
  | nil => simp
  | cons x l ih =>
    have hfirst := h x List.mem_cons_self
    have hrest := ih fun y hy => h y (List.mem_cons_of_mem x hy)
    simp only [List.map_cons, List.sum_cons, List.length_cons]
    linarith

theorem total_eq_sum (numbers : List Nat) : total numbers = numbers.sum :=
  (List.sum_eq_foldl).symm

/-! ## Effort -/

theorem Body.one_le_size (body : Body ε) : 1 ≤ body.size := by
  cases body <;> simp only [size] <;> omega

theorem Body.budget_add_le (body : Body ε) : body.budget + 19 ≤ 20 * body.size := by
  induction body with
  | done | panic => exact Nat.le_refl 20
  | act effect next ih => simp only [budget, size]; omega
  | submit task next iht ihn => simp only [budget, size]; omega

def Phase.work : Phase ε → Nat
  | .running _ body => body.size
  | .pushing _ task next => task.body.size + next.size
  | _ => 1

theorem Phase.budget_le (phase : Phase ε) : 3 * phase.budget ≤ 60 * phase.work := by
  cases phase with
  | running ticket body =>
    have := body.budget_add_le
    simp only [budget, work]
    omega
  | pushing ticket task next =>
    have := task.body.budget_add_le
    have := next.budget_add_le
    simp only [budget, work, Task.budget]
    omega
  | atGate stance => cases stance <;> simp [budget, work]
  | _ => simp only [budget, work]; omega

theorem Phase.energy_le (size : Nat) (phase : Phase ε) :
    3 * phase.energy size ≤ 60 * phase.work + 3 * (size + 9) := by
  have hbudget := phase.budget_le
  unfold energy
  cases phase.isGone <;> simp only [cond_true, cond_false] <;> omega

def Caller.work : Caller ε → Nat
  | .offering task => task.body.size
  | .pushing task => task.body.size
  | _ => 1

theorem Caller.budget_le (caller : Caller ε) : 3 * caller.budget ≤ 60 * caller.work := by
  cases caller with
  | offering task | pushing task =>
    have := task.body.budget_add_le
    simp only [budget, work, Task.budget]
    omega
  | _ => exact Nat.zero_le _

theorem Caller.turns_le (caller : Caller ε) : caller.turns ≤ 2 * caller.work := by
  cases caller with
  | offering task | pushing task =>
    have := task.body.one_le_size
    simp only [turns, work]
    omega
  | sleeping notified => cases notified <;> simp [turns, work]
  | _ => simp [turns, work]

theorem Owner.energy_le (owner : Owner) (size spawned : Nat) :
    owner.energy size spawned ≤ size * (size + 16) + size + 11 := by
  cases owner with
  | spawning =>
    have := Nat.mul_le_mul_right (size + 16) (Nat.sub_le size spawned)
    simp only [energy]
    omega
  | sleeping notified => cases notified <;> simp only [energy] <;> omega
  | _ => simp only [energy]; omega

namespace Pool

variable {pool next after : Pool ε} {action : Action ε} {id : Nat} {phase phase' : Phase ε}
variable {signals : Bool} {caller caller' : Caller ε}

/-- A bound on the number of steps that the threads of a pool can take, one at a time, if at most
one call is open. A worker that stops working may send a caller to look again. -/
def turns (pool : Pool ε) : Nat := 3 * pool.energy + (pool.callers.map Caller.turns).sum

def unanswered (pool : Pool ε) : Nat := pool.callers.countP fun caller => !caller.isFinished

theorem effort_eq (pool : Pool ε) :
    pool.effort = 64 * ((pool.queue.tasks.map (·.body.size)).sum +
      (pool.workers.map Phase.work).sum + (pool.callers.map Caller.work).sum +
        (pool.size + 2) * (pool.size + 2)) := by
  unfold effort
  simp only [total_eq_sum]
  rfl

theorem Reachable.turns_le_effort (h : Reachable pool) : pool.turns ≤ pool.effort := by
  have hqueue : 3 * (pool.queue.tasks.map Task.budget).sum ≤
      60 * (pool.queue.tasks.map (·.body.size)).sum + 0 * pool.queue.tasks.length := by
    apply mul_sum_map_le
    intro task _
    have := task.body.budget_add_le
    simp only [Task.budget]
    omega
  have hworkers := mul_sum_map_le fun phase (_ : phase ∈ pool.workers) =>
    phase.energy_le pool.size
  have hcallers : 3 * (pool.callers.map Caller.budget).sum ≤
      60 * (pool.callers.map Caller.work).sum + 0 * pool.callers.length :=
    mul_sum_map_le fun caller _ => caller.budget_le
  have hturns : 1 * (pool.callers.map Caller.turns).sum ≤
      2 * (pool.callers.map Caller.work).sum + 0 * pool.callers.length :=
    mul_sum_map_le fun caller _ => by simpa using caller.turns_le
  have howner := pool.owner.energy_le pool.size pool.workers.length
  have harmed := Bool.toNat_le pool.queue.gate.armed
  have hlength := Nat.mul_le_mul_left (3 * (pool.size + 9)) h.length_le_size
  -- All but the square of the size is linear.
  have hsquare : (pool.size + 2) * (pool.size + 2) = pool.size * pool.size + 4 * pool.size + 4 := by
    ring
  have howner' : pool.size * (pool.size + 16) = pool.size * pool.size + 16 * pool.size := by ring
  have hlength' : 3 * (pool.size + 9) * pool.size =
      3 * (pool.size * pool.size) + 27 * pool.size := by
    ring
  rw [effort_eq, turns, energy, GatedQueue.budget]
  omega

/-! ## Each step counts -/

theorem WorkerStep.sum_turns_le (h : WorkerStep pool id phase phase' signals after) :
    (after.callers.map Caller.turns).sum ≤
      (pool.callers.map Caller.turns).sum + 2 * pool.unanswered := by
  cases h with
  | rest =>
    dsimp only
    split_ifs
    · exact sum_turns_notify_le pool.callers
    · exact Nat.le_add_right _ _
  | _ => exact Nat.le_add_right _ _

theorem CallerStep.turns_lt (h : CallerStep pool caller caller' signals after) :
    caller'.turns < caller.turns := by
  cases h <;> simp [Caller.turns]

theorem CallerStep.not_isFinished (h : CallerStep pool caller caller' signals after) :
    caller.isFinished = false := by
  cases h <;> rfl

/-- Each turn of a thread brings the pool nearer to its rest. -/
theorem Reachable.turns_lt_of_step? (h : Reachable pool) (hu : pool.unanswered ≤ 1)
    (ha : action.isTurn) (hs : pool.step? action = some next) : next.turns < pool.turns := by
  have henergy := h.energy_add_of_step? hs
  have hcost : action.cost pool.size = 0 := by
    cases action <;> first | rfl | cases ha
  rw [hcost, Nat.add_zero] at henergy
  unfold turns
  cases transition_of_step? hs with
  | owner ht =>
    have hcallers : next.callers = pool.callers := by cases ht <;> rfl
    have hown : action.isOwn := by
      cases ht <;> first | rfl | cases ha
    rw [hown, Bool.toNat_true] at henergy
    rw [hcallers]
    omega
  | worker hp ht hw =>
    have hsum := ht.sum_turns_le
    simp only [Action.isOwn, Bool.toNat_true] at henergy
    dsimp only
    omega
  | @caller id caller caller' _ _ _ _ hc ht =>
    have hset := sum_map_set_add Caller.turns (b := caller') hc
    have hlt := ht.turns_lt
    simp only [Action.isOwn, Bool.toNat_false, Nat.add_zero] at henergy
    dsimp only
    omega
  | stir | callWait | callSubmit | stirCaller | fail => cases ha

theorem unanswered_le_of_step? (hs : pool.step? action = some next)
    (ha : action.isInternal ∨ action = .fail) : next.unanswered ≤ pool.unanswered := by
  have hset {id : Nat} {caller caller' : Caller ε} (hc : pool.callers[id]? = some caller)
      (hf : caller.isFinished = false) :
      (pool.callers.set id caller').countP (fun caller => !caller.isFinished) ≤
        pool.callers.countP fun caller => !caller.isFinished := by
    have hcount := countP_set_add (fun caller : Caller ε => !caller.isFinished) (b := caller') hc
    have hle := Bool.toNat_le (!caller'.isFinished)
    rw [hf, Bool.not_false, Bool.toNat_true] at hcount
    omega
  unfold unanswered
  cases transition_of_step? hs with
  | owner ht => cases ht <;> exact Nat.le_refl _
  | worker hp ht =>
    cases ht with
    | rest =>
      dsimp only
      split_ifs
      · rw [List.countP_map]
        have hnotify : (fun caller : Caller ε => !caller.isFinished) ∘ Caller.notify =
            fun caller => !caller.isFinished := by
          funext caller
          cases caller <;> rfl
        exact Nat.le_of_eq (congrArg (List.countP · pool.callers) hnotify)
      · exact Nat.le_refl _
    | _ => exact Nat.le_refl _
  | caller hc ht => exact hset hc ht.not_isFinished
  | stirCaller hc => exact hset hc rfl
  | callWait | callSubmit => simp [Action.isInternal] at ha
  | stir | fail => exact Nat.le_refl _

/-! ## Rest -/

def AtRest (pool : Pool ε) : Prop := ∀ action ∈ pool.candidates, pool.step? action = none

theorem isTurn_of_mem_candidates (h : action ∈ pool.candidates) :
    action.isTurn ∧ action.isInternal := by
  simp only [candidates, List.mem_append, List.mem_flatMap, List.mem_map, List.mem_cons,
    List.not_mem_nil, or_false] at h
  rcases h with (⟨id, -, woken, -, rfl⟩ | ⟨id, -, woken, -, rfl⟩) | rfl | rfl <;> exact ⟨rfl, rfl⟩

section

variable {woken : Option Nat}
variable (hw : woken = none ∨ woken = pool.workers.findIdx? Phase.isAsleep)

include hw

theorem mem_wakings :
    woken ∈ none :: ((pool.workers.findIdx? Phase.isAsleep).toList.map some) := by
  rcases hw with rfl | rfl
  · exact List.mem_cons_self
  · cases pool.workers.findIdx? Phase.isAsleep <;> simp

theorem worker_mem_candidates (hp : pool.workers[id]? = some phase) :
    .worker id woken ∈ pool.candidates := by
  have hid := List.mem_range.mpr (List.getElem?_eq_some_iff.mp hp).1
  refine List.mem_append_left _ (List.mem_append_left _ ?_)
  exact List.mem_flatMap.mpr ⟨id, hid, List.mem_map_of_mem (mem_wakings hw)⟩

theorem caller_mem_candidates (hc : pool.callers[id]? = some caller) :
    .caller id woken ∈ pool.candidates := by
  have hid := List.mem_range.mpr (List.getElem?_eq_some_iff.mp hc).1
  refine List.mem_append_left _ (List.mem_append_right _ ?_)
  exact List.mem_flatMap.mpr ⟨id, hid, List.mem_map_of_mem (mem_wakings hw)⟩

end

theorem findIdx?_set {α : Type} {f : α → Bool} {l : List α} {i : Nat} {a b : α}
    (h : l[i]? = some a) (hf : f b = f a) : (l.set i b).findIdx? f = l.findIdx? f := by
  have hmap (l : List α) : l.findIdx? f = (l.map f).findIdx? id := by
    rw [List.findIdx?_map]
    rfl
  obtain ⟨hlt, rfl⟩ := List.getElem?_eq_some_iff.mp h
  have hlt' : i < (l.map f).length := by rwa [List.length_map]
  have hget : f l[i] = (l.map f)[i] := (List.getElem_map f).symm
  rw [hmap, hmap l, List.map_set, hf, hget, List.set_getElem_self]

theorem WorkerStep.isAsleep_eq_of_signals (h : WorkerStep pool id phase phase' signals after)
    (hs : signals = true) : phase'.isAsleep = phase.isAsleep := by
  cases h with
  | pull | push => rfl
  | _ => cases hs

namespace AtRest

variable (h : pool.AtRest)

include h

theorem not_moves : ¬ pool.Moves := by
  rintro ⟨id, woken, next, hs⟩
  cases transition_of_step? hs with
  | owner ht => cases ht
  | @worker _ phase phase' signals after _ workers hp ht hw =>
    obtain ⟨woken', hwoken, workers', hw'⟩ : ∃ woken',
        (woken' = none ∨ woken' = pool.workers.findIdx? Phase.isAsleep) ∧
          ∃ workers', Signal signals (pool.workers.set id phase') woken' workers' := by
      cases signals with
      | false => exact ⟨none, .inl rfl, _, .silent⟩
      | true =>
        refine ⟨_, .inr rfl, ?_⟩
        rw [← findIdx?_set hp (ht.isAsleep_eq_of_signals rfl)]
        exact Signal.exists_of_findIdx? _
    have hnone := h _ (worker_mem_candidates hwoken hp)
    rw [step?_eq_some_iff.mpr (.worker hp ht hw')] at hnone
    cases hnone

theorem not_acts (hl : pool.workers.length = pool.size) : ¬ pool.Acts := by
  rintro ⟨action, next, ha, hs⟩
  cases action with
  | spawn failure =>
    have hnot : ¬ (pool.owner = .spawning ∧ pool.workers.length < pool.size) := by
      rw [hl]
      exact fun hlt => Nat.lt_irrefl _ hlt.2
    simp only [step?, spawn?, if_neg hnot] at hs
    cases hs
  | owner =>
    have hnone := h .owner (by simp [candidates])
    rw [hnone] at hs
    cases hs
  | watch late =>
    have hnone := h (.watch false) (by simp [candidates])
    by_cases ho : pool.owner = .watching
    · by_cases hz : pool.alive = 0 <;> simp [step?, watch?, ho, hz] at hnone
    · simp [step?, watch?, ho] at hs
  | worker id woken => exact h.not_moves ⟨id, woken, next, hs⟩
  | _ => cases ha

/-- Every call to a pool in use has been answered, unless a worker was lost. -/
theorem isQuiet (hr : pool.Reachable) (hl : pool.lost = 0) : pool.isQuiet = true := by
  apply List.all_eq_true.mpr
  intro caller hm
  obtain ⟨id, hc⟩ := List.mem_iff_getElem?.mp hm
  by_contra hf
  obtain ⟨caller', signals, after, ht⟩ : ∃ caller' signals after,
      CallerStep pool caller caller' signals after := by
    cases caller with
    | offering task =>
      cases hs : pool.shutdown with
      | false => exact ⟨_, _, _, .allow hs⟩
      | true => exact ⟨_, _, _, .refuse hs⟩
    | pushing task => exact ⟨_, _, _, .push⟩
    | checking =>
      cases hi : pool.isIdle with
      | false => exact ⟨_, _, _, .park hi⟩
      | true => exact ⟨_, _, _, .drain hi⟩
    | sleeping notified =>
      cases notified with
      | false =>
        rcases hr.moves_of_awaits (hr.awaits_of_sleeping hc) with hmoves | hlost
        · exact absurd hmoves h.not_moves
        · exact absurd hl hlost.ne'
      | true => exact ⟨_, _, _, .recheck⟩
    | finished reply => exact absurd rfl hf
  obtain ⟨woken, hwoken, workers, hw⟩ : ∃ woken,
      (woken = none ∨ woken = pool.workers.findIdx? Phase.isAsleep) ∧
        ∃ workers, Signal signals pool.workers woken workers := by
    cases signals with
    | false => exact ⟨none, .inl rfl, _, .silent⟩
    | true => exact ⟨_, .inr rfl, Signal.exists_of_findIdx? _⟩
  have hnone := h _ (caller_mem_candidates hwoken hc)
  rw [step?_eq_some_iff.mpr (.caller hc ht hw)] at hnone
  cases hnone

end AtRest

end Pool
end TreePool
