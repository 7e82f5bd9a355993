import TreePool.Proofs.Pool.Drain
import TreePool.Proofs.Pool.Evacuation
import TreePool.Proofs.Pool.Load

/-! # Pools whose tasks act and return

A body that only acts, by effects of a kind, does not panic and submits nothing. A pool that is
given such bodies only has no others, loses no worker, and its outcome is marked by nobody but by
what its bodies do outside: `Pool.ActsOnly.step`.
-/

namespace TreePool

variable {ε : Type} {p : ε → Bool}

/-- Whether a body only acts, by effects of a kind, and returns. -/
def Body.actsOnly (p : ε → Bool) : Body ε → Bool
  | .done => true
  | .act effect next => p effect && next.actsOnly p
  | .panic _ => false
  | .submit _ _ => false

def Phase.actsOnly (p : ε → Bool) : Phase ε → Bool
  | .running _ body => body.actsOnly p
  | .pushing _ _ _ => false
  | .caught _ _ => false
  | .failing _ _ => false
  | .lost => false
  | _ => true

def Caller.actsOnly (p : ε → Bool) : Caller ε → Bool
  | .offering task => task.body.actsOnly p
  | .pushing task => task.body.actsOnly p
  | _ => true

def Action.actsOnly (p : ε → Bool) : Action ε → Bool
  | .call (.submit body) => body.actsOnly p
  | .fail => false
  | _ => true

/-- Whether the threads of a pool take this step by themselves, or time does. The destructors of
tasks that only act do not panic. -/
def Action.isInternal : Action ε → Bool
  | .call _ => false
  | .destroy => false
  | .fail => false
  | .unwind => false
  | _ => true

theorem Action.actsOnly_of_isInternal {action : Action ε} (h : action.isInternal) :
    action.actsOnly p := by
  cases action with
  | call | fail => cases h
  | _ => rfl

@[simp] theorem Caller.actsOnly_notify (caller : Caller ε) :
    caller.notify.actsOnly p = caller.actsOnly p := by
  cases caller <;> rfl

@[simp] theorem Phase.actsOnly_rouse (phase : Phase ε) :
    phase.rouse.actsOnly p = phase.actsOnly p := by
  cases phase with
  | atGate stance => cases stance <;> rfl
  | _ => rfl

theorem Body.load_of_actsOnly {w : ε → Nat} {body : Body ε} (h : body.actsOnly fun _ => false) :
    body.load w = 0 := by
  cases body with
  | act | submit => cases h
  | _ => rfl

theorem Body.actsOnly_of_load {w : ε → Nat} {q : ε → Bool} (hw : ∀ effect, p effect → 0 < w effect)
    {body : Body ε} (h : body.actsOnly p) (hl : body.load w = 0) : body.actsOnly q := by
  cases body with
  | done => rfl
  | act effect next =>
    have hpos := hw effect (Bool.and_eq_true_iff.mp h).1
    rw [Body.load] at hl
    omega
  | panic | submit => cases h

namespace Pool

variable {pool next after : Pool ε} {action : Action ε} {actions : List (Action ε)} {id : Nat}
variable {phase phase' : Phase ε} {signals : Bool} {caller caller' : Caller ε}

structure ActsOnly (p : ε → Bool) (pool : Pool ε) : Prop where
  queue : ∀ task ∈ pool.queue.tasks, task.body.actsOnly p
  workers : ∀ phase ∈ pool.workers, phase.actsOnly p
  callers : ∀ caller ∈ pool.callers, caller.actsOnly p

theorem actsOnly_start (size : Nat) (fragile : Bool) :
    (start size fragile : Pool ε).ActsOnly p := by
  refine ⟨?_, ?_, ?_⟩
  · intro task hm
    cases hm
  · intro phase hm
    cases hm
  · intro caller hm
    cases hm

theorem ActsOnly.lost_eq_zero (h : pool.ActsOnly p) : pool.lost = 0 := by
  apply lost_eq_zero_iff.mpr
  intro phase hm
  have honly := h.workers phase hm
  cases phase with
  | lost => cases honly
  | _ => rfl

theorem WorkerStep.actsOnly (h : WorkerStep pool id phase phase' signals after)
    (ht : pool.ActsOnly p) (hp : phase.actsOnly p) : phase'.actsOnly p ∧ after.ActsOnly p := by
  cases h with
  | miss => exact ⟨rfl, ht⟩
  | @pull task rest hq =>
    have hqueue (other : Task ε) (hm : other ∈ task :: rest) : other.body.actsOnly p :=
      ht.queue other (hq ▸ hm)
    refine ⟨hqueue task List.mem_cons_self, ?_, ht.workers, ht.callers⟩
    intro other hm
    rw [GatedQueue.tasks_pull hq] at hm
    exact hqueue other (List.mem_cons_of_mem _ hm)
  | act => exact ⟨(Bool.and_eq_true_iff.mp hp).2, ht⟩
  | rest =>
    refine ⟨rfl, ht.queue, ht.workers, ?_⟩
    intro caller hm
    dsimp only at hm
    split_ifs at hm
    · obtain ⟨old, hold, rfl⟩ := List.mem_map.mp hm
      rw [Caller.actsOnly_notify]
      exact ht.callers old hold
    · exact ht.callers caller hm
  | part => exact ⟨by cases pool.fragile <;> rfl, ht.queue, ht.workers, ht.callers⟩
  | panic | refuse | offer | push | logPanic | markPanic | perish => cases hp
  | _ => exact ⟨rfl, ht.queue, ht.workers, ht.callers⟩

theorem CallerStep.actsOnly (h : CallerStep pool caller caller' signals after)
    (ht : pool.ActsOnly p) (hc : caller.actsOnly p) : caller'.actsOnly p ∧ after.ActsOnly p := by
  cases h with
  | push =>
    refine ⟨rfl, ?_, ht.workers, ht.callers⟩
    intro task hm
    rcases List.mem_append.mp hm with hm | hm
    · exact ht.queue task hm
    · exact List.mem_singleton.mp hm ▸ hc
  | refuse => exact ⟨rfl, ht.queue, ht.workers, ht.callers⟩
  | allow => exact ⟨hc, ht⟩
  | drain | park | recheck => exact ⟨rfl, ht⟩

theorem ActsOnly.concat_caller (h : pool.ActsOnly p) (hc : caller.actsOnly p) :
    ∀ other ∈ pool.callers ++ [caller], other.actsOnly p := by
  intro other hm
  rcases List.mem_append.mp hm with hm | hm
  · exact h.callers other hm
  · exact List.mem_singleton.mp hm ▸ hc

theorem ActsOnly.set_caller (h : pool.ActsOnly p) (hc : caller.actsOnly p) :
    ∀ other ∈ pool.callers.set id caller, other.actsOnly p := by
  intro other hm
  rcases List.mem_or_eq_of_mem_set hm with hm | rfl
  · exact h.callers other hm
  · exact hc

theorem ActsOnly.step (h : pool.ActsOnly p) (ha : action.actsOnly p)
    (hs : pool.step? action = some next) : next.ActsOnly p := by
  cases transition_of_step? hs with
  | owner ht =>
    cases ht with
    | spawn =>
      refine ⟨h.queue, ?_, h.callers⟩
      intro phase hm
      rcases List.mem_append.mp hm with hm | hm
      · exact h.workers phase hm
      · exact List.mem_singleton.mp hm ▸ rfl
    | broadcast =>
      refine ⟨h.queue, ?_, h.callers⟩
      intro phase hm
      obtain ⟨old, hold, rfl⟩ := List.mem_map.mp hm
      rw [Phase.actsOnly_rouse]
      exact h.workers old hold
    | clear | unwind =>
      refine ⟨?_, h.workers, h.callers⟩
      intro task hm
      cases hm
    | _ => exact ⟨h.queue, h.workers, h.callers⟩
  | worker hp ht hw =>
    obtain ⟨hphase, hafter⟩ := ht.actsOnly h (h.workers _ (List.mem_of_getElem? hp))
    exact ⟨hafter.queue, hw.forall_mem_of_set (fun _ => rfl) h.workers hphase, hafter.callers⟩
  | stir hp =>
    exact ⟨h.queue, (Signal.wakes hp).forall_mem (fun _ => rfl) h.workers, h.callers⟩
  | callWait => exact ⟨h.queue, h.workers, h.concat_caller rfl⟩
  | callSubmit => exact ⟨h.queue, h.workers, h.concat_caller ha⟩
  | caller hc ht hw =>
    obtain ⟨hcaller, hafter⟩ := ht.actsOnly h (h.callers _ (List.mem_of_getElem? hc))
    exact ⟨hafter.queue, hw.forall_mem (fun _ => rfl) h.workers, h.set_caller hcaller⟩
  | stirCaller hc => exact ⟨h.queue, h.workers, h.set_caller rfl⟩
  | fail => cases ha

theorem ActsOnly.outcome_eq (h : pool.ActsOnly p) (ha : action.actsOnly p)
    (hs : pool.step? action = some next) : next.outcome = pool.outcome := by
  have hfail : action.isFail = false := by
    cases action with
    | fail => cases ha
    | _ => rfl
  have hhandled : pool.handled? action = none := by
    cases action with
    | worker id woken =>
      cases hp : pool.workers[id]? with
      | none => rw [handled?, hp]; rfl
      | some phase =>
        have hphase := h.workers phase (List.mem_of_getElem? hp)
        rw [handled?_worker hp]
        cases phase with
        | failing => cases hphase
        | _ => rfl
    | _ => rfl
  rw [outcome_of_step? hs, hfail, hhandled]
  exact Bool.and_true _

theorem ActsOnly.play? (h : pool.ActsOnly p) (ha : ∀ action ∈ actions, action.actsOnly p)
    (hp : pool.play? actions = some next) : next.ActsOnly p ∧ next.outcome = pool.outcome := by
  have hstep {before after : Pool ε} (action : Action ε) (hm : action ∈ actions)
      (hb : before.ActsOnly p ∧ before.outcome = pool.outcome)
      (hs : before.step? action = some after) :
      after.ActsOnly p ∧ after.outcome = pool.outcome :=
    ⟨hb.1.step (ha action hm) hs, (hb.1.outcome_eq (ha action hm) hs).trans hb.2⟩
  exact after?_induction_of_mem hstep ⟨h, rfl⟩ hp

theorem ActsOnly.effect (h : pool.ActsOnly p) {effect : ε}
    (he : pool.effect? action = some effect) :
    p effect := by
  cases action with
  | worker id woken =>
    cases hp : pool.workers[id]? with
    | none => simp [effect?, hp] at he
    | some phase =>
      have hphase := h.workers phase (List.mem_of_getElem? hp)
      rw [effect?, hp] at he
      cases phase with
      | running ticket body =>
        cases body with
        | act first next =>
          cases he
          exact (Bool.and_eq_true_iff.mp hphase).1
        | _ => cases he
      | _ => cases he
  | _ => cases he

theorem ActsOnly.load_eq_zero (h : pool.ActsOnly fun _ => false) (w : ε → Nat) :
    pool.load w = 0 ∧ pool.incoming w = 0 := by
  have hqueue : pool.queue.load w = 0 := by
    apply List.sum_eq_zero_iff_forall_eq_nat.mpr
    intro load hm
    obtain ⟨task, htask, rfl⟩ := List.mem_map.mp hm
    exact Body.load_of_actsOnly (h.queue task htask)
  have hworkers : (pool.workers.map (Phase.load w)).sum = 0 := by
    apply List.sum_eq_zero_iff_forall_eq_nat.mpr
    intro load hm
    obtain ⟨phase, hphase, rfl⟩ := List.mem_map.mp hm
    have honly := h.workers phase hphase
    cases phase with
    | running => exact Body.load_of_actsOnly honly
    | pushing | lost => cases honly
    | _ => rfl
  refine ⟨?_, ?_⟩
  · rw [load, hqueue, hworkers]
  · apply List.sum_eq_zero_iff_forall_eq_nat.mpr
    intro load hm
    obtain ⟨caller, hcaller, rfl⟩ := List.mem_map.mp hm
    have honly := h.callers caller hcaller
    cases caller with
    | offering | pushing => exact Body.load_of_actsOnly honly
    | _ => rfl

theorem ActsOnly.of_load {w : ε → Nat} {q : ε → Bool} (h : pool.ActsOnly p)
    (hw : ∀ effect, p effect → 0 < w effect) (hl : pool.load w = 0) (hi : pool.incoming w = 0) :
    pool.ActsOnly q := by
  rw [load, GatedQueue.load, Nat.add_eq_zero_iff, List.sum_eq_zero_iff_forall_eq_nat,
    List.sum_eq_zero_iff_forall_eq_nat] at hl
  rw [incoming, List.sum_eq_zero_iff_forall_eq_nat] at hi
  refine ⟨?_, ?_, ?_⟩
  · intro task hm
    exact Body.actsOnly_of_load hw (h.queue task hm) (hl.1 _ (List.mem_map_of_mem hm))
  · intro phase hm
    have honly := h.workers phase hm
    have hload := hl.2 _ (List.mem_map_of_mem hm)
    cases phase with
    | running ticket body => exact Body.actsOnly_of_load hw honly hload
    | pushing | caught | failing | lost => cases honly
    | _ => rfl
  · intro caller hm
    have honly := h.callers caller hm
    have hload := hi _ (List.mem_map_of_mem hm)
    cases caller with
    | offering task | pushing task => exact Body.actsOnly_of_load hw honly hload
    | _ => rfl

end Pool
end TreePool
