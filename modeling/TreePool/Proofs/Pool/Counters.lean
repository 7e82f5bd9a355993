import TreePool.Proofs.Pool.Transition

/-! # The counters of a pool

In every state that a pool can get into, its two counters are the numbers of workers that are alive
and that work. The lemmas on counting say what a step does to the number of workers of any kind that
waking at the gate does not change; later laws count other kinds with them. A worker is lost for
each task that panicked with something whose destructor panics, and goes on to count.
-/

namespace TreePool

variable {ε : Type}

theorem countP_concat {α : Type} (f : α → Bool) (l : List α) (a : α) :
    (l ++ [a]).countP f = l.countP f + (f a).toNat := by
  rw [List.countP_append, List.countP_singleton]
  cases f a <;> rfl

theorem countP_set_add {α : Type} (f : α → Bool) {l : List α} {i : Nat} {a b : α}
    (h : l[i]? = some a) :
    (l.set i b).countP f + (f a).toNat = l.countP f + (f b).toNat := by
  obtain ⟨hi, rfl⟩ := List.getElem?_eq_some_iff.mp h
  have hle := List.boole_getElem_le_countP (p := f) hi
  rw [List.countP_set hi]
  cases ha : f l[i] <;> cases f b <;>
    simp only [ha, Bool.toNat_true, Bool.toNat_false, if_true, Bool.false_eq_true, if_false]
      at hle ⊢ <;>
    omega

/-- Whether the worker is lost, or will be when it has handled the panic that it caught. -/
def Phase.isDoomed : Phase ε → Bool
  | .caught _ cause | .failing _ cause => cause.isExplosive
  | .lost => true
  | _ => false

namespace Pool

variable {pool next after : Pool ε} {action : Action ε} {id : Nat} {phase phase' : Phase ε}
variable {signals : Bool} {woken : Option Nat} {workers workers' : List (Phase ε)}

/-! ## Counting workers -/

theorem Signal.countP_eq (h : Signal signals workers woken workers') {f : Phase ε → Bool}
    (hf : f (.atGate .awake) = f (.atGate .asleep)) : workers'.countP f = workers.countP f := by
  cases h with
  | silent => rfl
  | unheard => rfl
  | wakes hp =>
    have := countP_set_add f (b := .atGate .awake) hp
    rw [hf] at this
    exact Nat.add_right_cancel this

/-- A step of a worker changes the number of workers of a kind by what it changes the worker
itself. -/
theorem Signal.countP_add (hw : Signal signals (workers.set id phase') woken workers')
    (hp : workers[id]? = some phase) {f : Phase ε → Bool}
    (hf : f (.atGate .awake) = f (.atGate .asleep)) :
    workers'.countP f + (f phase).toNat = workers.countP f + (f phase').toNat := by
  rw [hw.countP_eq hf]
  exact countP_set_add f hp

theorem countP_rouse {f : Phase ε → Bool} (hf : f (.atGate .awake) = f (.atGate .asleep))
    (workers : List (Phase ε)) : (workers.map Phase.rouse).countP f = workers.countP f := by
  rw [List.countP_map]
  congr 1
  funext phase
  cases phase with
  | atGate stance => cases stance <;> simp [Phase.rouse, hf]
  | _ => rfl

/-! ## The counters -/

structure Counted (pool : Pool ε) : Prop where
  alive : pool.alive = pool.workers.countP Phase.isAlive
  working : pool.working = pool.workers.countP Phase.isWorking

theorem WorkerStep.alive_add (h : WorkerStep pool id phase phase' signals after)
    (hpos : phase.isAlive → 0 < pool.alive) :
    after.alive + phase.isAlive.toNat = pool.alive + phase'.isAlive.toNat := by
  cases h with
  | leave => exact Nat.sub_add_cancel (hpos rfl)
  | part => cases pool.fragile <;> rfl
  | _ => rfl

theorem WorkerStep.working_add (h : WorkerStep pool id phase phase' signals after)
    (hpos : phase.isWorking → 0 < pool.working) :
    after.working + phase.isWorking.toNat = pool.working + phase'.isWorking.toNat := by
  cases h with
  | rest => exact Nat.sub_add_cancel (hpos rfl)
  | part => cases pool.fragile <;> rfl
  | _ => rfl

theorem Counted.worker (h : Counted pool) (hp : pool.workers[id]? = some phase)
    (hs : WorkerStep pool id phase phase' signals after)
    (hw : Signal signals (pool.workers.set id phase') woken workers) :
    Counted { after with workers } := by
  have halive := h.alive
  have hworking := h.working
  have hmem := List.mem_of_getElem? hp
  constructor
  · have hstep := hs.alive_add fun hf => by
      rw [h.alive]
      exact List.countP_pos_iff.mpr ⟨phase, hmem, hf⟩
    have hcount := hw.countP_add hp (f := Phase.isAlive) rfl
    change after.alive = workers.countP Phase.isAlive
    omega
  · have hstep := hs.working_add fun hf => by
      rw [h.working]
      exact List.countP_pos_iff.mpr ⟨phase, hmem, hf⟩
    have hcount := hw.countP_add hp (f := Phase.isWorking) rfl
    change after.working = workers.countP Phase.isWorking
    omega

theorem Counted.transition (h : Counted pool) (ht : Transition pool action next) :
    Counted next := by
  cases ht with
  | owner ht =>
    cases ht with
    | spawn =>
      constructor
      · simpa [Phase.isAlive] using h.alive
      · simpa [Phase.isWorking] using h.working
    | broadcast =>
      exact ⟨h.alive.trans (countP_rouse rfl _).symm, h.working.trans (countP_rouse rfl _).symm⟩
    | _ => exact ⟨h.alive, h.working⟩
  | worker hp hs hw => exact h.worker hp hs hw
  | stir hp =>
    have hw := Signal.wakes hp
    exact ⟨h.alive.trans (hw.countP_eq rfl).symm, h.working.trans (hw.countP_eq rfl).symm⟩
  | caller hc hs hw =>
    have halive := hw.countP_eq (f := Phase.isAlive) rfl
    have hworking := hw.countP_eq (f := Phase.isWorking) rfl
    cases hs <;> exact ⟨h.alive.trans halive.symm, h.working.trans hworking.symm⟩
  | _ => exact ⟨h.alive, h.working⟩

theorem Reachable.counted (h : Reachable pool) : Counted pool := by
  induction h with
  | start => exact ⟨rfl, rfl⟩
  | step action _ hs ih => exact ih.transition (transition_of_step? hs)

/-! ## Workers that are lost -/

theorem isLost_iff {phase : Phase ε} : phase.isLost = true ↔ phase = .lost := by
  cases phase <;> simp [Phase.isLost]

theorem lost_eq_length_iff :
    pool.lost = pool.workers.length ↔ ∀ phase ∈ pool.workers, phase.isLost = true :=
  List.countP_eq_length

theorem lost_eq_zero_iff : pool.lost = 0 ↔ ∀ phase ∈ pool.workers, phase.isLost = false := by
  simp [lost, List.countP_eq_zero]

theorem Counted.lost_le (h : Counted pool) :
    pool.lost ≤ pool.alive ∧ pool.lost ≤ pool.working := by
  rw [h.alive, h.working]
  constructor <;>
  · refine List.countP_mono_left fun phase _ hl => ?_
    rw [isLost_iff.mp hl]
    rfl

/-- The number of tasks that panicked with something whose destructor panics. -/
def explosions (pool : Pool ε) : Nat := pool.finished.countP (·.2.isExplosive)

theorem WorkerStep.explosions_add (h : WorkerStep pool id phase phase' signals after) :
    after.explosions + phase.isDoomed.toNat = pool.explosions + phase'.isDoomed.toNat := by
  cases h with
  | complete => simp [explosions, Phase.isDoomed, Ending.isExplosive]
  | panic =>
    rw [explosions, countP_concat]
    rfl
  | markPanic hc => simp [explosions, Phase.isDoomed, hc]
  | perish hc => simp [explosions, Phase.isDoomed, hc]
  | part => cases pool.fragile <;> rfl
  | _ => rfl

/-- Each such panic costs a worker, once it has been handled. -/
theorem Reachable.explosions_eq (h : Reachable pool) :
    pool.explosions = pool.workers.countP Phase.isDoomed := by
  induction h with
  | start => rfl
  | step action _ hs ih =>
    cases transition_of_step? hs with
    | owner ht =>
      cases ht with
      | spawn => simpa [explosions, Phase.isDoomed] using ih
      | broadcast => exact ih.trans (countP_rouse rfl _).symm
      | _ => exact ih
    | worker hp ht hw =>
      have hcount := hw.countP_add hp (f := Phase.isDoomed) rfl
      have hstep := ht.explosions_add
      simp only [explosions] at hstep ih ⊢
      omega
    | stir hp => exact ih.trans ((Signal.wakes hp).countP_eq rfl).symm
    | caller hc ht hw =>
      have hcount := hw.countP_eq (f := Phase.isDoomed) rfl
      cases ht <;> exact ih.trans hcount.symm
    | _ => exact ih

theorem Reachable.lost_le_explosions (h : Reachable pool) : pool.lost ≤ pool.explosions := by
  rw [h.explosions_eq]
  refine List.countP_mono_left fun phase _ hl => ?_
  rw [isLost_iff.mp hl]
  rfl

theorem isIdle_iff : pool.isIdle = true ↔ pool.queue.tasks = [] ∧ pool.working = 0 := by
  simp [isIdle, GatedQueue.isEmpty]

end Pool
end TreePool
