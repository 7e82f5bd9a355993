import TreePool.Proofs.Pool.Budget
import TreePool.Proofs.Pool.Order
import TreePool.Workshop.Schedule

/-! # After the end of a pool

The owner closes a pool when all threads are joined and the queue is cleared. Then nothing is left
behind: each task that was accepted has been performed, from the start to the end, or was dropped
before anybody took it. A pool that has been destroyed stays as it is, whoever calls: submissions
are refused, and a call that waits returns at once.
-/

namespace TreePool

variable {ε : Type} {worker id : Nat} {ticket : Ticket} {task : Task ε}

namespace Pool

variable {pool next : Pool ε} {action : Action ε} {actions : List (Action ε)}
variable {history : List (Event ε)} {phase : Phase ε} {woken : Option Nat}

/-! ## Threads and counters -/

theorem Reachable.isOver_of_isDone (h : Reachable pool) (hd : pool.owner.isDone) :
    ∀ phase ∈ pool.workers, phase.isOver = true := by
  intro phase hp
  obtain ⟨id, hi⟩ := List.mem_iff_getElem?.mp hp
  exact h.isOver (Owner.hasJoined_of_hasCleared (Owner.hasCleared_of_isDone hd) id) hi

theorem Reachable.isOutside_of_isDone (h : Reachable pool) (hd : pool.owner.isDone) :
    ∀ phase ∈ pool.workers, phase.isOutside = true :=
  h.isOutside (Owner.hasWatched_of_hasCleared (Owner.hasCleared_of_isDone hd))

theorem Reachable.alive_of_closed (h : Reachable pool) (hc : pool.owner = .closed) :
    pool.alive = 0 := by
  have hd := Owner.isDone_of_eq_closed hc
  rw [h.counted.alive]
  refine List.countP_eq_zero.mpr fun phase hm => ?_
  have hout := h.isOutside_of_isDone hd phase hm
  rw [Phase.not_isAlive_of_isOver hout (h.isOver_of_isDone hd phase hm)]
  exact Bool.false_ne_true

theorem Reachable.working_of_closed (h : Reachable pool) (hc : pool.owner = .closed) :
    pool.working = 0 :=
  h.working_of_hasWatched (by rw [hc]; rfl)

theorem Reachable.not_moves_of_isDone (h : Reachable pool) (hd : pool.owner.isDone) :
    ¬ pool.Moves := by
  rintro ⟨id, woken, next, hs⟩
  cases transition_of_step? hs with
  | owner ht => cases ht
  | @worker id phase _ _ _ _ _ hp ht =>
    have ho := h.isOver_of_isDone hd phase (List.mem_of_getElem? hp)
    rw [ht.isOver_eq] at ho
    cases ho

/-- All of a pool but the calls to it, and but its outcome, which anybody may mark. -/
def withoutCalls (pool : Pool ε) : Pool ε :=
  { pool with callers := [], offered := 0, refused := [], outcome := true }

theorem Reachable.shutdown_of_isDone (h : Reachable pool) (hd : pool.owner.isDone) :
    pool.shutdown = true := by
  rw [h.shutdown_eq]
  exact Owner.hasRaised_of_hasCleared (Owner.hasCleared_of_isDone hd)

/-- Nothing comes of a step of a destroyed pool but what callers see. -/
theorem Reachable.step_of_isDone (h : Reachable pool) (hd : pool.owner.isDone)
    (hs : pool.step? action = some next) : next.owner = pool.owner ∧ pool.events action = [] ∧
      next.withoutCalls = pool.withoutCalls := by
  cases transition_of_step? hs with
  | owner ht =>
    have hsame : next = pool := by
      cases ht with
      | giveUpAgain => rfl
      | _ ho => rw [ho] at hd; cases hd
    exact ⟨congrArg owner hsame, events_of_ownerStep ht, congrArg withoutCalls hsame⟩
  | worker => exact absurd ⟨_, _, _, hs⟩ (h.not_moves_of_isDone hd)
  | stir hp => cases h.isOver_of_isDone hd _ (List.mem_of_getElem? hp)
  | @caller id caller caller' _ _ _ _ hcaller ht hw =>
    have ha := h.admits caller (List.mem_of_getElem? hcaller)
    rw [events_caller hcaller]
    cases ht with
    | push => rw [Owner.admits_of_isDone hd] at ha; cases ha
    | allow hf => rw [h.shutdown_of_isDone hd] at hf; cases hf
    | _ => cases hw; exact ⟨rfl, rfl, rfl⟩
  | _ => exact ⟨rfl, rfl, rfl⟩

theorem Reachable.play_of_isDone (h : Reachable pool) (hd : pool.owner.isDone)
    (hp : pool.play? actions = some next) : next.owner = pool.owner ∧ pool.record actions = [] ∧
      next.withoutCalls = pool.withoutCalls := by
  induction actions generalizing pool with
  | nil =>
    cases Option.some.inj hp
    exact ⟨rfl, rfl, rfl⟩
  | cons action actions ih =>
    obtain ⟨between, hs, hrest⟩ := after?_cons_eq_some_iff.mp hp
    obtain ⟨ho, he, hsame⟩ := h.step_of_isDone hd hs
    obtain ⟨hn, hr, hlast⟩ := ih (h.step action hs) (ho ▸ hd) hrest
    refine ⟨hn.trans ho, ?_, hlast.trans hsame⟩
    rw [record, he, hs]
    exact hr

theorem Reachable.refuses_of_closed (h : Reachable pool) (hc : pool.owner = .closed)
    (hcaller : pool.callers[id]? = some (.offering task)) :
    pool.step? (.caller id woken) = some next ↔ woken = none ∧ next =
      { pool with
        refused := pool.refused ++ [task.ticket]
        callers := pool.callers.set id (.finished (.refused task.ticket)) } := by
  have hd := Owner.isDone_of_eq_closed hc
  constructor
  · intro hs
    cases transition_of_step? hs with
    | owner ht => cases ht
    | caller hfound ht hw =>
      cases hcaller.symm.trans hfound
      cases ht with
      | refuse => cases hw; exact ⟨rfl, rfl⟩
      | allow hf => rw [h.shutdown_of_isDone hd] at hf; cases hf
  · rintro ⟨rfl, rfl⟩
    exact step?_eq_some_iff.mpr (.caller hcaller (.refuse (h.shutdown_of_isDone hd)) .silent)

theorem Reachable.submit_of_closed (h : Reachable pool) (hc : pool.owner = .closed)
    (hf : pool.failure = none) (body : Body ε) :
    pool.play? [.call (.submit body), .caller pool.callers.length none] = some
      { pool with
        callers := pool.callers ++ [.finished (.refused pool.offered)]
        offered := pool.offered + 1
        refused := pool.refused ++ [pool.offered] } := by
  have hcall := step?_eq_some_iff.mpr
    (.callSubmit (.inr ⟨Owner.isDone_of_eq_closed hc, hf⟩) :
      Transition pool (.call (.submit body)) _)
  have hstep := ((h.step _ hcall).refuses_of_closed hc List.getElem?_concat_length).mpr ⟨rfl, rfl⟩
  rw [Pool.play?, after?_cons hcall, after?_cons hstep]
  simp [after?]

end Pool

namespace Workshop

variable {shop : Workshop} {pool next : Pool Effect} {id : PoolId}

theorem pool?_setPool (next : Pool Effect) (hp : shop.pool? id = some pool) :
    (shop.setPool id next).pool? id = some next :=
  List.getElem?_set_self (List.getElem?_eq_some_iff.mp hp).1

theorem take_of_step? {action : Action Effect} (hp : shop.pool? id = some pool)
    (hs : pool.step? action = some next) (he : pool.effect? action = none) :
    shop.take id action = shop.setPool id next := by
  simp [take, step?, hp, hs, he]

theorem take_of_none {action : Action Effect} (hp : shop.pool? id = some pool)
    (hs : pool.step? action = none) : shop.take id action = shop := by
  simp [take, step?, hp, hs]

theorem submit_of_closed (hp : shop.pool? id = some pool) (h : pool.Reachable)
    (hc : pool.owner = .closed) (hf : pool.failure = none) (body : Body Effect) :
    (shop.submit id body).2 = .error .poolDestroyed := by
  obtain ⟨called, hcall, hplay⟩ := Option.bind_eq_some_iff.mp (h.submit_of_closed hc hf body)
  obtain ⟨refused, hrefuse, hlast⟩ := Option.bind_eq_some_iff.mp hplay
  have hcalled := pool?_setPool called hp
  have hrefused := pool?_setPool refused hcalled
  have hfound :
      refused.callers[pool.callers.length]? = some (.finished (.refused pool.offered)) := by
    rw [Option.some.inj hlast]
    exact List.getElem?_concat_length
  have hover (woken : Option Nat) : refused.step? (.caller pool.callers.length woken) = none := by
    simp [Pool.step?, Pool.caller?, hfound]
  have hreply : lastReply? ((shop.setPool id called).setPool id refused) id =
      some (.refused pool.offered) := by
    rw [lastReply?, hrefused, Option.some.inj hlast]
    simp
  simp only [submit, hp, Option.map_some, Option.getD_some, take_of_step? hp hcall rfl,
    take_of_step? hcalled hrefuse rfl, take_of_none hrefused (hover _), hreply]

end Workshop

end TreePool
