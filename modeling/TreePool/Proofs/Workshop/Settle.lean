import TreePool.Proofs.Pool.Construction
import TreePool.Proofs.Pool.Rest
import TreePool.Proofs.Workshop.Accounts
import TreePool.Proofs.Workshop.Chronicle

/-! # Workshops that settle

A workshop whose only pool copies files comes to rest when it settles, and takes no steps on the way
but such as the threads of the pool take by themselves: `exists_takeAll_of_settle`.
-/

namespace TreePool

namespace Pool

variable {pool next : Pool Effect} {action : Action Effect}

/-- The pool only copies files, and no more than one call to it is open. -/
structure IsSteady (pool : Pool Effect) : Prop where
  reachable : pool.Reachable
  copies : pool.ActsOnly Effect.isCopy
  unanswered : pool.unanswered ≤ 1

/-- What no step breaks that threads take by themselves, nor a mark on the outcome. -/
def Kept (J : Pool Effect → Prop) : Prop :=
  ∀ pool next action, action.isInternal ∨ action = .fail → J pool → pool.step? action = some next →
    J next

theorem Kept.and {J K : Pool Effect → Prop} (hJ : Kept J) (hK : Kept K) :
    Kept fun pool => J pool ∧ K pool := by
  intro pool next action ha h hs
  exact ⟨hJ pool next action ha h.1 hs, hK pool next action ha h.2 hs⟩

theorem IsSteady.fail (h : pool.IsSteady) : pool.fail.IsSteady :=
  ⟨h.reachable.step .fail rfl, ⟨h.copies.queue, h.copies.workers, h.copies.callers⟩, h.unanswered⟩

theorem IsSteady.step (h : pool.IsSteady) (ha : action.isInternal)
    (hs : pool.step? action = some next) : next.IsSteady :=
  ⟨h.reachable.step action hs, h.copies.step (Action.actsOnly_of_isInternal ha) hs,
    (unanswered_le_of_step? hs (.inl ha)).trans h.unanswered⟩

/-! ## What is kept -/

theorem kept_full : Kept fun pool => pool.workers.length = pool.size := by
  intro pool next action _ h hs
  rw [size_eq_of_step? hs]
  cases transition_of_step? hs with
  | owner ht =>
    cases ht with
    | spawn _ hlt => exact absurd h (Nat.ne_of_lt hlt)
    | broadcast => exact (List.length_map _).trans h
    | _ => exact h
  | worker hp ht hw => exact (hw.length_eq.trans List.length_set).trans h
  | stir => exact List.length_set.trans h
  | caller hc ht hw => exact hw.length_eq.trans h
  | _ => exact h

theorem kept_idle : Kept fun pool => pool.owner = .idle := by
  intro pool next action ha h hs
  apply idle_of_step? hs h
  rintro rfl
  simp [Action.isInternal] at ha

theorem kept_shutdown : Kept fun pool => pool.shutdown = true :=
  fun _ _ _ _ h hs => shutdown_of_step? hs h

theorem kept_ne_unwound : Kept fun pool => pool.owner ≠ .unwound := by
  intro pool next action ha h hs
  refine owner_ne_unwound_of_step? ?_ hs h
  rintro rfl
  simp [Action.isInternal] at ha

theorem kept_building : Kept fun pool => pool.workers.length = pool.size ∧
    (pool.owner.isBuilding ∨ pool.owner = .idle) := by
  intro pool next action ha h hs
  refine ⟨kept_full pool next action ha h.1 hs, ?_⟩
  obtain ⟨hfull, ho⟩ := h
  cases transition_of_step? hs with
  | owner ht =>
    cases ht with
    | spawn _ hlt | balk _ hlt => exact absurd hfull (Nat.ne_of_lt hlt)
    | gather | gathered => exact .inl rfl
    | announce => exact .inr rfl
    | giveUp | giveUpAgain | unwind => simp [Action.isInternal] at ha
    | _ hp => simp [hp, Owner.isBuilding] at ho
  | @worker _ _ _ _ after _ _ hp ht hw =>
    change after.owner.isBuilding ∨ after.owner = .idle
    rcases ht.owner_eq with he | he
    · rwa [he]
    · rw [he, Owner.isBuilding_rouse]
      refine ho.imp_right fun hidle => ?_
      rw [hidle]
      rfl
  | caller hc ht hw =>
    rw [ht.owner_eq]
    exact ho
  | _ => exact ho

theorem kept_awaited (id : Nat) : Kept fun pool => ∃ caller, pool.callers[id]? = some caller ∧
    (caller.isWaiting ∨ caller = .finished .drained) := by
  rintro pool next action - ⟨caller, hc, hw⟩ hs
  obtain ⟨caller', hc', hor⟩ := exists_caller_of_step? hc hs
  refine ⟨caller', hc', ?_⟩
  rcases hor with rfl | rfl | ⟨_, _, _, -, ht⟩
  · exact hw
  · rcases hw with hw | rfl
    · exact .inl (by rwa [Caller.isWaiting_notify])
    · exact .inr rfl
  · cases ht with
    | drain => exact .inr rfl
    | park | recheck => exact .inl rfl
    | _ => simp [Caller.isWaiting] at hw

end Pool

namespace Workshop

variable {shop next : Workshop} {pool : Pool Effect} {action : Action Effect}
variable {J : Pool Effect → Prop}

theorem advance?_eq (hl : shop.pools.length = 1) (hp : shop.pool? 0 = some pool) :
    shop.advance? = pool.candidates.findSome? fun action => shop.step? ⟨0, action⟩ := by
  simp [advance?, advancePool?, hl, hp]

theorem exists_pool?_of_step? (hp : shop.pool? 0 = some pool) (ht : pool.ActsOnly Effect.isCopy)
    (hs : shop.step? ⟨0, action⟩ = some next) : ∃ moved, pool.step? action = some moved ∧
      ∃ after, next.pool? 0 = some after ∧ (after = moved ∨ after = moved.fail) := by
  cases hm : pool.step? action with
  | none => simp [step?, hp, hm] at hs
  | some moved =>
    refine ⟨moved, rfl, ?_⟩
    have hmoved := pool?_setPool moved hp
    cases he : pool.effect? action with
    | none =>
      simp only [step?, hp, hm, he, Option.bind_eq_bind, Option.bind_some, Option.some.injEq] at hs
      exact ⟨moved, hs ▸ hmoved, .inl rfl⟩
    | some effect =>
      have hcopy := ht.effect he
      cases effect with
      | copy id =>
        simp only [step?, hp, hm, he, Option.bind_eq_bind, Option.bind_some, allows, if_true,
          Option.some.injEq] at hs
        subst hs
        refine exists_pool?_copy ?_ ⟨moved, hmoved, .inl rfl⟩ id
        rintro _ (rfl | rfl) <;> exact .inr rfl
      | _ => cases hcopy

theorem step?_ne_none (hp : shop.pool? 0 = some pool) (ht : pool.ActsOnly Effect.isCopy)
    (hs : pool.step? action ≠ none) : shop.step? ⟨0, action⟩ ≠ none := by
  obtain ⟨moved, hm⟩ := Option.ne_none_iff_exists'.mp hs
  cases he : pool.effect? action with
  | none => simp [step?, hp, hm, he]
  | some effect =>
    have hcopy := ht.effect he
    cases effect with
    | copy id => simp [step?, hp, hm, he, allows]
    | _ => cases hcopy

theorem atRest_of_advance? (hl : shop.pools.length = 1) (hp : shop.pool? 0 = some pool)
    (ht : pool.ActsOnly Effect.isCopy) (ha : shop.advance? = none) : pool.AtRest := by
  rw [advance?_eq hl hp, List.findSome?_eq_none_iff] at ha
  intro action hm
  by_contra hne
  exact step?_ne_none hp ht hne (ha action hm)

/-- When the workshop goes on, a thread of its pool takes a step, and the pool is nearer to rest. -/
theorem exists_step_of_advance? (hJ : Pool.Kept J) (hl : shop.pools.length = 1)
    (hp : shop.pool? 0 = some pool) (hs : pool.IsSteady) (hpool : J pool)
    (ha : shop.advance? = some next) :
    ∃ action after, action.isInternal ∧ shop.take 0 action = next ∧ next.pools.length = 1 ∧
      next.pool? 0 = some after ∧ after.IsSteady ∧ J after ∧ after.turns < pool.turns := by
  rw [advance?_eq hl hp] at ha
  obtain ⟨action, hm, hstep⟩ := List.exists_of_findSome?_eq_some ha
  obtain ⟨moved, hmoved, after, hafter, hor⟩ := exists_pool?_of_step? hp hs.copies hstep
  obtain ⟨hturn, hinternal⟩ := Pool.isTurn_of_mem_candidates hm
  have hlt := hs.reachable.turns_lt_of_step? hs.unanswered hturn hmoved
  have hkept := hJ pool moved action (.inl hinternal) hpool hmoved
  have hsteady := hs.step hinternal hmoved
  have htake : shop.take 0 action = next := by rw [take, hstep, Option.getD_some]
  refine ⟨action, after, hinternal, htake, (sameSize_step? hstep).1.trans hl, hafter, ?_⟩
  rcases hor with rfl | rfl
  · exact ⟨hsteady, hkept, hlt⟩
  · exact ⟨hsteady.fail, hJ moved moved.fail .fail (.inr rfl) hkept rfl, hlt⟩

theorem exists_takeAll_of_run (hJ : Pool.Kept J) {fuel : Nat} (hl : shop.pools.length = 1)
    (hp : shop.pool? 0 = some pool) (hs : pool.IsSteady) (hpool : J pool)
    (hf : pool.turns ≤ fuel) :
    ∃ actions final, (∀ action ∈ actions, action.isInternal) ∧
      run fuel shop = shop.takeAll 0 actions ∧ (run fuel shop).pools.length = 1 ∧
      (run fuel shop).pool? 0 = some final ∧ final.IsSteady ∧ J final ∧ final.AtRest := by
  induction fuel generalizing shop pool with
  | zero =>
    refine ⟨[], pool, by simp, rfl, hl, hp, hs, hpool, ?_⟩
    apply atRest_of_advance? hl hp hs.copies
    cases ha : shop.advance? with
    | none => rfl
    | some next =>
      obtain ⟨_, _, -, -, -, -, -, -, hlt⟩ := exists_step_of_advance? hJ hl hp hs hpool ha
      omega
  | succ fuel ih =>
    rw [run]
    cases ha : shop.advance? with
    | none =>
      exact ⟨[], pool, by simp, rfl, hl, hp, hs, hpool, atRest_of_advance? hl hp hs.copies ha⟩
    | some next =>
      obtain ⟨action, after, hinternal, rfl, hl', hp', hs', hpool', hlt⟩ :=
        exists_step_of_advance? hJ hl hp hs hpool ha
      obtain ⟨actions, final, hactions, hrun, hrest⟩ := ih hl' hp' hs' hpool' (by omega)
      exact ⟨action :: actions, final, List.forall_mem_cons.mpr ⟨hinternal, hactions⟩, hrun, hrest⟩

theorem exists_takeAll_of_settle (hJ : Pool.Kept J) (hl : shop.pools.length = 1)
    (hp : shop.pool? 0 = some pool) (hs : pool.IsSteady) (hpool : J pool) :
    ∃ actions final, (∀ action ∈ actions, action.isInternal) ∧
      shop.settle = shop.takeAll 0 actions ∧ shop.settle.pools.length = 1 ∧
      shop.settle.pool? 0 = some final ∧ final.IsSteady ∧ J final ∧ final.AtRest := by
  refine exists_takeAll_of_run hJ hl hp hs hpool ?_
  obtain ⟨only, honly⟩ := List.length_eq_one_iff.mp hl
  have hpools : shop.pools = [pool] := by
    rw [pool?, honly] at hp
    rw [honly, Option.some.inj hp]
  rw [hpools, List.map_singleton, total_eq_sum, List.sum_singleton]
  exact hs.reachable.turns_le_effort

end Workshop
end TreePool
