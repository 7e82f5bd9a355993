import TreePool.Proofs.Workshop.Crew

/-! # Pools that leave files alone

A pool that was destroyed does nothing any more, and refuses what is submitted to it. So whatever is
still done with it, files and errands stay as they are. That is also so of a crew as long as it owes
nothing, and `Rests` is what both have in common.
-/

namespace TreePool
namespace Workshop

variable {shop next : Workshop} {crew : PoolId} {actions : List (Action Effect)}

/-- A condition under which steps of a pool leave files and errands alone. -/
structure Rests (crew : PoolId) (P : Workshop → Prop) : Prop where
  congr {shop next : Workshop} : P shop → next.pools = shop.pools → P next
  takeAll {shop : Workshop} {actions : List (Action Effect)} : P shop →
    (∀ action ∈ actions, action.IsHarmless) → P (shop.takeAll crew actions) ∧
      (shop.takeAll crew actions).files = shop.files ∧
      (shop.takeAll crew actions).errands = shop.errands

theorem rests_of_crewed (crew : PoolId) : Rests crew fun shop => Crewed shop crew [] :=
  ⟨Crewed.congr, Crewed.takeAll_of_nil⟩

def Shut (shop : Workshop) (crew : PoolId) : Prop :=
  ∃ pool, shop.pool? crew = some pool ∧ pool.Reachable ∧ pool.owner = .closed ∧ pool.failure = none

namespace Shut

theorem congr (h : Shut shop crew) (hp : next.pools = shop.pools) : Shut next crew := by
  obtain ⟨pool, hpool, hshut⟩ := h
  exact ⟨pool, by rw [pool?, hp]; exact hpool, hshut⟩

theorem effect?_eq_none {pool : Pool Effect} (hr : pool.Reachable) (hc : pool.owner = .closed)
    (action : Action Effect) : pool.effect? action = none := by
  cases action with
  | worker id woken =>
    cases hp : pool.workers[id]? with
    | none => simp [Pool.effect?, hp]
    | some phase =>
      rw [Pool.effect?_worker hp]
      have hd := Owner.isDone_of_eq_closed hc
      have hover := hr.isOver_of_isDone hd phase (List.mem_of_getElem? hp)
      cases phase with
      | running => cases hover
      | _ => rfl
  | _ => rfl

theorem take (h : Shut shop crew) (action : Action Effect) :
    Shut (shop.take crew action) crew ∧ (shop.take crew action).files = shop.files ∧
      (shop.take crew action).errands = shop.errands := by
  obtain ⟨pool, hp, hr, hc, hf⟩ := h
  cases hs : pool.step? action with
  | none =>
    rw [take_of_none hp hs]
    exact ⟨⟨pool, hp, hr, hc, hf⟩, rfl, rfl⟩
  | some moved =>
    rw [take_of_step? hp hs (effect?_eq_none hr hc action)]
    obtain ⟨ho, -, hsame⟩ := hr.step_of_isDone (Owner.isDone_of_eq_closed hc) hs
    have hfailure : moved.withoutCalls.failure = pool.withoutCalls.failure := by rw [hsame]
    exact ⟨⟨moved, pool?_setPool moved hp, hr.step action hs, ho.trans hc, hfailure.trans hf⟩, rfl,
      rfl⟩

theorem takeAll (h : Shut shop crew) (actions : List (Action Effect)) :
    Shut (shop.takeAll crew actions) crew ∧ (shop.takeAll crew actions).files = shop.files ∧
      (shop.takeAll crew actions).errands = shop.errands := by
  induction actions generalizing shop with
  | nil => exact ⟨h, rfl, rfl⟩
  | cons action actions ih =>
    obtain ⟨htaken, hf, he⟩ := h.take action
    obtain ⟨hshut, hf', he'⟩ := ih htaken
    exact ⟨hshut, hf'.trans hf, he'.trans he⟩

theorem submit (h : Shut shop crew) (body : Body Effect) :
    ∃ next, shop.submit crew body = (next, .error .poolDestroyed) ∧ next.files = shop.files ∧
      next.errands = shop.errands ∧ Shut next crew := by
  obtain ⟨pool, hp, hr, hc, hf⟩ := h
  have hrefused := submit_of_closed hp hr hc hf body
  have htaken : (shop.submit crew body).1 = shop.takeAll crew
      [.call (.submit body), .caller (shop.nextCaller crew) none,
        .caller (shop.nextCaller crew)
          ((shop.pool? crew).bind (·.workers.findIdx? Phase.isAsleep))] := by
    simp only [Workshop.submit]
    split <;> rfl
  obtain ⟨hshut, hfiles, herrands⟩ := takeAll ⟨pool, hp, hr, hc, hf⟩ _
  rw [← htaken] at hshut hfiles herrands
  exact ⟨(shop.submit crew body).1, Prod.ext rfl hrefused, hfiles, herrands, hshut⟩

end Shut

theorem rests_of_shut (crew : PoolId) : Rests crew fun shop => Shut shop crew :=
  ⟨Shut.congr, fun h _ => h.takeAll _⟩

end Workshop
end TreePool
