import TreePool.Proofs.Pool.Evacuation
import TreePool.Proofs.Tree.Course
import TreePool.Proofs.Workshop.Settle

/-! # Workshops whose pool is ready

A pool is ready when it is in use and nobody is in the middle of a call. A pool that is built in an
empty workshop comes to be ready, what is submitted to it and who waits for it leave it ready, and
when it is destroyed it comes to its end. On the way its threads take only steps of their own.
-/

namespace TreePool

namespace Pool

variable {pool : Pool Effect}

/-- The pool is in use, all its workers have been spawned, and nobody is in the middle of a call. -/
structure IsReady (pool : Pool Effect) : Prop where
  reachable : pool.Reachable
  copies : pool.ActsOnly Effect.isCopy
  full : pool.workers.length = pool.size
  idle : pool.owner = .idle
  quiet : pool.isQuiet = true

theorem unanswered_of_isQuiet (h : pool.isQuiet = true) : pool.unanswered = 0 := by
  apply List.countP_eq_zero.mpr
  intro caller hm
  rw [List.all_eq_true.mp h caller hm]
  exact Bool.false_ne_true

namespace IsReady

theorem shutdown_eq (h : pool.IsReady) : pool.shutdown = false := by
  rw [h.reachable.shutdown_eq, h.idle]
  rfl

theorem of_atRest_building (hs : pool.IsSteady) (hr : pool.AtRest)
    (hb : pool.workers.length = pool.size ∧ (pool.owner.isBuilding ∨ pool.owner = .idle)) :
    pool.IsReady := by
  have hquiet := hr.isQuiet hs.reachable hs.copies.lost_eq_zero
  refine ⟨hs.reachable, hs.copies, hb.1, ?_, hquiet⟩
  rcases hs.reachable.acts_or with ha | ho | hdone | ⟨ho, -⟩
  · exact absurd ha (hr.not_acts hb.1)
  · exact ho
  · rcases Owner.eq_closed_or_of_isDone hdone with ho | ho <;> simp [ho, Owner.isBuilding] at hb
  · simp [ho, Owner.isBuilding] at hb

theorem submit (h : pool.IsReady) (id : ErrandId) : ∃ moved,
    pool.play? [.call (.submit (.act (.copy id) .done)), .caller pool.callers.length none,
      .caller pool.callers.length (pool.workers.findIdx? Phase.isAsleep)] = some moved ∧
      moved.IsReady ∧ moved.callers.getLast? = some (.finished (.accepted pool.offered)) := by
  obtain ⟨workers, hw⟩ := Signal.exists_of_findIdx? pool.workers
  have hplay := play?_submit h.idle h.shutdown_eq (.act (.copy id) .done) hw
  obtain ⟨honly, -⟩ :=
    h.copies.play? (by simp [Action.actsOnly, Body.actsOnly, Effect.isCopy]) hplay
  refine ⟨_, hplay, ?_, by simp⟩
  refine ⟨h.reachable.play? hplay, honly, hw.length_eq.trans h.full, h.idle, ?_⟩
  have hquiet := h.quiet
  unfold isQuiet at hquiet ⊢
  simp [hquiet, Caller.isFinished]

end IsReady

end Pool

namespace Workshop

variable {shop : Workshop} {pool : Pool Effect}

def IsReady (shop : Workshop) : Prop :=
  shop.pools.length = 1 ∧ ∃ pool, shop.pool? 0 = some pool ∧ pool.IsReady

/-! ## Building -/

theorem spawn_eq_takeAll (shop : Workshop) (failure : IoError) (count : Nat) :
    shop.spawn 0 failure count =
      shop.takeAll 0 (List.replicate count (.spawn none) ++ [.spawn (some failure)]) := by
  induction count generalizing shop with
  | zero => rfl
  | succ count ih => exact ih (shop.take 0 (.spawn none))

theorem exists_spawn (hp : shop.pool? 0 = some pool) (hs : pool.IsSteady)
    (ho : pool.owner = .spawning) (failure : IoError) {count : Nat}
    (hc : pool.workers.length + count = pool.size) :
    ∃ moved, (shop.spawn 0 failure count).pools.length = shop.pools.length ∧
      (shop.spawn 0 failure count).pool? 0 = some moved ∧ moved.IsSteady ∧
      moved.workers.length = moved.size ∧ moved.owner = .spawning := by
  induction count generalizing shop pool with
  | zero =>
    have hnot : ¬ (pool.owner = .spawning ∧ pool.workers.length < pool.size) := by omega
    have hnone : pool.step? (.spawn (some failure)) = none := by
      simp only [Pool.step?, Pool.spawn?, if_neg hnot]
    refine ⟨pool, ?_, ?_, hs, hc, ho⟩
    · rw [spawn, take_of_none hp hnone]
    · rw [spawn, take_of_none hp hnone]
      exact hp
  | succ count ih =>
    have hlt : pool.owner = .spawning ∧ pool.workers.length < pool.size := ⟨ho, by omega⟩
    have hstep : pool.step? (.spawn none) =
        some { pool with workers := pool.workers ++ [.spawned] } := by
      simp only [Pool.step?, Pool.spawn?, if_pos hlt]
    obtain ⟨moved, hl, hrest⟩ := @ih _ _ (pool?_setPool _ hp) (hs.step rfl hstep) ho
      (by simp only [List.length_append, List.length_singleton]; omega)
    rw [← take_of_step? hp hstep rfl] at hl hrest
    refine ⟨moved, hl.trans ?_, hrest⟩
    rw [take_of_step? hp hstep rfl]
    exact List.length_set

theorem exists_build (files : FileSystem) {size : Nat} (hs : 1 ≤ size) :
    let shop : Workshop := { files }
    ∃ actions, (∀ action ∈ actions, action.isInternal) ∧
      shop.build size false none = (shop.addPool (.start size false)).takeAll 0 actions ∧
      (shop.build size false none).IsReady := by
  intro shop
  let start : Pool Effect := .start size false
  have hsteady : start.IsSteady := ⟨.start false hs, Pool.actsOnly_start size false, Nat.zero_le 1⟩
  obtain ⟨spawned, hl, hp, hspawned, hfull, ho⟩ := @exists_spawn (shop.addPool start) start rfl
    hsteady rfl SystemError.tryAgain size (Nat.zero_add size)
  obtain ⟨actions, final, hactions, hsettle, hlength, hfinal, hfinals, hbuilt, hrest⟩ :=
    exists_takeAll_of_settle Pool.kept_building hl hp hspawned
      ⟨hfull, .inl (by rw [ho]; rfl)⟩
  have hbuild : shop.build size false none =
      ((shop.addPool start).spawn 0 SystemError.tryAgain size).settle := by
    simp only [build, Option.getD_none, Nat.min_self]
    rfl
  refine ⟨List.replicate size (.spawn none) ++ [.spawn (some SystemError.tryAgain)] ++ actions,
    ?_, ?_, ?_⟩
  · intro action hm
    rcases List.mem_append.mp hm with hm | hm
    · rcases List.mem_append.mp hm with hm | hm
      · rw [List.eq_of_mem_replicate hm]
        rfl
      · rw [List.mem_singleton.mp hm]
        rfl
    · exact hactions action hm
  · rw [hbuild, hsettle, spawn_eq_takeAll]
    exact (List.foldl_append ..).symm
  · rw [hbuild]
    exact ⟨hlength, final, hfinal, .of_atRest_building hfinals hrest hbuilt⟩

namespace IsReady

/-! ## Copying -/

theorem congr {next : Workshop} (h : shop.IsReady) (hp : next.pools = shop.pools) :
    next.IsReady := by
  obtain ⟨hl, pool, hpool, hready⟩ := h
  refine ⟨by rwa [hp], pool, ?_, hready⟩
  rw [pool?, hp]
  exact hpool

theorem submit (h : shop.IsReady) (id : ErrandId) :
    (shop.submit 0 (.act (.copy id) .done)).1.IsReady := by
  obtain ⟨hl, pool, hp, hready⟩ := h
  obtain ⟨moved, hplay, hmoved, hlast⟩ := hready.submit id
  obtain ⟨next, hnext, -, -, hlength, hp'⟩ := submit_of_play? hp hplay hlast
  rw [hnext]
  exact ⟨hlength.trans hl, moved, hp', hmoved⟩

theorem copy (h : shop.IsReady) (source destination : Path) :
    (Tree.copy shop source destination (some 0)).1.IsReady := by
  have hshop : (Tree.copy shop source destination (some 0)).1 =
      (Tree.walk (fun progress => progress.shop.files)
        (Tree.Progress.handle source destination (some 0)) Error.io source ⟨shop, []⟩).1.shop := by
    unfold Tree.copy
    generalize Tree.walk _ _ _ _ _ = result
    obtain ⟨progress, _ | e⟩ := result <;> rfl
  rw [hshop]
  refine Tree.walk_keeps (I := fun progress : Tree.Progress => progress.shop.IsReady) ?_ source h
  intro item progress hp
  cases hd : item.isDirectory with
  | true =>
    rw [Tree.handle_directory hd]
    exact hp.congr rfl
  | false =>
    rw [Tree.handle_file hd]
    cases Tree.refusalOf? source destination item with
    | some e => exact hp
    | none =>
      let errand := Tree.errandOf source destination (some 0) item
      have hadded : (progress.shop.addErrand errand).IsReady := hp.congr rfl
      have hsubmit := hadded.submit progress.shop.errands.length
      simp only [Tree.Progress.carry]
      generalize Workshop.submit _ 0 _ = submitted at hsubmit ⊢
      obtain ⟨next, _ | e⟩ := submitted <;> exact hsubmit

/-! ## Waiting -/

/-- Whoever waits for a pool that is ready, finds it idle in the end. -/
theorem exists_wait (h : shop.IsReady) : ∃ actions, (∀ action ∈ actions, action.isInternal) ∧
    shop.wait 0 = shop.takeAll 0 (.call .wait :: actions) ∧
    (shop.wait 0).reply? 0 (shop.nextCaller 0) = some .drained ∧ (shop.wait 0).IsReady := by
  obtain ⟨hl, pool, hp, hready⟩ := h
  let called : Pool Effect := { pool with callers := pool.callers ++ [.checking] }
  have hstep : pool.step? (.call .wait) = some called := by
    simp only [Pool.step?, Pool.call?, if_pos (Or.inl hready.idle)]
    rfl
  have htake := take_of_step? hp hstep rfl
  have hcalled : called.IsSteady := by
    refine ⟨hready.reachable.step _ hstep, hready.copies.step rfl hstep, ?_⟩
    have hnone := Pool.unanswered_of_isQuiet hready.quiet
    unfold Pool.unanswered at hnone ⊢
    rw [List.countP_append, hnone]
    exact Nat.le_refl 1
  have hnew : called.callers[pool.callers.length]? = some .checking :=
    List.getElem?_concat_length
  have hlength' : (shop.setPool 0 called).pools.length = 1 := List.length_set.trans hl
  obtain ⟨actions, final, hactions, hsettle, hlength, hfinal, hsteady, ⟨⟨hfull, hidle⟩, hawaited⟩,
      hrest⟩ := exists_takeAll_of_settle
    ((Pool.kept_full.and Pool.kept_idle).and (Pool.kept_awaited pool.callers.length))
    hlength' (pool?_setPool called hp) hcalled
    ⟨⟨hready.full, hready.idle⟩, .checking, hnew, .inl rfl⟩
  have hquiet := hrest.isQuiet hsteady.reachable hsteady.copies.lost_eq_zero
  rw [wait, htake]
  refine ⟨actions, hactions, ?_, ?_, hlength, final, hfinal, hsteady.reachable, hsteady.copies,
    hfull, hidle, hquiet⟩
  · rw [hsettle]
    exact congrArg (·.takeAll 0 actions) htake.symm
  · have hnext : shop.nextCaller 0 = pool.callers.length := by simp [nextCaller, hp]
    rw [reply?_eq_some_iff hfinal, hnext]
    obtain ⟨caller, hc, hw | rfl⟩ := hawaited
    · have hfinished := List.all_eq_true.mp hquiet caller (List.mem_of_getElem? hc)
      cases caller with
      | checking | sleeping => cases hfinished
      | _ => cases hw
    · exact hc

/-! ## Destroying -/

/-- A pool that is ready can be destroyed, and nothing keeps it from its end. -/
theorem exists_destroy (h : shop.IsReady) : ∃ actions, (∀ action ∈ actions, action.isInternal) ∧
    shop.destroy 0 [] false = shop.takeAll 0 (.destroy :: actions) ∧
    ((shop.destroy 0 [] false).pool? 0).map Pool.owner = some .closed := by
  obtain ⟨hl, pool, hp, hready⟩ := h
  let given : Pool Effect := { pool with owner := .raising }
  let raised : Pool Effect := { pool with shutdown := true, owner := .watching }
  have hgive : pool.step? .destroy = some given := by
    simp only [Pool.step?, Pool.destroy?, hready.quiet, hready.idle, if_true]
    rfl
  have hraise : given.step? .owner = some raised := rfl
  have hgiven := pool?_setPool given hp
  have hraised := pool?_setPool raised hgiven
  have htake : (shop.take 0 .destroy).take 0 .owner =
      (shop.setPool 0 given).setPool 0 raised := by
    rw [take_of_step? hp hgive rfl, take_of_step? hgiven hraise rfl]
  have hsteady : raised.IsSteady := by
    refine ⟨(hready.reachable.step _ hgive).step _ hraise,
      (hready.copies.step rfl hgive).step rfl hraise, ?_⟩
    exact (Pool.unanswered_of_isQuiet hready.quiet).le.trans (Nat.zero_le 1)
  obtain ⟨actions, final, hactions, hsettle, -, hfinal, hfinals, ⟨⟨hfull, hshut⟩, hne⟩, hrest⟩ :=
    exists_takeAll_of_settle ((Pool.kept_full.and Pool.kept_shutdown).and Pool.kept_ne_unwound)
      (by simpa [setPool] using hl) hraised hsteady ⟨⟨hready.full, rfl⟩, by simp [raised]⟩
  have hdestroy : shop.destroy 0 [] false = ((shop.setPool 0 given).setPool 0 raised).settle := by
    rw [← htake]
    simp [destroy, hp, hready.shutdown_eq]
  refine ⟨.owner :: actions, ?_, ?_, ?_⟩
  · intro action hm
    rcases List.mem_cons.mp hm with rfl | hm
    · rfl
    · exact hactions action hm
  · rw [hdestroy, hsettle, ← htake]
    rfl
  · have hends := (hfinals.reachable.acts_or_isDone
      (hfinals.reachable.owner_ne_idle hshut)).resolve_left (hrest.not_acts hfull)
    have hdone := hends.resolve_right (hfinals.reachable.not_isStranded hfinals.copies.lost_eq_zero)
    rw [hdestroy, hfinal, Option.map_some]
    exact congrArg some ((Owner.eq_closed_or_of_isDone hdone).resolve_right hne)

end IsReady

end Workshop
end TreePool
