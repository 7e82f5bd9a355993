import TreePool.Proofs.Pool.Departure
import Mathlib.Data.List.Nodup

/-! # What becomes of tickets

Every ticket that was handed out is in one place: it was accepted, it was refused, or somebody is
about to offer or push its task. What was accepted is, in this order, what was pulled, dropped, and
is queued; and what was pulled has ended or is in the hands of a worker. So no task is lost and none
is there twice.
-/

namespace TreePool

variable {ε : Type}

def Phase.holds (ticket : Ticket) : Phase ε → Bool
  | .running held _ | .pushing held _ _ => held == ticket
  | _ => false

def Phase.pends (ticket : Ticket) : Phase ε → Bool
  | .pushing _ task _ => task.ticket == ticket
  | _ => false

def Caller.pends (ticket : Ticket) : Caller ε → Bool
  | .offering task | .pushing task => task.ticket == ticket
  | _ => false

theorem Phase.isWorking_of_holds {ticket : Ticket} {phase : Phase ε} (h : phase.holds ticket) :
    phase.isWorking := by
  cases phase with
  | running | pushing => rfl
  | _ => cases h

@[simp] theorem Caller.pends_notify (ticket : Ticket) (caller : Caller ε) :
    caller.notify.pends ticket = caller.pends ticket := by
  cases caller <;> rfl

theorem count_concat (tickets : List Ticket) (last ticket : Ticket) :
    (tickets ++ [last]).count ticket = tickets.count ticket + (last == ticket).toNat :=
  countP_concat _ tickets last

theorem decide_lt_succ (ticket offered : Nat) :
    (decide (ticket < offered + 1)).toNat =
      (decide (ticket < offered)).toNat + (offered == ticket).toNat := by
  by_cases h : offered = ticket
  · simp [h]
  · have hlt : ticket < offered + 1 ↔ ticket < offered := by omega
    simp [hlt, h]

namespace Pool

variable {pool next after : Pool ε} {action : Action ε} {id : Nat} {phase phase' : Phase ε}
variable {signals : Bool} {woken : Option Nat} {workers workers' : List (Phase ε)}
variable {caller caller' : Caller ε}

/-! ## First in, first out -/

theorem Reachable.dropped_eq_of_tasks (h : Reachable pool) (ht : pool.queue.tasks ≠ []) :
    pool.dropped = [] := by
  cases hc : pool.owner.hasCleared with
  | true => exact absurd (h.cleared hc).1 ht
  | false => exact h.dropped_eq hc

theorem Reachable.accepted_eq (h : Reachable pool) :
    pool.accepted = pool.pulled ++ pool.dropped ++ pool.queue.tasks.map Task.ticket := by
  induction h with
  | start => rfl
  | @step pool _ action hr hs ih =>
    cases transition_of_step? hs with
    | owner ht =>
      cases ht with
      | clear | unwind => simpa using ih
      | _ => exact ih
    | worker hp ht hw =>
      cases ht with
      | push => simp [ih]
      | pull ht =>
        have hd := hr.dropped_eq_of_tasks (by simp [ht])
        simp [ih, ht, hd, GatedQueue.tasks_pull ht]
      | _ => exact ih
    | caller hc ht hw =>
      cases ht with
      | push => simp [ih]
      | _ => exact ih
    | _ => exact ih

/-! ## Tasks in the hands of workers -/

theorem WorkerStep.count_pulled_add (h : WorkerStep pool id phase phase' signals after)
    (ticket : Ticket) :
    after.pulled.count ticket + (pool.finished.map Prod.fst).count ticket +
        (phase.holds ticket).toNat =
      pool.pulled.count ticket + (after.finished.map Prod.fst).count ticket +
        (phase'.holds ticket).toNat := by
  cases h with
  | pull =>
    simp only [count_concat, Phase.holds, Bool.toNat_false]
    omega
  | complete | panic =>
    simp only [List.map_append, List.map_cons, List.map_nil, count_concat, Phase.holds,
      Bool.toNat_false]
    omega
  | part => cases pool.fragile <;> rfl
  | _ => rfl

theorem Reachable.count_pulled (h : Reachable pool) (ticket : Ticket) :
    pool.pulled.count ticket =
      (pool.finished.map Prod.fst).count ticket + pool.workers.countP (Phase.holds ticket) := by
  induction h with
  | start => rfl
  | step action _ hs ih =>
    cases transition_of_step? hs with
    | owner ht =>
      cases ht with
      | spawn => simpa [Phase.holds] using ih
      | broadcast => exact ih.trans (congrArg _ (countP_rouse rfl _).symm)
      | _ => exact ih
    | @worker id phase phase' _ after _ workers hp ht hw =>
      have hcount := hw.countP_add hp (f := Phase.holds ticket) rfl
      have hstep := ht.count_pulled_add ticket
      change after.pulled.count ticket =
        (after.finished.map Prod.fst).count ticket + workers.countP (Phase.holds ticket)
      omega
    | stir hp => exact ih.trans (congrArg _ ((Signal.wakes hp).countP_eq rfl).symm)
    | caller hc ht hw =>
      have hcount := hw.countP_eq (f := Phase.holds ticket) rfl
      cases ht <;> exact ih.trans (congrArg _ hcount.symm)
    | _ => exact ih

/-! ## One place for each ticket -/

theorem WorkerStep.count_accepted_add (h : WorkerStep pool id phase phase' signals after)
    (ticket : Ticket) :
    after.accepted.count ticket + after.refused.count ticket + (phase'.pends ticket).toNat +
        (decide (ticket < pool.offered)).toNat =
      pool.accepted.count ticket + pool.refused.count ticket + (phase.pends ticket).toNat +
        (decide (ticket < after.offered)).toNat := by
  cases h with
  | push =>
    simp only [count_concat, Phase.pends, Bool.toNat_false]
    omega
  | refuse =>
    simp only [count_concat, decide_lt_succ, Phase.pends, Bool.toNat_false]
    omega
  | offer =>
    simp only [decide_lt_succ, Phase.pends, Bool.toNat_false]
    omega
  | part => cases pool.fragile <;> rfl
  | _ => rfl

theorem CallerStep.count_accepted_add (h : CallerStep pool caller caller' signals after)
    (ticket : Ticket) :
    after.accepted.count ticket + after.refused.count ticket + (caller'.pends ticket).toNat =
      pool.accepted.count ticket + pool.refused.count ticket + (caller.pends ticket).toNat := by
  cases h with
  | push | refuse =>
    simp only [count_concat, Caller.pends, Bool.toNat_false]
    omega
  | _ => rfl

/-- Every ticket that was handed out is in exactly one place, and no other ticket is anywhere. -/
theorem Reachable.count_tickets (h : Reachable pool) (ticket : Ticket) :
    pool.accepted.count ticket + pool.refused.count ticket +
        pool.workers.countP (Phase.pends ticket) + pool.callers.countP (Caller.pends ticket) =
      (decide (ticket < pool.offered)).toNat := by
  induction h with
  | start => rfl
  | @step pool _ action _ hs ih =>
    cases transition_of_step? hs with
    | owner ht =>
      cases ht with
      | spawn => simpa [Phase.pends] using ih
      | broadcast =>
        rw [countP_rouse rfl]
        exact ih
      | _ => exact ih
    | @worker id phase phase' _ after _ workers hp ht hw =>
      have hcount := hw.countP_add hp (f := Phase.pends ticket) rfl
      have hstep := ht.count_accepted_add ticket
      have hcallers : after.callers.countP (Caller.pends ticket) =
          pool.callers.countP (Caller.pends ticket) := by
        cases ht with
        | rest =>
          dsimp only
          split_ifs
          · simp [List.countP_map, Function.comp_def]
          · rfl
        | _ => rfl
      change after.accepted.count ticket + after.refused.count ticket +
          workers.countP (Phase.pends ticket) + after.callers.countP (Caller.pends ticket) =
        (decide (ticket < after.offered)).toNat
      omega
    | stir hp =>
      rw [(Signal.wakes hp).countP_eq rfl]
      exact ih
    | callWait => simpa [Caller.pends] using ih
    | callSubmit =>
      simp only [countP_concat, Caller.pends, decide_lt_succ]
      omega
    | @caller id caller caller' _ after _ workers hc ht hw =>
      have hcount := hw.countP_eq (f := Phase.pends ticket) rfl
      have hcallers := countP_set_add (Caller.pends ticket) (b := caller') hc
      have hstep := ht.count_accepted_add ticket
      have hoffered : after.offered = pool.offered := by cases ht <;> rfl
      change after.accepted.count ticket + after.refused.count ticket +
          workers.countP (Phase.pends ticket) +
          (pool.callers.set id caller').countP (Caller.pends ticket) =
        (decide (ticket < after.offered)).toNat
      rw [hoffered]
      omega
    | stirCaller hc =>
      have hcallers := countP_set_add (Caller.pends ticket) (b := .sleeping true) hc
      simp only [Caller.pends, Bool.toNat_false] at hcallers ⊢
      omega
    | fail => exact ih

theorem Reachable.lt_offered_of_pulled (h : Reachable pool) {ticket : Ticket}
    (hp : 0 < pool.pulled.count ticket) : ticket < pool.offered := by
  have hcount := h.count_tickets ticket
  rw [h.accepted_eq, List.count_append, List.count_append] at hcount
  by_contra hlt
  rw [decide_eq_false hlt, Bool.toNat_false] at hcount
  omega

theorem Reachable.nodup_accepted (h : Reachable pool) : pool.accepted.Nodup := by
  refine List.nodup_iff_count_le_one.mpr fun ticket => ?_
  have hcount := h.count_tickets ticket
  have hle := Bool.toNat_le (decide (ticket < pool.offered))
  omega

theorem Reachable.not_mem_accepted (h : Reachable pool) {ticket : Ticket}
    (hr : ticket ∈ pool.refused) : ticket ∉ pool.accepted := by
  intro ha
  have hcount := h.count_tickets ticket
  have hle := Bool.toNat_le (decide (ticket < pool.offered))
  have hr := List.count_pos_iff.mpr hr
  have ha := List.count_pos_iff.mpr ha
  omega

theorem Reachable.finished_perm_pulled (h : Reachable pool) (hw : pool.working = 0) :
    (pool.finished.map Prod.fst).Perm pool.pulled := by
  refine List.perm_iff_count.mpr fun ticket => ?_
  have hidle := List.countP_eq_zero.mp (h.counted.working.symm.trans hw)
  have hheld : pool.workers.countP (Phase.holds ticket) = 0 := by
    exact List.countP_eq_zero.mpr fun phase hm hh => hidle phase hm (Phase.isWorking_of_holds hh)
  rw [h.count_pulled ticket, hheld, Nat.add_zero]

end Pool
end TreePool
