import TreePool.Proofs.Pool.History
import Mathlib.Data.List.Pairwise

/-! # The order of tasks

Until the owner clears the queue, tasks leave it in the order in which they came, and none is lost
or taken twice. The worker that takes a task is the only one that has to do with it: what the
history tells of the task, and what the worker still owes, is one performance of the task. A pool of
one worker performs the accepted tasks one after the other, from the first on.
-/

namespace TreePool

variable {ε : Type} {worker id : Nat} {ticket : Ticket} {event : Event ε} {task : Task ε}

/-! ## Performances -/

theorem Event.exists_isBy (h : event.isWork) : ∃ worker, event.isBy worker := by
  cases event with
  | accepted => cases h
  | taken worker => exact ⟨worker, beq_self_eq_true _⟩
  | did worker => exact ⟨worker, beq_self_eq_true _⟩

theorem Event.isWork_of_isBy (h : event.isBy worker) : event.isWork := by
  cases event with
  | accepted => cases h
  | _ => rfl

theorem Event.isWork_of_isFor (h : event.isFor ticket) : event.isWork := by
  cases event with
  | accepted => cases h
  | _ => rfl

theorem Event.eq_of_isFor {other : Ticket} (h : event.isFor ticket) (ho : event.isFor other) :
    ticket = other := by
  cases event with
  | accepted => cases h
  | _ => exact (beq_iff_eq.mp h).symm.trans (beq_iff_eq.mp ho)

theorem Event.taken?_eq_some_iff :
    event.taken? = some task ↔ ∃ worker, event = .taken worker task := by
  cases event <;> simp [Event.taken?]

namespace Task

theorem isFor_of_mem_performance (h : event ∈ task.performance worker) :
    event.isFor task.ticket := by
  rcases List.mem_cons.mp h with rfl | h
  · exact beq_self_eq_true _
  · obtain ⟨deed, _, rfl⟩ := List.mem_map.mp h
    exact beq_self_eq_true _

theorem filter_isFor_performance :
    (task.performance worker).filter (Event.isFor task.ticket) = task.performance worker :=
  List.filter_eq_self.mpr fun _ he => isFor_of_mem_performance he

theorem filter_isFor_performance_of_ne (h : task.ticket ≠ ticket) :
    (task.performance worker).filter (Event.isFor ticket) = [] :=
  List.filter_eq_nil_iff.mpr fun _ he hf => h (Event.eq_of_isFor (isFor_of_mem_performance he) hf)

/-- In a sequence of performances of different tasks, each task is performed once. -/
theorem filter_isFor_flatMap {tasks : List (Task ε)} (hd : (tasks.map Task.ticket).Nodup)
    (ht : task ∈ tasks) :
    (tasks.flatMap (Task.performance worker)).filter (Event.isFor task.ticket) =
      task.performance worker := by
  induction tasks with
  | nil => cases ht
  | cons head tasks ih =>
    rw [List.map_cons, List.nodup_cons] at hd
    rw [List.flatMap_cons, List.filter_append]
    rcases List.mem_cons.mp ht with rfl | hm
    · have hrest :
          (tasks.flatMap (Task.performance worker)).filter (Event.isFor task.ticket) = [] := by
        refine List.filter_eq_nil_iff.mpr fun event he hf => ?_
        obtain ⟨other, ho, he⟩ := List.mem_flatMap.mp he
        refine hd.1 (List.mem_map.mpr ⟨other, ho, ?_⟩)
        exact Event.eq_of_isFor (isFor_of_mem_performance he) hf
      rw [filter_isFor_performance, hrest, List.append_nil]
    · have hn : head.ticket ≠ task.ticket := fun he => hd.1 (List.mem_map.mpr ⟨task, hm, he.symm⟩)
      rw [filter_isFor_performance_of_ne hn, List.nil_append, ih hd.2 hm]

theorem map_ended_performance :
    ((task.performance worker).filterMap Event.ended?).map Prod.fst = [task.ticket] := by
  have hdeeds (body : Body ε) :
      ((body.deeds.map (Event.did worker task.ticket)).filterMap Event.ended?).map Prod.fst =
        [task.ticket] := by
    induction body with
    | done | panic => rfl
    | act _ _ ih => exact ih
    | submit _ _ _ ih => exact ih
  exact hdeeds task.body

end Task

namespace Pool

variable {pool next : Pool ε} {action : Action ε} {history : List (Event ε)} {phase : Phase ε}

/-! ## One worker for each task -/

/-- What the history tells of a task, and what a worker still owes it, is one performance by this
worker, and nobody else is in the body of the task. -/
structure Performs (history : List (Event ε)) (pool : Pool ε) (task : Task ε) (worker : Nat) :
    Prop where
  deeds : history.filter (Event.isFor task.ticket) ++
      (owed pool.workers worker).filter (Event.isFor task.ticket) = task.performance worker
  alone : ∀ id phase, pool.workers[id]? = some phase → phase.current? = some task.ticket →
    id = worker

theorem Performs.unique {other : Nat} (h : Performs history pool task worker)
    (ho : Performs history pool task other) (hm : .taken id task ∈ history) : worker = other := by
  have hf : .taken id task ∈ history.filter (Event.isFor task.ticket) :=
    List.mem_filter.mpr ⟨hm, beq_self_eq_true _⟩
  have hw := h.deeds ▸ List.mem_append_left _ hf
  have ho := ho.deeds ▸ List.mem_append_left _ hf
  simp only [Task.performance, List.mem_cons, List.mem_map, Event.taken.injEq, reduceCtorEq,
    and_false, exists_false, or_false, and_true] at hw ho
  exact hw.symm.trans ho

theorem mem_takenBy : task ∈ takenBy worker history ↔ .taken worker task ∈ history := by
  simp only [takenBy, List.mem_filterMap, List.mem_filter, Event.taken?_eq_some_iff]
  constructor
  · rintro ⟨_, ⟨hm, hb⟩, taker, rfl⟩
    rwa [← beq_iff_eq.mp hb]
  · intro hm
    exact ⟨_, ⟨hm, beq_self_eq_true _⟩, worker, rfl⟩

theorem Reachable.nodup_pulled (h : Reachable pool) : pool.pulled.Nodup := by
  have hd := h.nodup_accepted
  rw [h.accepted_eq, List.append_assoc] at hd
  exact (List.nodup_append.mp hd).1

theorem Run.nodup_taken (h : Run history pool) :
    ((history.filterMap Event.taken?).map Task.ticket).Nodup :=
  h.recorded.taken ▸ h.reachable.nodup_pulled

/-- A task is taken once, so that its ticket says who took it. -/
theorem Run.taken_inj (h : Run history pool) {other : Task ε} (hm : .taken worker task ∈ history)
    (ho : .taken id other ∈ history) (ht : other.ticket = task.ticket) : id = worker := by
  have hd := h.nodup_taken
  rw [List.Nodup, List.pairwise_map, List.pairwise_filterMap] at hd
  by_contra hn
  have : Std.Symm fun first second : Event ε => ∀ a, first.taken? = some a →
      ∀ b, second.taken? = some b → a.ticket ≠ b.ticket :=
    ⟨fun _ _ hne a ha b hb he => hne b hb a ha he.symm⟩
  exact hd.forall ho hm (by simp [hn]) other rfl task rfl ht

/-- A worker has to do only with tasks that it took. -/
theorem Run.exists_taken (h : Run history pool)
    (he : event ∈ history.filter (Event.isBy worker) ++ owed pool.workers worker)
    (hf : event.isFor ticket) : ∃ task, .taken worker task ∈ history ∧ task.ticket = ticket := by
  rw [h.filter_isBy_append_owed worker] at he
  obtain ⟨task, hm, he⟩ := List.mem_flatMap.mp he
  exact ⟨task, mem_takenBy.mp hm, Event.eq_of_isFor (Task.isFor_of_mem_performance he) hf⟩

theorem exists_mem_deeds (body : Body ε) : ∃ deed, deed ∈ body.deeds := by
  cases body <;> exact ⟨_, List.mem_cons_self⟩

theorem exists_mem_owed (hp : pool.workers[id]? = some phase) (hc : phase.current? = some ticket) :
    ∃ event ∈ owed pool.workers id, event.isFor ticket := by
  rw [owed_of_getElem? hp]
  cases phase with
  | running held body | pushing held _ body =>
    cases hc
    obtain ⟨deed, hd⟩ := exists_mem_deeds body
    exact ⟨_, List.mem_map.mpr ⟨deed, hd, rfl⟩, beq_self_eq_true _⟩
  | _ => cases hc

/-- Whoever has to do with a task is the worker that took it. -/
theorem Run.filter_isFor (h : Run history pool) (hm : .taken worker task ∈ history) :
    history.filter (Event.isFor task.ticket) =
      (history.filter (Event.isBy worker)).filter (Event.isFor task.ticket) := by
  rw [List.filter_filter]
  refine List.filter_congr fun event he => ?_
  cases hf : event.isFor task.ticket with
  | false => rfl
  | true =>
    obtain ⟨doer, hb⟩ := Event.exists_isBy (Event.isWork_of_isFor hf)
    have hd := List.mem_append_left (owed pool.workers doer) (List.mem_filter.mpr ⟨he, hb⟩)
    obtain ⟨other, ho, ht⟩ := h.exists_taken hd hf
    rw [h.taken_inj hm ho ht] at hb
    rw [hb, Bool.and_self]

theorem Run.performs (h : Run history pool) (hm : .taken worker task ∈ history) :
    Performs history pool task worker := by
  constructor
  · rw [h.filter_isFor hm, ← List.filter_append, h.filter_isBy_append_owed worker]
    have hsub : (history.filter (Event.isBy worker)).Sublist history := List.filter_sublist
    have hd := h.nodup_taken.sublist ((hsub.filterMap Event.taken?).map Task.ticket)
    exact Task.filter_isFor_flatMap hd (mem_takenBy.mpr hm)
  · intro id phase hp hc
    obtain ⟨event, he, hf⟩ := exists_mem_owed hp hc
    obtain ⟨other, ho, ht⟩ := h.exists_taken (List.mem_append_right _ he) hf
    exact h.taken_inj hm ho ht

structure Performed (history : List (Event ε)) (pool : Pool ε) (task : Task ε) : Prop where
  performance : ∃! worker, history.filter (Event.isFor task.ticket) = task.performance worker
  finished : (pool.finished.map Prod.fst).count task.ticket = 1
  dropped : pool.dropped.count task.ticket = 0

theorem Reachable.owed_of_working_eq_zero (h : Reachable pool) (hw : pool.working = 0)
    (worker : Nat) : owed pool.workers worker = [] := by
  have hidle := List.countP_eq_zero.mp (h.counted.working.symm.trans hw)
  cases hp : pool.workers[worker]? with
  | none => rw [owed, hp]; rfl
  | some phase =>
    rw [owed_of_getElem? hp]
    have hrests := hidle phase (List.mem_of_getElem? hp)
    cases phase with
    | running | pushing => exact absurd rfl hrests
    | _ => rfl

/-- Every ticket that was pulled or dropped was so once, and not both. -/
theorem Reachable.count_le_one (h : Reachable pool) (ticket : Ticket) :
    pool.pulled.count ticket + pool.dropped.count ticket ≤ 1 := by
  have hle := List.nodup_iff_count_le_one.mp h.nodup_accepted ticket
  rw [h.accepted_eq, List.count_append, List.count_append] at hle
  omega

theorem Run.performed (h : Run history pool) (hw : pool.working = 0)
    (hm : .taken worker task ∈ history) : Performed history pool task := by
  have hdone := (h.performs hm).deeds
  rw [h.reachable.owed_of_working_eq_zero hw, List.filter_nil, List.append_nil] at hdone
  have hpulled : 0 < pool.pulled.count task.ticket := by
    rw [← h.recorded.taken]
    exact List.count_pos_iff.mpr (List.mem_map.mpr
      ⟨task, List.mem_filterMap.mpr ⟨_, hm, rfl⟩, rfl⟩)
  have hcount := h.reachable.count_le_one task.ticket
  refine ⟨⟨worker, hdone, fun other ho => ?_⟩, ?_, by omega⟩
  · have heq := ho.symm.trans hdone
    simp only [Task.performance, List.cons.injEq, Event.taken.injEq] at heq
    exact heq.1.1
  · rw [(h.reachable.finished_perm_pulled hw).count_eq]
    omega

/-! ## A pool of one worker -/

theorem Run.filter_isWork (h : Run history pool) (hs : pool.size = 1) :
    history.filter Event.isWork = history.filter (Event.isBy 0) := by
  refine List.filter_congr fun event he => ?_
  cases hw : event.isWork with
  | false =>
    refine (Bool.eq_false_iff.mpr fun hb => ?_).symm
    rw [Event.isWork_of_isBy hb] at hw
    cases hw
  | true =>
    obtain ⟨doer, hb⟩ := Event.exists_isBy hw
    have hlt := h.lt_size he hb
    obtain rfl : doer = 0 := by omega
    exact hb.symm

/-- What is read off the work alone is read off the whole history. -/
theorem filterMap_filter_isWork {β : Type} {part? : Event ε → Option β}
    (h : ∀ task, part? (.accepted task) = none) (history : List (Event ε)) :
    (history.filter Event.isWork).filterMap part? = history.filterMap part? := by
  rw [List.filterMap_filter]
  congr 1
  funext event
  cases event with
  | accepted task => exact (h task).symm
  | _ => rfl

/-- The one worker performs the accepted tasks one after the other. -/
theorem Run.isPrefix_performances (h : Run history pool) (hs : pool.size = 1)
    (hc : pool.owner.hasCleared = false) :
    history.filter Event.isWork <+:
      (history.filterMap Event.accepted?).flatMap (Task.performance 0) := by
  have htaken : takenBy 0 history = history.filterMap Event.taken? := by
    rw [takenBy, ← h.filter_isWork hs, filterMap_filter_isWork fun _ => rfl]
  have hwork := h.filter_isBy_append_owed 0
  rw [← h.filter_isWork hs, htaken] at hwork
  rw [h.accepted_eq hc, List.flatMap_append, ← hwork, List.append_assoc]
  exact List.prefix_append _ _

theorem Run.ended_isPrefix (h : Run history pool) (hs : pool.size = 1)
    (hc : pool.owner.hasCleared = false) : pool.finished.map Prod.fst <+: pool.accepted := by
  have hprefix := ((h.isPrefix_performances hs hc).filterMap Event.ended?).map Prod.fst
  rw [filterMap_filter_isWork (fun _ => rfl), h.recorded.ended, List.filterMap_flatMap,
    List.map_flatMap] at hprefix
  simp only [Task.map_ended_performance] at hprefix
  rwa [← List.map_eq_flatMap, h.recorded.accepted] at hprefix

/-! ## Nothing lost, nothing twice, nothing out of order -/

/-- What a history shows before the queue is cleared. -/
structure Orderly (history : List (Event ε)) (pool : Pool ε) : Prop
    extends Recorded history pool where
  fifo : history.filterMap Event.accepted? =
    history.filterMap Event.taken? ++ pool.queue.tasks
  nodup : pool.accepted.Nodup
  refused : ∀ ticket ∈ pool.refused, ticket ∉ pool.accepted
  performed : ∀ task ∈ history.filterMap Event.taken?, ∃! worker, Performs history pool task worker
  oneByOne : pool.size = 1 → history.filter Event.isWork <+:
    (history.filterMap Event.accepted?).flatMap (Task.performance 0)
  endedInOrder : pool.size = 1 → pool.finished.map Prod.fst <+: pool.accepted

theorem Run.orderly (h : Run history pool) (hc : pool.owner.hasCleared = false) :
    Orderly history pool where
  toRecorded := h.recorded
  fifo := h.accepted_eq hc
  nodup := h.reachable.nodup_accepted
  refused _ hr := h.reachable.not_mem_accepted hr
  performed task ht := by
    obtain ⟨event, hm, he⟩ := List.mem_filterMap.mp ht
    obtain ⟨worker, rfl⟩ := Event.taken?_eq_some_iff.mp he
    exact ⟨worker, h.performs hm, fun other ho => ho.unique (h.performs hm) hm⟩
  oneByOne hs := h.isPrefix_performances hs hc
  endedInOrder hs := h.ended_isPrefix hs hc

/-- One worker; two tasks are submitted while it sleeps at the gate. The first one panics, the
second one is in progress. -/
def oneWorker : List (Action Nat) :=
  List.flatten [[.spawn none, .owner], List.replicate 3 (.worker 0 none), [.owner, .owner],
    List.replicate 2 (.worker 0 none),
    [.call (.submit (.act 7 (.panic .other))), .caller 0 none, .caller 0 (some 0),
      .call (.submit (.act 8 .done)), .caller 1 none, .caller 1 none],
    List.replicate 15 (.worker 0 none)]

theorem orderly_oneWorker :
    ∃ (history : List (Event Nat)) (pool : Pool Nat), Run history pool ∧
      pool.owner.hasCleared = false ∧ pool.size = 1 ∧
      history.filter Event.isWork =
        [.taken 0 ⟨0, .act 7 (.panic .other)⟩, .did 0 0 (.act 7),
          .did 0 0 (.finish (.panicked .other)), .taken 0 ⟨1, .act 8 .done⟩, .did 0 1 (.act 8)] ∧
      Orderly history pool := by
  have hstart : Run [] (start 1 false : Pool Nat) := .start false (by decide)
  obtain ⟨pool, hr, ht⟩ := hstart.exists_of_play? oneWorker
    (fun pool => pool.size = 1 ∧ pool.owner.hasCleared = false) (by decide +kernel)
  obtain ⟨hs, hc⟩ := of_decide_eq_true ht
  exact ⟨_, pool, hr, hc, hs, by decide +kernel, hr.orderly hc⟩

end Pool
end TreePool
