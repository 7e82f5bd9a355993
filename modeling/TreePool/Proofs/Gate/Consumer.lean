import TreePool.GatedQueue
import TreePool.Proofs.Run
import Mathlib.Data.List.Induction

/-! # A single consumer at a queue

The gate of a queue remembers one signal for any number of tasks, and a consumer closes it before
each pull. Since a pull that leaves tasks behind arms the gate again, it is armed whenever something
is queued, whatever came before. So a consumer who goes on while the gate is armed takes every
queued task, in the order in which they were pushed, and stops right behind the last one; a signal
that was left over when nothing is queued costs it one idle turn: `custody_of_play?`.
-/

namespace TreePool
namespace GatedQueue

variable {α : Type}

/-! ## Serving -/

def serve? (queue : GatedQueue α) : Option (Option α × GatedQueue α) := queue.pass?.map pull

/-- A bound for the number of turns until the gate is closed for good. -/
def turns (queue : GatedQueue α) : Nat :=
  if queue.gate.armed then queue.tasks.length + 1 else 0

variable {queue next : GatedQueue α} {task? : Option α} {task : α} {rest : List α}

theorem serve?_of_closed (h : queue.gate.armed = false) : queue.serve? = none := by
  rw [serve?, pass?_of_closed h, Option.map_none]

/-- The last task leaves the gate closed, and any other one arms it again. -/
theorem serve?_of_cons (ha : queue.gate.armed = true) (h : queue.tasks = task :: rest) :
    queue.serve? = some (some task, ⟨rest, ⟨!rest.isEmpty⟩⟩) := by
  rw [serve?, pass?_of_armed ha, Option.map_some, pull, tasks_reset, h]
  cases rest <;> rfl

theorem serve?_of_nil (ha : queue.gate.armed = true) (h : queue.tasks = []) :
    queue.serve? = some (none, .empty) := by
  have hpull : queue.reset.pull = (none, queue.reset) := pull_of_nil h
  rw [serve?, pass?_of_armed ha, Option.map_some, hpull, reset, h]
  rfl

theorem turns_lt_of_serve? (h : queue.serve? = some (task?, next)) : next.turns < queue.turns := by
  cases ha : queue.gate.armed with
  | false =>
    rw [serve?_of_closed ha] at h
    cases h
  | true =>
    cases ht : queue.tasks with
    | nil =>
      rw [serve?_of_nil ha ht] at h
      cases h
      simp [turns, ha, empty]
    | cons task rest =>
      rw [serve?_of_cons ha ht] at h
      cases h
      cases rest <;> simp [turns, ha, ht]

/-- Serves while the gate is armed: what was taken in each turn, and the queue that is left. -/
def drain (queue : GatedQueue α) : List (Option α) × GatedQueue α :=
  match _h : queue.serve? with
  | none => ([], queue)
  | some (task?, next) =>
    let (taken, last) := next.drain
    (task? :: taken, last)
termination_by queue.turns
decreasing_by exact turns_lt_of_serve? _h

theorem drain_of_none (h : queue.serve? = none) : queue.drain = ([], queue) := by
  rw [drain]
  split
  · rfl
  · next hs => cases h.symm.trans hs

theorem drain_of_some (h : queue.serve? = some (task?, next)) :
    queue.drain = (task? :: next.drain.1, next.drain.2) := by
  rw [drain]
  split
  · next hs => cases h.symm.trans hs
  · next hs =>
    cases h.symm.trans hs
    rfl

theorem drain_empty : (empty : GatedQueue α).drain = ([], .empty) := drain_of_none rfl

/-- Without tasks a consumer finds the gate closed, or closes it in vain. -/
theorem drain_of_nil (h : queue.tasks = []) :
    queue.drain = (if queue.gate.armed then [none] else [], .empty) := by
  cases ha : queue.gate.armed with
  | false =>
    rw [drain_of_none (serve?_of_closed ha)]
    obtain ⟨tasks, ⟨armed⟩⟩ := queue
    cases h
    cases ha
    rfl
  | true =>
    rw [drain_of_some (serve?_of_nil ha h), drain_empty]
    rfl

/-- A consumer who finds the gate armed takes all tasks, one in each turn, and no turn more. -/
theorem drain_of_armed (ha : queue.gate.armed = true) (hne : queue.tasks ≠ []) :
    queue.drain = (queue.tasks.map some, .empty) := by
  obtain ⟨tasks, gate⟩ := queue
  induction tasks generalizing gate with
  | nil => exact absurd rfl hne
  | cons task rest ih =>
    rw [drain_of_some (serve?_of_cons ha rfl)]
    cases rest with
    | nil =>
      rw [drain_of_nil rfl]
      rfl
    | cons second rest =>
      have hrest := ih ⟨true⟩ rfl (List.cons_ne_nil second rest)
      rw [List.isEmpty_cons, Bool.not_false, hrest]
      rfl

/-! ## Moves -/

/-- What a single thread can do with a queue. Whoever gets through the gate pulls. -/
inductive Move (α : Type) where
  | push (task : α)
  | pull
  | clear
  | post
  | postAll
  | serve

def Move.pushed? : Move α → Option α
  | .push task => some task
  | _ => none

inductive Fate where
  | pulled
  | cleared
deriving DecidableEq

/-- A queue with all tasks that were ever pushed, in order, and all that have left it, in the order
in which they left. -/
structure Session (α : Type) where
  queue : GatedQueue α := .empty
  pushed : List α := []
  left : List (α × Fate) := []

namespace Session

def having (session : Session α) (fate : Fate) : List α :=
  (session.left.filter (·.2 = fate)).map Prod.fst

def take (session : Session α) (pull : Option α × GatedQueue α) : Session α :=
  { session with
    queue := pull.2
    left := session.left ++ pull.1.toList.map (·, .pulled) }

def step? (session : Session α) : Move α → Option (Session α)
  | .push task => some { session with
      queue := session.queue.push task
      pushed := session.pushed ++ [task] }
  | .pull => some (session.take session.queue.pull)
  | .clear => some { session with
      queue := session.queue.clear
      left := session.left ++ session.queue.tasks.map (·, .cleared) }
  | .post | .postAll => some { session with queue := session.queue.post }
  | .serve => session.queue.serve?.map session.take

abbrev play? (session : Session α) (moves : List (Move α)) : Option (Session α) :=
  after? step? session moves

/-- What every move keeps: tasks leave a queue in the order in which they were pushed, and while
there are some in it, the gate is armed. -/
structure IsKept (session : Session α) : Prop where
  pushed_eq : session.pushed = session.left.map Prod.fst ++ session.queue.tasks
  armed : session.queue.tasks ≠ [] → session.queue.gate.armed = true

variable {session after : Session α} {move : Move α} {moves : List (Move α)}

theorem isKept_start : IsKept ({} : Session α) := ⟨rfl, fun h => absurd rfl h⟩

theorem IsKept.take (hk : session.IsKept) {queue : GatedQueue α}
    (hq : queue.tasks = session.queue.tasks) : (session.take queue.pull).IsKept where
  pushed_eq := by
    have hpull := toList_pull queue
    rw [hq] at hpull
    simp [Session.take, Function.comp_def, hk.pushed_eq, ← hpull]
  armed := armed_pull queue

theorem IsKept.step (hk : session.IsKept) (h : session.step? move = some after) :
    after.IsKept := by
  cases move with
  | push task =>
    cases h
    exact ⟨by simp [hk.pushed_eq], fun _ => rfl⟩
  | pull =>
    cases h
    exact hk.take rfl
  | clear =>
    cases h
    exact ⟨by simp [hk.pushed_eq, Function.comp_def], fun hne => absurd rfl hne⟩
  | post | postAll =>
    cases h
    exact ⟨hk.pushed_eq, fun _ => rfl⟩
  | serve =>
    obtain ⟨pull, hserve, rfl⟩ := Option.map_eq_some_iff.mp h
    obtain ⟨passed, hpass, rfl⟩ := Option.map_eq_some_iff.mp hserve
    obtain ⟨gate, -, rfl⟩ := Option.map_eq_some_iff.mp hpass
    exact hk.take rfl

theorem IsKept.play? (hk : session.IsKept) (h : session.play? moves = some after) :
    after.IsKept :=
  after?_induction (fun hk hs => hk.step hs) hk h

theorem pushed_of_play? (h : session.play? moves = some after) :
    after.pushed = session.pushed ++ moves.filterMap Move.pushed? := by
  induction moves generalizing session with
  | nil =>
    cases h
    exact (List.append_nil _).symm
  | cons move moves ih =>
    obtain ⟨between, hs, h⟩ := after?_cons_eq_some_iff.mp h
    rw [ih h]
    cases move with
    | push task =>
      cases hs
      simp [Move.pushed?]
    | serve =>
      obtain ⟨pull, -, rfl⟩ := Option.map_eq_some_iff.mp hs
      rfl
    | pull | clear | post | postAll =>
      cases hs
      rfl

theorem having_perm (session : Session α) :
    (session.having .pulled ++ session.having .cleared).Perm (session.left.map Prod.fst) := by
  have hother : session.left.filter (·.2 = .cleared) =
      session.left.filter fun entry => !decide (entry.2 = .pulled) := by
    refine List.filter_congr fun entry _ => ?_
    rcases entry with ⟨task, _ | _⟩ <;> rfl
  rw [having, having, ← List.map_append, hother]
  exact (List.filter_append_perm _ _).map _

/-- What has become of the tasks in a session, and what a consumer makes of those that are left. -/
structure Custody (moves : List (Move α)) (session : Session α) : Prop where
  pushed : session.pushed = moves.filterMap Move.pushed?
  /-- Tasks leave in the order in which they were pushed, and the others are queued in it. -/
  order : session.pushed = session.left.map Prod.fst ++ session.queue.tasks
  /-- Each task that was pushed was pulled, or it was cleared, or it is queued. -/
  fate : session.pushed.Perm
    (session.having .pulled ++ session.having .cleared ++ session.queue.tasks)
  pulled : (session.having .pulled).Sublist session.pushed
  armed : session.queue.tasks ≠ [] → session.queue.gate.armed = true
  /-- A consumer takes all tasks in as many turns, and closes the gate behind the last one. -/
  drain : session.queue.tasks ≠ [] →
    session.queue.drain = (session.queue.tasks.map some, .empty)
  idle : session.queue.tasks = [] →
    session.queue.drain = (if session.queue.gate.armed then [none] else [], .empty)

/-- Whatever a single thread does with a queue, as long as it pulls when it has got through the
gate, no task is lost, doubled or overtaken, and a consumer empties the queue exactly. -/
theorem custody_of_play? (h : ({} : Session α).play? moves = some session) :
    Custody moves session := by
  have hk := isKept_start.play? h
  refine ⟨pushed_of_play? h, hk.pushed_eq, ?_, ?_, hk.armed, ?_, drain_of_nil⟩
  · rw [hk.pushed_eq]
    exact session.having_perm.symm.append_right _
  · rw [hk.pushed_eq]
    exact (List.filter_sublist.map _).trans (List.sublist_append_left _ _)
  · exact fun hne => drain_of_armed (hk.armed hne) hne

/-- The first of three tasks is served and the other two are cleared; a signal that is left over
costs a turn in vain; then there is a burst, and one pull without the gate. -/
def burst : List (Move Nat) :=
  [.push 1, .push 2, .push 3, .serve, .postAll, .clear, .post, .serve, .push 4, .pull, .push 5,
    .push 6]

theorem custody_burst : ∃ session : Session Nat, ({} : Session Nat).play? burst = some session ∧
    session.left = [(1, .pulled), (2, .cleared), (3, .cleared), (4, .pulled)] ∧
    session.queue.tasks = [5, 6] ∧ Custody burst session ∧
    session.queue.drain = ([some 5, some 6], .empty) := by
  refine ⟨_, rfl, rfl, rfl, custody_of_play? rfl, ?_⟩
  exact drain_of_armed rfl (List.cons_ne_nil _ _)

end Session
end GatedQueue
end TreePool
